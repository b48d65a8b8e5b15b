import Doors.Memory.Mapping
import Doors.Memory.Threaded

/-!
# Doors.Memory.PagingInit

`Paging::init` (`arch/i386/Paging.cc`) on the allocator of `Memory.Pmm`: the page
directory with its identity map, the mirror of it in the higher half, and the trampoline
page.

The frames come from the head of the free list and are given back when there are not
enough.

* `Holds` — which frames were handed out since the allocator was set up;
* `setup_takes`, `mirror_entries`, `trampoline_takes` — what the parts of `init` take, and
  what they write to the directory;
* `pagingInit_takes` — the frames that `init` keeps.
-/

namespace Doors.Memory

def higherHalfPde : Nat := 768
def trampolineVaddr : Nat := 0xBF000000

/-! ## the model -/

/-- `calcNumPageTables`. -/
def calcNumPageTables (stop : Nat) : Nat := max 1 ((stop + (pdeSize - 1)) % 2 ^ 32 / pdeSize)

namespace Phys

variable (st : Phys)

/-- The first `n` entries of the table `t`, which maps the pages from `base` on. -/
def fillTable (t base stop : Nat) : Nat → Phys → Phys
  | 0, st => st
  | n + 1, st =>
      let st := fillTable t base stop n st
      let pageAddr := base + n * pageSize
      if pageAddr < stop then st.setEntry t n (mkEntry pageAddr (pagePresent + pageRw)) else st

/-- `Paging::setupIdentityMap`: `k` tables from entry `i` on. -/
def setupIdentityMap (dir stop : Nat) : Nat → Nat → Phys → Bool × Phys
  | 0, _, st => (true, st)
  | k + 1, i, st =>
      match st.allocFrame with
      | (none, st) =>
          (false, (List.range i).foldl (fun st j => st.freeFrame (addr (st.entry dir j))) st)
      | (some t, st) =>
          let st := fillTable t (i * pdeSize) stop pteCount st
          setupIdentityMap dir stop k (i + 1) (st.setEntry dir i (mkEntry t (pagePresent + pageRw)))

/-- `Paging::mirrorHigherHalf`. -/
def mirrorHigherHalf (dir n : Nat) : Phys :=
  (List.range n).foldl (fun st i => st.setEntry dir (higherHalfPde + i)
    (mkEntry (st.entry dir i) (pagePresent + pageRw))) st

/-- `Paging::mapTrampoline`. -/
def mapTrampoline (dir : Nat) : Phys :=
  match st.allocFrame with
  | (none, st) => st
  | (some f, st) =>
      match st.mapPage dir trampolineVaddr f (pagePresent + pageRw) with
      | (true, st) => st
      | (false, st) => st.freeFrame f

/-- `Paging::init` with `n` tables, after `roundUp4K` and `calcNumPageTables`. -/
def initTables (stop n : Nat) : Phys :=
  match st.allocFrame with
  | (none, st) => st
  | (some dir, st) =>
      match setupIdentityMap dir stop n 0 st with
      | (false, st) => st.freeFrame dir
      | (true, st) =>
          let st := (st.mirrorHigherHalf dir n).removeFramesAbove stop
          if addr (st.entry dir 0) ≠ addr (st.entry dir higherHalfPde) then st
            else st.mapTrampoline dir

/-- `Paging::init`. -/
def pagingInit (identityMapEnd : Nat) : Phys :=
  st.initTables (pageUp identityMapEnd) (calcNumPageTables (pageUp identityMapEnd))

end Phys

/-! ## frames in hand -/

/-- A free list that is in order: frames with a count of 0, each once. -/
structure Ready (p : Phys) : Prop where
  nodup : p.free.Nodup
  frame : ∀ a ∈ p.free, a % pageSize = 0 ∧ 0 < a ∧ a < 2 ^ 32 ∧ p.Counted a
  idle : ∀ a ∈ p.free, p.refs (a / pageSize) = 0

/-- Since `p` the frames `L` were handed out and not given back. -/
structure Holds (p : Phys) (L : List Nat) (st : Phys) : Prop where
  max : st.maxFrameIdx = p.maxFrameIdx
  nodup : (L ++ st.free).Nodup
  sub : ∀ a ∈ L ++ st.free, a ∈ p.free
  refs : ∀ b, b % pageSize = 0 → st.refs (b / pageSize) = if b ∈ L then 1 else p.refs (b / pageSize)

/-- Only bytes of the frame `t` are written. -/
structure Paints (t : Nat) (st st' : Phys) : Prop where
  free : st'.free = st.free
  refs : st'.refs = st.refs
  max : st'.maxFrameIdx = st.maxFrameIdx
  mem : ∀ x, x < t ∨ t + pageSize ≤ x → st'.mem x = st.mem x

variable {p st st' : Phys} {L : List Nat} {t dir i n stop base : Nat}

/-- Nothing is taken yet. -/
theorem Ready.holds (hp : Ready p) : Holds p [] p :=
  ⟨rfl, hp.nodup, fun _ ha => ha, fun _ _ => (if_neg List.not_mem_nil).symm⟩

/-- The order of what is taken does not matter. -/
theorem Holds.perm {L' : List Nat} (h : Holds p L st) (hL : L.Perm L') : Holds p L' st where
  max := h.max
  nodup := (hL.append_right st.free).nodup_iff.mp h.nodup
  sub a ha := h.sub a ((hL.append_right st.free).mem_iff.mpr ha)
  refs b hb := by
    rw [h.refs b hb]
    simp only [hL.mem_iff]

/-- One more frame is taken. -/
theorem Holds.alloc (hp : Ready p) (h : Holds p L st) (ha : st.allocFrame = (some a, st')) :
    Holds p (a :: L) st' := by
  obtain ⟨hfree, -, hmax, hrefs, -⟩ := allocFrame_some ha
  have hperm : (L ++ st.free).Perm (a :: L ++ st'.free) := by
    rw [hfree]
    exact List.perm_middle
  have hin : a ∈ p.free := h.sub a (by simp [hfree])
  obtain ⟨hmod, -, -, hcount⟩ := hp.frame a hin
  refine ⟨hmax.trans h.max, hperm.nodup_iff.mp h.nodup, fun b hb => h.sub b (hperm.mem_iff.mpr hb),
    fun b hb => ?_⟩
  unfold Phys.Counted at hcount
  rw [hrefs (h.max ▸ hcount)]
  by_cases hba : b = a
  · simp [hba]
  · rw [if_neg (pfn_ne hb hmod hba), h.refs b hb]
    simp [hba]

/-- One frame goes back. -/
theorem Holds.free (hp : Ready p) (h : Holds p (a :: L) st) :
    Holds p L (st.freeFrame a) ∧ (st.freeFrame a).free = a :: st.free := by
  have hin : a ∈ p.free := h.sub a (by simp)
  obtain ⟨hmod, hpos, -, hcount⟩ := hp.frame a hin
  have hnodup := h.nodup
  rw [List.cons_append, List.nodup_cons] at hnodup
  have hone : st.refs (a / pageSize) = 1 := by
    rw [h.refs a hmod]
    simp
  have hst : st.Counted a := by
    unfold Phys.Counted at *
    rw [h.max]
    exact hcount
  have hfree : st.freeFrame a =
      { st.setRef a 0 with free := a :: st.free, mem := setWord st.mem a (st.free.headD 0) } := by
    have hguard : ¬ (a = 0 ∨ ¬ st.Counted a) := by
      rintro (h0 | hno)
      · omega
      · exact hno hst
    unfold Phys.freeFrame
    rw [if_neg hguard, if_neg (by omega), hone]
    simp [Phys.setRef]
  rw [hfree]
  have hperm : (a :: L ++ st.free).Perm (L ++ a :: st.free) := List.perm_middle.symm
  refine ⟨⟨h.max, hperm.nodup_iff.mp h.nodup, fun b hb => h.sub b (hperm.mem_iff.mpr hb),
      fun b hb => ?_⟩, rfl⟩
  change Function.update st.refs (a / pageSize) 0 (b / pageSize) = _
  by_cases hba : b = a
  · have hL : a ∉ L := fun hL => hnodup.1 (List.mem_append_left _ hL)
    rw [hba, Function.update_self, if_neg hL, hp.idle a hin]
  · rw [Function.update_of_ne (pfn_ne hb hmod hba), h.refs b hb]
    simp [hba]

/-- What is taken are frames. -/
theorem Holds.aligned (hp : Ready p) (h : Holds p L st) (ht : t ∈ L) :
    t % pageSize = 0 ∧ t < 2 ^ 32 := by
  obtain ⟨hmod, -, hlt, -⟩ := hp.frame t (h.sub t (List.mem_append_left _ ht))
  exact ⟨hmod, hlt⟩

/-- No frame is taken twice. -/
theorem Holds.ne (h : Holds p (a :: L) st) (hd : dir ∈ L) : dir ≠ a := by
  have hnodup := h.nodup
  rintro rfl
  simp [hd] at hnodup

/-- Painting takes nothing. -/
theorem Holds.paint (h : Holds p L st) (hs : Paints t st st') : Holds p L st' := by
  refine ⟨hs.max.trans h.max, ?_, fun a ha => h.sub a ?_, fun b hb => ?_⟩
  · rw [hs.free]
    exact h.nodup
  · rwa [hs.free] at ha
  · rw [hs.refs]
    exact h.refs b hb

/-- Frames that leave the list are not taken. -/
theorem Holds.unlink (h : Holds p L st) (gone : Nat → Bool) : Holds p L (st.unlink gone) := by
  have hsub : (L ++ (st.unlink gone).free).Sublist (L ++ st.free) :=
    List.filter_sublist.append_left L
  exact ⟨h.max, h.nodup.sublist hsub, fun a ha => h.sub a (hsub.subset ha), h.refs⟩

/-! ## the directory -/

theorem Paints.refl (t : Nat) (st : Phys) : Paints t st st := ⟨rfl, rfl, rfl, fun _ _ => rfl⟩

theorem Paints.trans {st'' : Phys} (h : Paints t st st') (h' : Paints t st' st'') :
    Paints t st st'' :=
  ⟨h'.free.trans h.free, h'.refs.trans h.refs, h'.max.trans h.max,
    fun x hx => (h'.mem x hx).trans (h.mem x hx)⟩

/-- One entry is painted. -/
theorem setEntry_paints {j e : Nat} (st : Phys) (t : Nat) (hj : j < pteCount) :
    Paints t st (st.setEntry t j e) := by
  refine ⟨rfl, rfl, rfl, fun x hx => setWord_of_ne st.mem ?_⟩
  unfold pageSize at hx
  unfold pteCount at hj
  omega

/-- A table is painted by the loop that fills it. -/
theorem fillTable_paints (hn : n ≤ pteCount) (st : Phys) (t base stop : Nat) :
    Paints t st (Phys.fillTable t base stop n st) := by
  induction n with
  | zero => exact .refl t st
  | succ n ih =>
      have hfill := ih (by omega)
      rw [Phys.fillTable]
      split
      · exact hfill.trans (setEntry_paints _ t (by omega))
      · exact hfill

/-- The entries of the directory in frame `dir`. -/
def Entries (st : Phys) (dir : Nat) (es : Nat → Nat) : Prop := ∀ i < pteCount, st.entry dir i = es i

variable {es : Nat → Nat}

/-- A directory that does not change keeps its entries. -/
theorem Entries.same (h : Entries st dir es) (hs : Same st.mem st'.mem dir) : Entries st' dir es :=
  fun i hi => (hs.word hi).trans (h i hi)

/-- Painting another frame keeps the entries of the directory. -/
theorem Entries.paint (h : Entries st dir es) (hs : Paints t st st') (hdir : dir % pageSize = 0)
    (ht : t % pageSize = 0)
    (hne : dir ≠ t) : Entries st' dir es :=
  h.same (same_of_outside hdir ht hne hs.mem)

/-- A frame that is handed out is not one of those in hand. -/
theorem Entries.alloc (hp : Ready p) (h : Holds p L st) (hd : dir ∈ L) (hes : Entries st dir es)
    (hal : st.allocFrame = (some a, st')) : Entries st' dir es := by
  have h₁ := h.alloc hp hal
  have ha := (h₁.aligned hp List.mem_cons_self).1
  refine hes.same (same_of_outside (h.aligned hp hd).1 ha (h₁.ne hd) fun x hx => ?_)
  rw [(allocFrame_some hal).2.1, zeroFrame, if_neg (by omega)]

/-- One entry is written. -/
theorem Entries.set {e : Nat} (h : Entries st dir es) (he : e < 2 ^ 32) :
    Entries (st.setEntry dir i e) dir (Function.update es i e) := by
  intro j hj
  by_cases hji : j = i
  · rw [hji, Function.update_self]
    exact word_setWord st.mem he
  · rw [Function.update_of_ne hji, ← h j hj]
    exact word_setWord_of_ne hji

/-! ## the identity map -/

/-- The entries for the tables `ts`. -/
def tabs (ts : List Nat) (i : Nat) : Nat :=
  match ts[i]? with
  | some t => mkEntry t (pagePresent + pageRw)
  | none => 0

variable {ts : List Nat}

/-- One more table is entered. -/
theorem tabs_concat (ts : List Nat) (t : Nat) :
    Function.update (tabs ts) ts.length (mkEntry t (pagePresent + pageRw)) = tabs (ts ++ [t]) := by
  funext j
  unfold tabs
  by_cases hj : j = ts.length
  · simp [hj]
  · rw [Function.update_of_ne hj]
    rcases Nat.lt_or_ge j ts.length with hlt | hge
    · rw [List.getElem?_append_left hlt]
    · rw [List.getElem?_eq_none hge, List.getElem?_eq_none (by simp; omega)]

/-- The tables are where the entries say. -/
theorem addr_tabs (h : Holds p (ts.reverse ++ [dir]) st) (hp : Ready p) (hi : i < ts.length) :
    addr (tabs ts i) = ts[i] := by
  have hin : ts[i] ∈ ts.reverse ++ [dir] := by simp
  unfold tabs
  rw [List.getElem?_eq_getElem hi]
  exact (addr_mkEntry (by decide)).trans (addr_of_aligned (h.aligned hp hin).1)

/-- The entries are words. -/
theorem tabs_lt (hp : Ready p) (h : Holds p (ts.reverse ++ [dir]) st) (i : Nat) :
    tabs ts i < 2 ^ 32 := by
  unfold tabs
  cases hi : ts[i]? with
  | none => simp
  | some t =>
      have hin : t ∈ ts.reverse ++ [dir] := by simp [List.mem_of_getElem? hi]
      exact mkEntry_lt (h.aligned hp hin).2 (by decide)

/-- Behind the last table the entries are 0. -/
theorem tabs_absent (hi : ts.length ≤ i) : tabs ts i = 0 := by
  unfold tabs
  rw [List.getElem?_eq_none hi]

/-- The tables that were set up are given back in turn, and nothing is lost. -/
theorem rollback_holds (hp : Ready p) {rs : List Nat} (i : Nat) (h : Holds p (rs ++ [dir]) st)
    (hle : i + rs.length ≤ pteCount)
    (hes : ∀ j (hj : j < rs.length), addr (st.entry dir (i + j)) = rs[j]) :
    let st' := (List.range' i rs.length).foldl (fun st j => st.freeFrame (addr (st.entry dir j))) st
    Holds p [dir] st' ∧ ∀ a ∈ rs ++ st.free, a ∈ st'.free := by
  induction rs generalizing i st with
  | nil => exact ⟨h, fun _ ha => ha⟩
  | cons r rs ih =>
      have hr : addr (st.entry dir i) = r := hes 0 (by simp)
      have hdir := (h.aligned hp (by simp : dir ∈ r :: rs ++ [dir])).1
      have hmod := (h.aligned hp (by simp : r ∈ r :: rs ++ [dir])).1
      have hne : dir ≠ r := h.ne (by simp)
      obtain ⟨hfree, hpushed⟩ := h.free hp
      rw [List.length_cons, List.range'_succ, List.foldl_cons, hr]
      suffices hes' : ∀ j (hj : j < rs.length),
          addr ((st.freeFrame r).entry dir (i + 1 + j)) = rs[j] by
        obtain ⟨hholds, hkept⟩ := ih (i + 1) hfree (by simp at hle; omega) hes'
        refine ⟨hholds, fun a ha => hkept a ?_⟩
        rw [hpushed]
        simp only [List.cons_append, List.mem_cons, List.mem_append] at ha ⊢
        tauto
      intro j hj
      have hsame := (touched_freeFrame st r).same hdir hmod hne
      have hentry : (st.freeFrame r).entry dir (i + 1 + j) = st.entry dir (i + 1 + j) :=
        hsame.word (by simp at hle; omega)
      have hnext := hes (j + 1) (by simpa using hj)
      rw [hentry, show i + 1 + j = i + (j + 1) by omega, hnext]
      rfl

/-- One table is filled and entered in the directory. -/
theorem table_takes (stop : Nat) (hp : Ready p) (h : Holds p (ts.reverse ++ [dir]) st)
    (hes : Entries st dir (tabs ts))
    (hlt : ts.length < pteCount) (hal : st.allocFrame = (some t, st')) :
    let st'' := (Phys.fillTable t (ts.length * pdeSize) stop pteCount st').setEntry dir ts.length
      (mkEntry t (pagePresent + pageRw))
    st''.free = st'.free ∧ Holds p ((ts ++ [t]).reverse ++ [dir]) st'' ∧
      Entries st'' dir (tabs (ts ++ [t])) := by
  have hd : dir ∈ ts.reverse ++ [dir] := by simp
  have h₁ := h.alloc hp hal
  have ht := h₁.aligned hp List.mem_cons_self
  have hfill := fillTable_paints (Nat.le_refl pteCount) st' t (ts.length * pdeSize) stop
  have hset := fun e => setEntry_paints (e := e)
    (Phys.fillTable t (ts.length * pdeSize) stop pteCount st') dir hlt
  refine ⟨(hset _).free.trans hfill.free, ?_, ?_⟩
  · rw [List.reverse_append]
    exact (h₁.paint hfill).paint (hset _)
  · rw [← tabs_concat]
    have hes₁ := (hes.alloc hp h hd hal).paint hfill (h.aligned hp hd).1 ht.1 (h₁.ne hd)
    exact hes₁.set (mkEntry_lt ht.2 (by decide))

/-- **The identity map**: it takes the first frames of the free list as tables, or gives all
of them back when there are not enough. -/
theorem setup_takes (stop : Nat) (hp : Ready p) (k : Nat) (h : Holds p (ts.reverse ++ [dir]) st)
    (hes : Entries st dir (tabs ts))
    (hle : ts.length + k ≤ pteCount) :
    (k ≤ st.free.length ∧ ∃ st', st.setupIdentityMap dir stop k ts.length = (true, st') ∧
      st'.free = st.free.drop k ∧
      Holds p ((ts ++ st.free.take k).reverse ++ [dir]) st' ∧
        Entries st' dir (tabs (ts ++ st.free.take k))) ∨
    (st.free.length < k ∧ ∃ st', st.setupIdentityMap dir stop k ts.length = (false, st') ∧
      Holds p [dir] st' ∧
      ∀ a ∈ ts ++ st.free, a ∈ st'.free) := by
  induction k generalizing ts st with
  | zero => exact .inl ⟨Nat.zero_le _, st, rfl, rfl, by simpa using h, by simpa using hes⟩
  | succ k ih =>
      rw [Phys.setupIdentityMap]
      cases hal : st.allocFrame with
      | mk fr st₁ =>
          cases fr with
          | none =>
              obtain ⟨rfl, hnil⟩ := allocFrame_none hal
              refine .inr ⟨by simp [hnil], _, rfl, ?_⟩
              rw [List.range_eq_range']
              have hts : Holds p (ts ++ [dir]) st₁ :=
                h.perm ((List.reverse_perm ts).append_right [dir])
              refine rollback_holds hp 0 hts (by omega) fun j hj => ?_
              rw [Nat.zero_add, hes j (by omega)]
              exact addr_tabs h hp hj
          | some t =>
              dsimp only
              obtain ⟨hfree₂, h₂, hes₂⟩ := table_takes stop hp h hes (by omega) hal
              have hih := ih h₂ hes₂ (by simp; omega)
              rw [hfree₂] at hih
              rw [(allocFrame_some hal).1]
              simp only [List.length_append, List.length_singleton, List.append_assoc,
                List.singleton_append] at hih
              simpa [Nat.succ_le_succ_iff] using hih

/-! ## the higher half -/

/-- The entries after `m` rounds of `mirrorHigherHalf`. -/
def mirrored (es : Nat → Nat) (m i : Nat) : Nat :=
  if higherHalfPde ≤ i ∧ i < higherHalfPde + m
    then mkEntry (es (i - higherHalfPde)) (pagePresent + pageRw) else es i

/-- One more entry is mirrored. -/
theorem mirrored_succ (es : Nat → Nat) (m : Nat) :
    Function.update (mirrored es m) (higherHalfPde + m) (mkEntry (es m) (pagePresent + pageRw)) =
      mirrored es (m + 1) := by
  funext j
  unfold mirrored
  by_cases hj : j = higherHalfPde + m
  · subst hj
    rw [Function.update_self, if_pos (by omega), Nat.add_sub_cancel_left]
  · rw [Function.update_of_ne hj]
    by_cases hin : higherHalfPde ≤ j ∧ j < higherHalfPde + m
    · rw [if_pos hin, if_pos (by omega)]
    · rw [if_neg hin, if_neg (by omega)]

/-- Mirroring keeps the first entry. -/
theorem mirrored_zero (es : Nat → Nat) (m : Nat) : mirrored es m 0 = es 0 := by
  rw [mirrored, if_neg]
  unfold higherHalfPde
  omega

/-- The first entry is mirrored at the start of the upper half. -/
theorem mirrored_half (es : Nat → Nat) {m : Nat} (hm : 0 < m) :
    mirrored es m higherHalfPde = mkEntry (es 0) (pagePresent + pageRw) := by
  rw [mirrored, if_pos ⟨Nat.le_refl _, by omega⟩, Nat.sub_self]

/-- **The mirror** of at most 256 tables stays in the directory. -/
theorem mirror_entries (hlt : ∀ i, es i < 2 ^ 32) (hes : Entries st dir es) {m : Nat}
    (hm : m ≤ 256) :
    Paints dir st (st.mirrorHigherHalf dir m) ∧
      Entries (st.mirrorHigherHalf dir m) dir (mirrored es m) := by
  induction m with
  | zero =>
      refine ⟨.refl dir st, fun i hi => ?_⟩
      rw [mirrored, if_neg (by omega)]
      exact hes i hi
  | succ m ih =>
      obtain ⟨hpaint, hent⟩ := ih (by omega)
      have hstep : st.mirrorHigherHalf dir (m + 1) =
        (st.mirrorHigherHalf dir m).setEntry dir (higherHalfPde + m)
          (mkEntry ((st.mirrorHigherHalf dir m).entry dir m) (pagePresent + pageRw)) := by
        unfold Phys.mirrorHigherHalf
        rw [List.range_succ, List.foldl_append]
        rfl
      have hbound : higherHalfPde + m < pteCount := by
        unfold higherHalfPde pteCount
        omega
      have hread : (st.mirrorHigherHalf dir m).entry dir m = es m := by
        rw [hent m (by unfold pteCount; omega), mirrored, if_neg]
        unfold higherHalfPde
        omega
      rw [hstep, hread]
      refine ⟨hpaint.trans (setEntry_paints _ dir hbound), ?_⟩
      rw [← mirrored_succ]
      exact hent.set (mkEntry_lt (hlt m) (by decide))

/-- A walk writes to free frames only. -/
theorem relink_outside {gone : Nat → Bool} {mem : Nat → BitVec 8} {x : Nat} (l : List Nat)
    (prev : Option Nat)
    (hprev : ∀ b ∈ prev, x < b ∨ b + 4 ≤ x) (hl : ∀ b ∈ l, x < b ∨ b + 4 ≤ x) :
    relink gone prev l mem x = mem x := by
  induction l generalizing prev mem with
  | nil => rfl
  | cons a rest ih =>
      have hrest : ∀ b ∈ rest, x < b ∨ b + 4 ≤ x := fun b hb => hl b (List.mem_cons_of_mem a hb)
      unfold relink
      split
      · rw [ih prev hprev hrest]
        cases prev with
        | none => rfl
        | some b => exact setWord_of_ne mem (hprev b rfl)
      · refine ih (some a) (fun b hb => ?_) hrest
        rw [← Option.some.inj hb]
        exact hl a List.mem_cons_self

/-- The removal of frames from the list does not touch the directory. -/
theorem Entries.unlink (hp : Ready p) (h : Holds p L st) (hd : dir ∈ L) (hes : Entries st dir es)
    (gone : Nat → Bool) :
    Entries (st.unlink gone) dir es := by
  have hdir := (h.aligned hp hd).1
  refine hes.same fun x hlo hhi => relink_outside st.free none (by simp) fun b hb => ?_
  have hb' := (hp.frame b (h.sub b (List.mem_append_right L hb))).1
  have hne : b ≠ dir := by
    rintro rfl
    exact (List.nodup_append.mp h.nodup).2.2 b hd b hb rfl
  unfold pageSize at *
  omega

/-! ## the trampoline -/

/-- A check of an address writes nothing. -/
theorem check_paints (st : Phys) (a t : Nat) : Paints t st (st.checkPhysAddr a) := by
  unfold Phys.checkPhysAddr
  split <;> exact ⟨rfl, rfl, rfl, fun _ _ => rfl⟩

/-- A check reads no other entry. -/
theorem check_entry (st : Phys) (a t k : Nat) : (st.checkPhysAddr a).entry t k = st.entry t k := by
  unfold Phys.checkPhysAddr
  split <;> rfl

/-- The trampoline is near the end of the first mirrored gigabyte. -/
theorem trampoline_pde : pdeIdx trampolineVaddr = 764 := by decide

/-- `mapPage` with one free frame, in a directory without the table. -/
theorem mapPage_takes (hp : Ready p) (h : Holds p L st) (hd : dir ∈ L) {b v : Nat} (f flags : Nat)
    {rest : List Nat}
    (hfree : st.free = b :: rest) (hv : pdeIdx v < pteCount)
    (habsent : present (st.entry dir (pdeIdx v)) = false)
    (hflags : user flags = false) :
    ∃ st', st.mapPage dir v f flags = (true, st') ∧ st'.free = rest ∧ Holds p (b :: L) st' := by
  cases hal : st.allocFrame with
  | mk fr st₁ =>
      cases fr with
      | none =>
          obtain ⟨-, hnil⟩ := allocFrame_none hal
          rw [hnil] at hfree
          contradiction
      | some b' =>
          obtain ⟨hfree₁, hmem, -⟩ := allocFrame_some hal
          rw [hfree, List.cons.injEq] at hfree₁
          obtain ⟨rfl, hrest⟩ := hfree₁
          have h₁ := h.alloc hp hal
          have hb := h₁.aligned hp (List.mem_cons_self : b ∈ b :: L)
          have hdir := h₁.aligned hp (List.mem_cons_of_mem b hd)
          have hne : b ≠ dir := (h₁.ne hd).symm
          have huser : flags / pageUser % 2 = 0 := by
            unfold user at hflags
            have := decide_eq_false_iff_not.mp hflags
            omega
          -- the new entry, and the table that it leads to
          have hset := setEntry_paints (e := mkEntry b 3) st₁ dir hv
          have hentry : (st₁.setEntry dir (pdeIdx v) (mkEntry b 3)).entry dir (pdeIdx v) =
              mkEntry b 3 :=
            word_setWord st₁.mem (mkEntry_lt hb.2 (by decide))
          have haddr : addr (mkEntry b 3) = b :=
            (addr_mkEntry (by decide)).trans (addr_of_aligned hb.1)
          have hzero : (st₁.setEntry dir (pdeIdx v) (mkEntry b 3)).entry b (pteIdx v) = 0 := by
            have hsame := same_of_outside hb.1 hdir.1 hne hset.mem
            refine (hsame.word (pteIdx_lt v)).trans (word_zero (fun x hlo hhi => ?_) (pteIdx_lt v))
            rw [hmem, zeroFrame, if_pos ⟨hlo, hhi⟩]
          have hcheck := check_paints (st₁.setEntry dir (pdeIdx v) (mkEntry b 3)) b b
          have hpaint :=
            setEntry_paints (e := mkEntry f (pagePresent + flags / pageRw % 4 * pageRw))
            ((st₁.setEntry dir (pdeIdx v) (mkEntry b 3)).checkPhysAddr b) b (pteIdx_lt v)
          refine ⟨((st₁.setEntry dir (pdeIdx v) (mkEntry b 3)).checkPhysAddr b).setEntry
            b (pteIdx v)
            (mkEntry f (pagePresent + flags / pageRw % 4 * pageRw)), ?_, ?_,
              ((h₁.paint hset).paint hcheck).paint hpaint⟩
          · unfold Phys.mapPage Phys.ensurePageTable Phys.dropEntry
            rw [hal]
            simp only [habsent, Bool.false_eq_true, if_false, if_true, huser, Nat.zero_mul,
              Nat.add_zero]
            have hthree : pagePresent + pageRw = 3 := rfl
            rw [hthree, hentry, haddr, check_entry, hzero]
            simp [present, hflags]
          · exact hpaint.free.trans (hcheck.free.trans (hset.free.trans hrest.symm))

/-- What `mapTrampoline` takes: a frame and a table for it, or nothing. -/
theorem trampoline_takes (hp : Ready p) (h : Holds p L st) (hd : dir ∈ L)
    (habsent : present (st.entry dir (pdeIdx trampolineVaddr)) = false) :
    let new := if st.free.length < 2 then [] else st.free.take 2
    Holds p (new ++ L) (st.mapTrampoline dir) ∧ ∀ a ∈ st.free,
      a ∈ new ++ (st.mapTrampoline dir).free := by
  unfold Phys.mapTrampoline
  cases hal : st.allocFrame with
  | mk fr st₁ =>
      cases fr with
      | none =>
          obtain ⟨rfl, hnil⟩ := allocFrame_none hal
          simpa [hnil] using h
      | some a =>
          have hfree := (allocFrame_some hal).1
          have h₁ := h.alloc hp hal
          have hsame : Entries st₁ dir (st.entry dir) := Entries.alloc hp h hd (fun _ _ => rfl) hal
          rw [← hsame _ (by decide)] at habsent
          dsimp only
          cases hrest : st₁.free with
          | nil =>
              have hmap : st₁.mapPage dir trampolineVaddr a (pagePresent + pageRw) =
                  (false, st₁) := by
                unfold Phys.mapPage Phys.ensurePageTable Phys.allocFrame
                simp [habsent, hrest]
              obtain ⟨hholds, hpushed⟩ := h₁.free hp
              rw [hmap, hfree, hrest]
              refine ⟨hholds, fun b hb => ?_⟩
              rw [hpushed]
              simpa [hrest] using hb
          | cons b rest =>
              obtain ⟨st₂, hmap, hfree₂, h₂⟩ := mapPage_takes hp h₁ (List.mem_cons_of_mem a hd) a
                (pagePresent + pageRw) hrest (by decide) habsent (by decide)
              rw [hmap, hfree, hrest]
              refine ⟨h₂.perm (List.Perm.swap a b L), fun c hc => ?_⟩
              simpa [hfree₂, or_assoc] using hc

/-! ## what `init` takes -/

/-- The frames that `Paging::init` keeps of a free list, with `n` tables: the directory and
the tables from its head, and the trampoline page with its table from what is left of it
below `stop`; or none at all. -/
def takes (order : List Nat) (n stop : Nat) : List Nat :=
  if order.length ≤ n then []
  else
    let rest := (order.drop (n + 1)).filter (· < stop)
    (if rest.length < 2 then [] else rest.take 2) ++ order.take (n + 1)

/-- There is always a table. -/
theorem pos_calcNumPageTables (stop : Nat) : 0 < calcNumPageTables stop := by
  unfold calcNumPageTables
  omega

/-- A fresh directory is empty. -/
theorem alloc_entries (h : st.allocFrame = (some dir, st')) : Entries st' dir (tabs []) := by
  intro i hi
  obtain ⟨-, hmem, -⟩ := allocFrame_some h
  refine word_zero (fun x hlo hhi => ?_) hi
  rw [hmem, zeroFrame, if_pos ⟨hlo, hhi⟩]

/-- What `init` does once the tables are there. -/
theorem init_rest (stop : Nat) (hp : Ready p) (h : Holds p (ts.reverse ++ [dir]) st)
    (hes : Entries st dir (tabs ts))
    (hpos : 0 < ts.length) (hle : ts.length ≤ 256) :
    let st' := (st.mirrorHigherHalf dir ts.length).removeFramesAbove stop
    addr (st'.entry dir 0) = addr (st'.entry dir higherHalfPde) ∧
      present (st'.entry dir (pdeIdx trampolineVaddr)) = false ∧
      st'.free = st.free.filter (· < stop) ∧ Holds p (ts.reverse ++ [dir]) st' := by
  intro st'
  have hdir : dir ∈ ts.reverse ++ [dir] := by simp
  obtain ⟨hpaint, hmirror⟩ := mirror_entries (tabs_lt hp h) hes hle
  have hst : Entries st' dir (mirrored (tabs ts) ts.length) :=
    hmirror.unlink hp (h.paint hpaint) hdir _
  refine ⟨?_, ?_, ?_, (h.paint hpaint).unlink _⟩
  · rw [hst 0 (by decide), hst higherHalfPde (by decide), mirrored_zero, mirrored_half _ hpos]
    exact (addr_mkEntry (by decide)).symm
  · have hnot : ¬ (higherHalfPde ≤ 764 ∧ 764 < higherHalfPde + ts.length) := by
      unfold higherHalfPde
      omega
    rw [trampoline_pde, hst 764 (by decide), mirrored, if_neg hnot, tabs_absent (by omega)]
    rfl
  · show (st.mirrorHigherHalf dir ts.length).free.filter _ = _
    rw [hpaint.free]
    refine List.filter_congr fun a _ => ?_
    rw [← decide_not, decide_eq_decide]
    exact Nat.not_le

/-- Every frame below the bound is taken or stays free. -/
theorem initTables_takes (hp : Ready p) (hpos : 0 < n) (hn : n ≤ 256) :
    Holds p (takes p.free n stop) (p.initTables stop n) ∧
      ∀ a ∈ p.free, a < stop → a ∈ takes p.free n stop ++ (p.initTables stop n).free := by
  unfold Phys.initTables takes
  cases hal : p.allocFrame with
  | mk fr st₁ =>
      cases fr with
      | none =>
          obtain ⟨rfl, hnil⟩ := allocFrame_none hal
          rw [if_pos (by simp [hnil])]
          exact ⟨hp.holds, fun _ ha _ => ha⟩
      | some dir =>
          have hfree := (allocFrame_some hal).1
          have h₁ : Holds p ([].reverse ++ [dir]) st₁ := hp.holds.alloc hp hal
          have hsetup :=
            setup_takes stop hp n h₁ (alloc_entries hal) (by unfold pteCount; simp; omega)
          rw [List.length_nil, List.nil_append] at hsetup
          rw [hfree, List.length_cons, List.drop_succ_cons, List.take_succ_cons]
          obtain ⟨hle, st₂, hset, hfree₂, h₂, hes⟩ | ⟨hlt, st₂, hset, h₂, hkept⟩ := hsetup
          · have hlen : (st₁.free.take n).length = n := by simp [hle]
            obtain ⟨hagree, habsent, hrest, h₃⟩ := init_rest stop hp h₂ hes (by omega) (by omega)
            rw [hlen] at hagree habsent hrest h₃
            simp only [hset]
            rw [if_neg (by omega)]
            rw [if_neg (not_not_intro hagree)]
            obtain ⟨htramp, hkept⟩ := trampoline_takes hp h₃ (by simp) habsent
            rw [hrest, hfree₂] at htramp hkept
            refine ⟨htramp.perm (List.Perm.append_left _ ?_), fun a ha hlt => ?_⟩
            · exact (List.perm_append_singleton ..).trans ((List.reverse_perm _).cons dir)
            · by_cases hin : a ∈ dir :: st₁.free.take n
              · exact List.mem_append_left _ (List.mem_append_right _ hin)
              · have hdrop : a ∈ st₁.free.drop n := by
                  rw [← List.take_append_drop n st₁.free] at ha
                  simp only [List.mem_cons, List.mem_append] at ha hin
                  tauto
                have := hkept a (List.mem_filter.mpr ⟨hdrop, by simpa using hlt⟩)
                simp only [List.mem_append] at this ⊢
                tauto
          · simp only [hset]
            rw [if_pos (by omega)]
            obtain ⟨hholds, hpushed⟩ := h₂.free hp
            refine ⟨hholds, fun a ha _ => ?_⟩
            rw [hpushed]
            exact (List.mem_cons.mp ha).elim (fun h => by simp [h]) fun h => by
              simp [hkept a (by simpa using h)]

/-- **`Paging::init`** keeps these frames, as long as its tables cover at most 1 GiB; the others
below the end of the identity map stay free. -/
theorem pagingInit_takes (hp : Ready p) {top : Nat} (hn : calcNumPageTables (pageUp top) ≤ 256) :
    Holds p (takes p.free (calcNumPageTables (pageUp top)) (pageUp top)) (p.pagingInit top) ∧
      ∀ a ∈ p.free, a < pageUp top →
        a ∈ takes p.free (calcNumPageTables (pageUp top)) (pageUp top) ++ (p.pagingInit top).free :=
  initTables_takes hp (pos_calcNumPageTables _) hn

end Doors.Memory
