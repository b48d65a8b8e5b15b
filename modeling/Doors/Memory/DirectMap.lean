import Doors.Memory.Clone
import Doors.Memory.PagingInit

/-!
# Doors.Memory.DirectMap

The tables of the kernel after `Paging::init` (`arch/i386/Paging.cc`).

Each physical page below the end of the identity map is mapped at its own address and in the
higher half, where `physToVirt` looks for it, and no entry of the directory is for tasks.

* `setup_fills` — what `setupIdentityMap` writes to the tables;
* `init_enabled` — what `Paging::init` leaves when there are frames enough;
* `DirectMap.lookup` — where the pages are mapped.
-/

namespace Doors.Memory

/-- What `setupIdentityMap` writes for the page at `a`. -/
def identityEntry (stop a : Nat) : Nat := if a < stop then mkEntry a (pagePresent + pageRw) else 0

/-- The tables `ts` map the pages below `stop` to themselves. -/
def Filled (st : Phys) (stop : Nat) (ts : List Nat) : Prop :=
  ∀ i t, ts[i]? = some t → ∀ j < pteCount, st.entry t j =
    identityEntry stop (i * pdeSize + j * pageSize)

/-- **The tables `ts`** are the first ones of `dir`, and the first ones of its higher half. -/
structure DirectMap (st : Phys) (dir : Nat) (ts : List Nat) (stop : Nat) : Prop where
  low : ∀ i t, ts[i]? = some t → st.entry dir i = mkEntry t (pagePresent + pageRw)
  high : ∀ i t, ts[i]? = some t → st.entry dir (higherHalfPde + i) =
    mkEntry t (pagePresent + pageRw)
  filled : Filled st stop ts

/-- **What `Paging::init` leaves**: the directory is the first frame, and its tables are the next.
-/
structure Enabled (p : Phys) (n stop : Nat) (st : Phys) : Prop where
  calm : st.panicked = p.panicked
  kernel : ∀ i < pteCount, user (st.entry (p.free.headD 0) i) = false
  maps : DirectMap st (p.free.headD 0) (p.free.tail.take n) stop
  below : ∀ a ∈ st.free, a < stop
  absent : ∀ i < pteCount, n ≤ i → i < higherHalfPde ∨ higherHalfPde + n ≤ i →
    i ≠ pdeIdx trampolineVaddr → st.entry (p.free.headD 0) i = 0

variable {p st st' st₁ : Phys} {L ts : List Nat} {a t dir i j n stop base : Nat}

/-! ## frames in hand stay as they are -/

/-- Tables that do not change stay filled. -/
theorem Filled.same (h : Filled st stop ts) (hs : ∀ t ∈ ts, Same st.mem st'.mem t) :
    Filled st' stop ts :=
  fun i t ht j hj => ((hs t (List.mem_of_getElem? ht)).word hj).trans (h i t ht j hj)

/-- An allocation does not touch what is taken. -/
theorem Holds.same_alloc (hp : Ready p) (h : Holds p L st) (hal : st.allocFrame = (some a, st'))
    (ht : t ∈ L) :
    Same st.mem st'.mem t := by
  have h₁ := h.alloc hp hal
  have ha := (h₁.aligned hp List.mem_cons_self).1
  refine same_of_outside (h.aligned hp ht).1 ha (h₁.ne ht) fun x hx => ?_
  rw [(allocFrame_some hal).2.1, zeroFrame, if_neg (by omega)]

/-- The removal of free frames does not touch what is taken. -/
theorem Holds.same_unlink (hp : Ready p) (h : Holds p L st) (ht : t ∈ L) (gone : Nat → Bool) :
    Same st.mem (st.unlink gone).mem t := by
  have htal := (h.aligned hp ht).1
  refine fun x hlo hhi => relink_outside st.free none (by simp) fun b hb => ?_
  have hbal := (hp.frame b (h.sub b (List.mem_append_right L hb))).1
  have hne : b ≠ t := by
    rintro rfl
    exact (List.nodup_append.mp h.nodup).2.2 b ht b hb rfl
  unfold pageSize at *
  omega

/-- Painting one frame does not touch another. -/
theorem Paints.same (h : Paints a st st') (ha : a % pageSize = 0) (ht : t % pageSize = 0)
    (hne : t ≠ a) : Same st.mem st'.mem t :=
  same_of_outside ht ha hne h.mem

/-! ## the identity map -/

/-- An entry of a table that is being filled. -/
theorem fillTable_entry (hbase : base + pteCount * pageSize ≤ 2 ^ 32) (hn : n ≤ pteCount) :
    (Phys.fillTable t base stop n st).entry t j =
      if j < n ∧ base + j * pageSize < stop then mkEntry (base + j * pageSize)
        (pagePresent + pageRw) else st.entry t j := by
  induction n with
  | zero =>
      rw [if_neg (by omega)]
      rfl
  | succ n ih =>
      have ih := ih (by omega)
      have hlt : mkEntry (base + n * pageSize) (pagePresent + pageRw) < 2 ^ 32 := by
        refine mkEntry_lt ?_ (by decide)
        unfold pteCount pageSize at *
        omega
      rw [Phys.fillTable]
      by_cases hjn : j = n
      · subst hjn
        split
        · next hstop =>
            rw [if_pos ⟨by omega, hstop⟩]
            exact word_setWord _ hlt
        · next hstop => rw [ih, if_neg (by omega), if_neg (by omega)]
      · have hsplit : (j < n + 1 ∧ base + j * pageSize < stop) ↔
          (j < n ∧ base + j * pageSize < stop) := by omega
        simp only [hsplit]
        rw [← ih]
        split
        · exact word_setWord_of_ne hjn
        · rfl

/-- A write does not panic. -/
theorem setEntry_calm (st : Phys) (t k e : Nat) : (st.setEntry t k e).panicked = st.panicked := rfl

/-- Filling a table does not panic. -/
theorem fillTable_calm (n : Nat) : (Phys.fillTable t base stop n st).panicked = st.panicked := by
  induction n with
  | zero => rfl
  | succ n ih =>
      rw [Phys.fillTable]
      split
      · exact ih
      · exact ih

/-- One table more. -/
theorem Filled.table (hp : Ready p) (h : Holds p (ts.reverse ++ [dir]) st)
    (hfill : Filled st stop ts) (hlt : ts.length < pteCount)
    (hal : st.allocFrame = (some t, st')) (e : Nat) :
    Filled ((Phys.fillTable t (ts.length * pdeSize) stop pteCount st').setEntry dir ts.length e)
      stop (ts ++ [t]) := by
  have h₁ := h.alloc hp hal
  have ht := (h₁.aligned hp List.mem_cons_self).1
  have hd := (h.aligned hp (by simp : dir ∈ ts.reverse ++ [dir])).1
  have hset :=
    setEntry_paints (e := e) (Phys.fillTable t (ts.length * pdeSize) stop pteCount st') dir hlt
  intro i u hu j hj
  rcases Nat.lt_or_ge i ts.length with hi | hi
  · rw [List.getElem?_append_left hi] at hu
    have hin : u ∈ ts.reverse ++ [dir] := by simp [List.mem_of_getElem? hu]
    have hual := (h.aligned hp hin).1
    have hud : u ≠ dir := by
      have hnodup := (List.nodup_append.mp h.nodup).1
      rintro rfl
      exact (List.nodup_append.mp hnodup).2.2 u
        (by simp [List.mem_of_getElem? hu]) u List.mem_cons_self rfl
    have hfilled := (fillTable_paints (Nat.le_refl pteCount) st' t (ts.length * pdeSize) stop).same
      ht hual (h₁.ne hin)
    have hsame := ((h.same_alloc hp hal hin).trans hfilled).trans (hset.same hd hual hud)
    exact (hsame.word hj).trans (hfill i u hu j hj)
  · rw [List.getElem?_append_right hi] at hu
    have hlen := (List.getElem?_eq_some_iff.mp hu).1
    simp only [List.length_singleton] at hlen
    obtain rfl : i = ts.length := by omega
    obtain rfl : t = u := by simpa using hu
    have hzero : st'.entry t j = 0 := by
      refine word_zero (fun x hlo hhi => ?_) hj
      rw [(allocFrame_some hal).2.1, zeroFrame, if_pos ⟨hlo, hhi⟩]
    have hbase : ts.length * pdeSize + pteCount * pageSize ≤ 2 ^ 32 := by
      unfold pteCount pdeSize pageSize at *
      omega
    have hne : t ≠ dir := (h₁.ne (by simp : dir ∈ ts.reverse ++ [dir])).symm
    have hsame := (hset.same hd ht hne).word hj
    have hentry : (Phys.fillTable t (ts.length * pdeSize) stop pteCount st').entry t j = _ :=
      fillTable_entry hbase (Nat.le_refl pteCount)
    rw [hzero] at hentry
    unfold Phys.entry at hentry ⊢
    rw [hsame, hentry, identityEntry]
    simp only [hj, true_and]

/-- The loop fills one table after the other. -/
theorem setup_fills (stop : Nat) (hp : Ready p) (k : Nat) (h : Holds p (ts.reverse ++ [dir]) st)
    (hes : Entries st dir (tabs ts))
    (hfill : Filled st stop ts) (hle : ts.length + k ≤ pteCount)
    (hset : st.setupIdentityMap dir stop k ts.length = (true, st')) :
    Filled st' stop (ts ++ st.free.take k) ∧ st'.panicked = st.panicked := by
  induction k generalizing ts st with
  | zero =>
      obtain rfl := (Prod.mk.inj hset).2
      exact ⟨by simpa using hfill, rfl⟩
  | succ k ih =>
      rw [Phys.setupIdentityMap] at hset
      cases hal : st.allocFrame with
      | mk fr st₁ =>
          rw [hal] at hset
          cases fr with
          | none => exact absurd (Prod.mk.inj hset).1 (by decide)
          | some t =>
              dsimp only at hset
              obtain ⟨hfree₂, h₂, hes₂⟩ := table_takes stop hp h hes (by omega) hal
              have hfill₂ := hfill.table hp h (by omega) hal (mkEntry t (pagePresent + pageRw))
              have hcalm₂ :=
                setEntry_calm (Phys.fillTable t (ts.length * pdeSize) stop pteCount st₁)
                dir ts.length
                (mkEntry t (pagePresent + pageRw))
              rw [fillTable_calm, (allocFrame_some hal).2.2.2.2] at hcalm₂
              generalize (Phys.fillTable t (ts.length * pdeSize) stop pteCount st₁).setEntry
                dir ts.length
                (mkEntry t (pagePresent + pageRw)) = st₂ at hset hfree₂ h₂ hes₂ hfill₂ hcalm₂
              have hnext : ts.length + 1 = (ts ++ [t]).length := by simp
              rw [hnext] at hset
              obtain ⟨hfill', hcalm'⟩ := ih h₂ hes₂ hfill₂ (by simp; omega) hset
              rw [hfree₂] at hfill'
              rw [(allocFrame_some hal).1, List.take_succ_cons]
              exact ⟨by simpa using hfill', hcalm'.trans hcalm₂⟩

/-! ## the trampoline -/

/-- Mirroring does not panic. -/
theorem mirror_calm (st : Phys) (dir m : Nat) :
    (st.mirrorHigherHalf dir m).panicked = st.panicked := by
  unfold Phys.mirrorHigherHalf
  induction m with
  | zero => rfl
  | succ m ih =>
      rw [List.range_succ, List.foldl_append, List.foldl_cons, List.foldl_nil, setEntry_calm]
      exact ih

/-- A counted frame passes the check, unless the top of the memory wraps to 0. -/
theorem check_counted (ha : 0 < a) (hc : st.Counted a) (hmax : st.maxFrameIdx < maxFrames) :
    st.checkPhysAddr a = st := by
  refine if_neg ?_
  unfold Phys.Counted pageSize at hc
  unfold maxFrames at hmax
  unfold pageSize
  omega

/-- `mapPage` where there is no table yet, with the frame `b` for one. -/
theorem mapPage_absent {b f v flags : Nat} (hal : st.allocFrame = (some b, st₁))
    (hb : b % pageSize = 0 ∧ b < 2 ^ 32)
    (hpos : 0 < b) (hc : st₁.Counted b) (hmax : st₁.maxFrameIdx < maxFrames)
    (hdir : dir % pageSize = 0) (hne : b ≠ dir) (hv : pdeIdx v < pteCount)
    (habsent : present (st.entry dir (pdeIdx v)) = false)
    (hflags : user flags = false) :
    st.mapPage dir v f flags =
      (true, (st₁.setEntry dir (pdeIdx v) (mkEntry b (pagePresent + pageRw))).setEntry b (pteIdx v)
      (mkEntry f (pagePresent + flags / pageRw % 4 * pageRw))) := by
  have huser : flags / pageUser % 2 = 0 := by
    have hno := decide_eq_false_iff_not.mp hflags
    omega
  have hset := setEntry_paints (e := mkEntry b (pagePresent + pageRw)) st₁ dir hv
  have hentry : (st₁.setEntry dir (pdeIdx v) (mkEntry b (pagePresent + pageRw))).entry dir
      (pdeIdx v) = mkEntry b (pagePresent + pageRw) :=
    word_setWord st₁.mem (mkEntry_lt hb.2 (by decide))
  have haddr : addr (mkEntry b (pagePresent + pageRw)) = b :=
    (addr_mkEntry (by decide)).trans (addr_of_aligned hb.1)
  have hzero : (st₁.setEntry dir (pdeIdx v) (mkEntry b (pagePresent + pageRw))).entry b
      (pteIdx v) = 0 := by
    refine ((hset.same hdir hb.1 hne).word (pteIdx_lt v)).trans
      (word_zero (fun x hlo hhi => ?_) (pteIdx_lt v))
    rw [(allocFrame_some hal).2.1, zeroFrame, if_pos ⟨hlo, hhi⟩]
  have hcheck : (st₁.setEntry dir (pdeIdx v) (mkEntry b (pagePresent + pageRw))).checkPhysAddr b =
      st₁.setEntry dir (pdeIdx v) (mkEntry b (pagePresent + pageRw)) := check_counted hpos hc hmax
  unfold Phys.mapPage Phys.ensurePageTable Phys.dropEntry
  rw [hal]
  simp only [habsent, Bool.false_eq_true, if_false, if_true, huser, Nat.zero_mul, Nat.add_zero,
    hentry, haddr, hcheck, hzero,
    hflags, false_and]
  simp [present]

/-- **`mapTrampoline`** frees nothing, and writes to no frame in hand but the directory, where it
enters a table that is not for tasks. -/
theorem trampoline_keeps (hp : Ready p) (hmax : p.maxFrameIdx < maxFrames) (h : Holds p L st)
    (hd : dir ∈ L)
    (habsent : present (st.entry dir (pdeIdx trampolineVaddr)) = false) :
    (st.mapTrampoline dir).panicked = st.panicked ∧
      (∀ b ∈ (st.mapTrampoline dir).free, b ∈ st.free) ∧
      (∀ t ∈ L, t ≠ dir → Same st.mem (st.mapTrampoline dir).mem t) ∧
      ∀ i < pteCount, (st.mapTrampoline dir).entry dir i = st.entry dir i ∨
        i = pdeIdx trampolineVaddr ∧ user ((st.mapTrampoline dir).entry dir i) = false := by
  unfold Phys.mapTrampoline
  cases hal : st.allocFrame with
  | mk fr st₁ =>
      cases fr with
      | none =>
          obtain ⟨rfl, -⟩ := allocFrame_none hal
          exact ⟨rfl, fun _ => id, fun _ _ _ => Same.refl _ _, fun _ _ => .inl rfl⟩
      | some a =>
          have h₁ := h.alloc hp hal
          obtain ⟨hfree₁, -, -, -, hcalm₁⟩ := allocFrame_some hal
          have hsame₁ : ∀ t ∈ L, Same st.mem st₁.mem t := fun t ht => h.same_alloc hp hal ht
          have habsent₁ : present (st₁.entry dir (pdeIdx trampolineVaddr)) = false := by
            rw [← habsent]
            exact congrArg present ((hsame₁ dir hd).word (by decide))
          dsimp only
          cases hal₂ : st₁.allocFrame with
          | mk fr₂ st₂ =>
              cases fr₂ with
              | none =>
                  obtain ⟨rfl, -⟩ := allocFrame_none hal₂
                  have hmap : st₂.mapPage dir trampolineVaddr a (pagePresent + pageRw) =
                      (false, st₂) := by
                    unfold Phys.mapPage Phys.ensurePageTable
                    rw [hal₂]
                    simp [habsent₁]
                  have hin := h₁.sub a (List.mem_append_left _ List.mem_cons_self)
                  obtain ⟨hmod, hpos, -, hcount⟩ := hp.frame a hin
                  have hone : st₂.refs (a / pageSize) = 1 := by
                    rw [h₁.refs a hmod, if_pos List.mem_cons_self]
                  have hst : a / pageSize < st₂.maxFrameIdx := h₁.max ▸ hcount
                  obtain ⟨hfree, -, hmem, -, hcalm⟩ := freeFrame_last (by omega) hst hone
                  have hsame : ∀ t ∈ L, Same st.mem (st₂.freeFrame a).mem t := fun t ht =>
                    (hsame₁ t ht).trans (same_of_outside (h.aligned hp ht).1 hmod (h₁.ne ht) hmem)
                  rw [hmap]
                  exact ⟨hcalm.trans hcalm₁, fun c hc => hfree₁ ▸ hfree ▸ hc,
                    fun t ht _ => hsame t ht,
                    fun i hi => .inl ((hsame dir hd).word hi)⟩
              | some b =>
                  have h₂ := h₁.alloc hp hal₂
                  have hb := h₂.aligned hp List.mem_cons_self
                  have hdal := (h.aligned hp hd).1
                  have hdb : dir ≠ b := h₂.ne (List.mem_cons_of_mem a hd)
                  obtain ⟨-, hbpos, -, hbcount⟩ :=
                    hp.frame b (h₂.sub b (List.mem_append_left _ List.mem_cons_self))
                  have hbcount₂ : st₂.Counted b := by
                    unfold Phys.Counted
                    rw [h₂.max]
                    exact hbcount
                  rw [mapPage_absent hal₂ hb hbpos hbcount₂ (h₂.max.symm ▸ hmax) hdal hdb.symm
                    (by decide) habsent₁ (by decide)]
                  dsimp only
                  have hsame₂ : ∀ t ∈ L, Same st.mem st₂.mem t := fun t ht =>
                    (hsame₁ t ht).trans (h₁.same_alloc hp hal₂ (List.mem_cons_of_mem a ht))
                  have hset := setEntry_paints (e := mkEntry b (pagePresent + pageRw)) st₂ dir
                    (by decide : pdeIdx trampolineVaddr < pteCount)
                  have hset' := setEntry_paints
                    (e := mkEntry a (pagePresent + (pagePresent + pageRw) / pageRw % 4 * pageRw))
                    (st₂.setEntry dir (pdeIdx trampolineVaddr) (mkEntry b (pagePresent + pageRw))) b
                      (pteIdx_lt trampolineVaddr)
                  obtain ⟨hfree₂, -, -, -, hcalm₂⟩ := allocFrame_some hal₂
                  refine ⟨?_, fun c hc => ?_, fun t ht htd => ?_, fun i hi => ?_⟩
                  · rw [setEntry_calm, setEntry_calm, hcalm₂, hcalm₁]
                  · rw [hfree₁, hfree₂]
                    exact List.mem_cons_of_mem a (List.mem_cons_of_mem b hc)
                  · have htal := (h.aligned hp ht).1
                    have htb := h₂.ne (List.mem_cons_of_mem a ht)
                    exact ((hsame₂ t ht).trans (hset.same hdal htal htd)).trans
                      (hset'.same hb.1 htal htb)
                  · have hword := (hset'.same hb.1 hdal hdb).word hi
                    unfold Phys.entry at hword ⊢
                    rw [hword]
                    by_cases hit : i = pdeIdx trampolineVaddr
                    · refine .inr ⟨hit, ?_⟩
                      rw [hit]
                      show user (word (setWord _ _ _) _) = false
                      rw [word_setWord _ (mkEntry_lt hb.2 (by decide)), ← Bool.not_eq_true,
                        user_iff, mkEntry_mod]
                      decide
                    · refine .inl ((word_setWord_of_ne hit).trans ?_)
                      exact (hsame₂ dir hd).word hi

/-! ## what `init` leaves -/

/-- The tables of the kernel are supervisor tables. -/
theorem user_tables (e : Nat) : user (mkEntry e (pagePresent + pageRw)) = false := by
  rw [← Bool.not_eq_true, user_iff, mkEntry_mod]
  decide

/-- All of them are. -/
theorem user_tabs (ts : List Nat) (i : Nat) : user (tabs ts i) = false := by
  unfold tabs
  cases ts[i]? with
  | none => rfl
  | some t => exact user_tables t

/-- So are their mirrors. -/
theorem user_mirrored (ts : List Nat) (n i : Nat) : user (mirrored (tabs ts) n i) = false := by
  unfold mirrored
  split
  · exact user_tables _
  · exact user_tabs ts i

/-- A mirrored entry has the table of the entry. -/
theorem mkEntry_again (t : Nat) : mkEntry (mkEntry t (pagePresent + pageRw))
    (pagePresent + pageRw) = mkEntry t (pagePresent + pageRw) := by
  have haddr : addr (mkEntry t (pagePresent + pageRw)) = addr t := addr_mkEntry (by decide)
  unfold mkEntry at *
  rw [haddr]

/-- **`Paging::init`** with frames enough. -/
theorem init_enabled (stop : Nat) (hp : Ready p) (hmax : p.maxFrameIdx < maxFrames) (hpos : 0 < n)
    (hn : n ≤ 256) (hlen : n < p.free.length) :
    Enabled p n stop (p.initTables stop n) := by
  unfold Phys.initTables
  cases hal : p.allocFrame with
  | mk fr st₁ =>
      cases fr with
      | none =>
          rw [(allocFrame_none hal).2] at hlen
          simp at hlen
      | some dir =>
          have hfree := (allocFrame_some hal).1
          have hlen₁ : n ≤ st₁.free.length := by
            rw [hfree, List.length_cons] at hlen
            omega
          have h₁ : Holds p ([].reverse ++ [dir]) st₁ := hp.holds.alloc hp hal
          have hfill₁ : Filled st₁ stop [] := fun i t ht => by simp at ht
          have hsetup :=
            setup_takes stop hp n h₁ (alloc_entries hal) (by unfold pteCount; simp; omega)
          rw [List.length_nil, List.nil_append] at hsetup
          obtain ⟨-, st₂, hset, hfree₂, h₂, hes⟩ | ⟨hlt, -⟩ := hsetup
          · obtain ⟨hfill₂, hcalm₂⟩ := setup_fills stop hp n h₁ (alloc_entries hal) hfill₁
              (by unfold pteCount; simp; omega) hset
            rw [List.nil_append] at hfill₂
            have hts : (st₁.free.take n).length = n := by simp [hlen₁]
            obtain ⟨hagree, habsent, hbelow, h₃⟩ := init_rest stop hp h₂ hes (by omega) (by omega)
            have hdin : dir ∈ (st₁.free.take n).reverse ++ [dir] := by simp
            obtain ⟨hpaint, hmirror⟩ :=
              mirror_entries (tabs_lt hp h₂) hes (by omega : (st₁.free.take n).length ≤ 256)
            have hes₃ := hmirror.unlink hp (h₂.paint hpaint) hdin (stop ≤ ·)
            have hne : ∀ t ∈ st₁.free.take n, t ≠ dir := by
              rintro t ht rfl
              exact (List.nodup_append.mp (List.nodup_append.mp h₂.nodup).1).2.2 t
                (by simpa using ht) t List.mem_cons_self rfl
            have hfill₃ : Filled ((st₂.mirrorHigherHalf dir n).removeFramesAbove stop) stop
                (st₁.free.take n) := by
              rw [hts] at hpaint
              refine hfill₂.same fun t ht => ?_
              have htin : t ∈ (st₁.free.take n).reverse ++ [dir] := by simp [ht]
              exact (hpaint.same (h₂.aligned hp hdin).1 (h₂.aligned hp htin).1 (hne t ht)).trans
                ((h₂.paint hpaint).same_unlink hp htin _)
            have hcalm₃ : ((st₂.mirrorHigherHalf dir n).removeFramesAbove stop).panicked =
                p.panicked := by
              show (st₂.mirrorHigherHalf dir n).panicked = _
              rw [mirror_calm, hcalm₂]
              exact (allocFrame_some hal).2.2.2.2
            rw [hts] at hagree habsent hbelow h₃ hes₃
            simp only [hset]
            rw [if_neg (not_not_intro hagree)]
            change Entries ((st₂.mirrorHigherHalf dir n).removeFramesAbove stop) dir _ at hes₃
            generalize (st₂.mirrorHigherHalf dir n).removeFramesAbove stop =
              st₃ at hagree habsent hbelow h₃ hes₃ hfill₃ hcalm₃ ⊢
            obtain ⟨hcalm, hfree₄, hsame, hentries⟩ := trampoline_keeps hp hmax h₃ hdin habsent
            have hhead : p.free.headD 0 = dir := by rw [hfree, List.headD_cons]
            have htail : p.free.tail = st₁.free := by rw [hfree, List.tail_cons]
            have hbound : ∀ i t, (st₁.free.take n)[i]? = some t → i < n :=
              fun i t ht => hts ▸ (List.getElem?_eq_some_iff.mp ht).1
            have hrest : ∀ i < pteCount, i ≠ 764 →
                (st₃.mapTrampoline dir).entry dir i = mirrored (tabs (st₁.free.take n)) n i :=
              fun i hi h764 =>
                ((hentries i hi).resolve_right fun h => h764 (h.1.trans trampoline_pde)).trans
                (hes₃ i hi)
            have htab : ∀ i t, (st₁.free.take n)[i]? = some t →
                tabs (st₁.free.take n) i = mkEntry t (pagePresent + pageRw) := fun i t ht => by
              unfold tabs
              rw [ht]
            refine ⟨hcalm.trans hcalm₃, fun i hi => ?_, ⟨fun i t ht => ?_, fun i t ht => ?_, ?_⟩,
              fun a ha => ?_, fun i hi hlow hhigh hne => ?_⟩
            · rw [hhead]
              rcases hentries i hi with heq | ⟨-, huser⟩
              · rw [heq, hes₃ i hi]
                exact user_mirrored _ _ _
              · exact huser
            · rw [htail] at ht
              have hi := hbound i t ht
              rw [hhead, hrest i (by unfold pteCount; omega) (by omega), mirrored,
                if_neg (by unfold higherHalfPde; omega), htab i t ht]
            · rw [htail] at ht
              have hi := hbound i t ht
              have hpte : higherHalfPde + i < pteCount := by
                unfold higherHalfPde pteCount
                omega
              rw [hhead, hrest _ hpte (by unfold higherHalfPde; omega), mirrored, if_pos (by omega),
                Nat.add_sub_cancel_left, htab i t ht,
                mkEntry_again]
            · rw [htail]
              exact hfill₃.same fun t ht => hsame t (by simp [ht]) (hne t ht)
            · have hin := hfree₄ a ha
              rw [hbelow] at hin
              exact of_decide_eq_true (List.mem_filter.mp hin).2
            · rw [hhead, hrest i hi (trampoline_pde ▸ hne), mirrored, if_neg (by omega),
                tabs_absent (by omega)]
          · omega

/-! ## where the pages are mapped -/

/-- Entries of `dir` that lead to the tables, in whatever state. -/
theorem DirectMap.lookup (h : DirectMap st dir ts stop) (hts : ∀ t ∈ ts, t % pageSize = 0)
    (hstop : stop ≤ ts.length * pdeSize)
    (ha : a < stop) :
    st.lookup dir a = some (addr a) ∧ st.lookup dir (higherHalfPde * pdeSize + a) =
      some (addr a) := by
  have hi : pdeIdx a < ts.length := by
    unfold pdeIdx pdeSize at *
    omega
  have hget := List.getElem?_eq_getElem hi
  generalize ts[pdeIdx a] = t at hget
  have hta : addr (mkEntry t (pagePresent + pageRw)) = t :=
    (addr_mkEntry (by decide)).trans (addr_of_aligned (hts t (List.mem_of_getElem? hget)))
  have hpres : ∀ x, present (mkEntry x (pagePresent + pageRw)) = true := fun x => by
    rw [present_iff, mkEntry_mod]
    decide
  have hpage : pdeIdx a * pdeSize + pteIdx a * pageSize = addr a := by
    unfold pdeIdx pteIdx addr pdeSize pageSize
    omega
  have hpte : st.entry t (pteIdx a) = mkEntry (addr a) (pagePresent + pageRw) := by
    rw [h.filled _ t hget _ (pteIdx_lt a), identityEntry, hpage, if_pos]
    unfold addr pageSize
    omega
  have haddr : addr (mkEntry (addr a) (pagePresent + pageRw)) = addr a :=
    (addr_mkEntry (by decide)).trans (addr_of_aligned (addr_mod a))
  have hidx : pdeIdx (higherHalfPde * pdeSize + a) = higherHalfPde + pdeIdx a ∧
      pteIdx (higherHalfPde * pdeSize + a) = pteIdx a := by
    unfold pdeIdx pteIdx pdeSize pageSize
    omega
  unfold Phys.lookup
  rw [hidx.1, hidx.2, h.low _ t hget, h.high _ t hget, hta, hpte, hpres, hpres, haddr]
  exact ⟨rfl, rfl⟩

end Doors.Memory
