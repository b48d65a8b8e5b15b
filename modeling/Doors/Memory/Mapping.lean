import Doors.Memory.Directory

/-!
# Doors.Memory.Mapping

What `mapPage` and `clearPageTable` do to a directory whose entry is absent or
a user table.

* `mapPage_tables` — one slot gets the frame, and the frame it had is given up;
* `clearPageTable_tables` — one table is replaced by an empty one.
-/

namespace Doors.Memory

variable {dir g a f i j t v : Nat} {p : Nat × Nat} {T : Tables} {st st' : Phys}
  {mem mem' : Nat → BitVec 8}

/-- The invariant is about the allocator only. -/
theorem Inv.congr (hI : Inv dir T st) (hfree : st'.free = st.free) (hrefs : st'.refs = st.refs)
    (hmax : st'.maxFrameIdx = st.maxFrameIdx) : Inv dir T st' := by
  refine ⟨hfree ▸ hI.nodup, hfree ▸ hI.aligned, hI.dir_aligned, hfree ▸ hI.dir_used,
    hfree ▸ hI.tab_used, hI.tab_inj,
    hfree ▸ hI.map_used, hI.map_slot, hI.tab_lt, hI.map_lt, fun g hg hc => ?_⟩
  rw [hrefs]
  refine hI.refs g hg ?_
  unfold Phys.Counted at hc ⊢
  rwa [← hmax]

/-- A word of one frame is outside every other. -/
theorem same_setWord {e : Nat} (ha : a % pageSize = 0) (ht : t % pageSize = 0) (hne : a ≠ t)
    (hj : j < pteCount) :
    Same mem (setWord mem (t + 4 * j) e) a := by
  refine same_of_outside ha ht hne fun x hx => setWord_of_ne mem ?_
  unfold pageSize at hx
  unfold pteCount at hj
  omega

/-- Different words of one frame. -/
theorem word_setWord_of_ne {e k : Nat} (hne : k ≠ j) :
    word (setWord mem (t + 4 * j) e) (t + 4 * k) = word mem (t + 4 * k) := by
  refine word_congr fun x hx hx' => setWord_of_ne mem ?_
  omega

/-- The entries of a cleared page are 0. -/
theorem word_zero (h : ∀ x, a ≤ x → x < a + pageSize → mem x = 0) (hj : j < pteCount) :
    word mem (a + 4 * j) = 0 := by
  have hz : ∀ k < 4, mem (a + 4 * j + k) = 0 := by
    intro k hk
    refine h _ (by omega) ?_
    unfold pageSize
    unfold pteCount at hj
    omega
  have h₀ := hz 0 (by decide)
  rw [Nat.add_zero] at h₀
  simp [word, h₀, hz 1 (by decide), hz 2 (by decide), hz 3 (by decide)]

/-! ## what is left alone -/

/-- Only the frames in `U` are written, counted anew or given back; frame 0 and frames
without a count are not given back. -/
structure Within (U : Nat → Prop) (st st' : Phys) : Prop where
  same : ∀ b, b % pageSize = 0 → ¬ U b → Same st.mem st'.mem b
  refs : ∀ b, b % pageSize = 0 → ¬ U b → st'.refs (b / pageSize) = st.refs (b / pageSize)
  free : ∀ b ∈ st'.free, b ∈ st.free ∨ (U b ∧ b ≠ 0 ∧ st.Counted b)
  max : st'.maxFrameIdx = st.maxFrameIdx

section

variable {U : Nat → Prop}

theorem Within.refl (U : Nat → Prop) (st : Phys) : Within U st st :=
  ⟨fun _ _ _ _ _ _ => rfl, fun _ _ _ => rfl, fun _ hb => .inl hb, rfl⟩

theorem Within.trans {st'' : Phys} (h₁ : Within U st st') (h₂ : Within U st' st'') :
    Within U st st'' where
  same b hb hU x hx hx' := (h₂.same b hb hU x hx hx').trans (h₁.same b hb hU x hx hx')
  refs b hb hU := (h₂.refs b hb hU).trans (h₁.refs b hb hU)
  free b hb := by
    rcases h₂.free b hb with hb | ⟨hU, hz, hc⟩
    · exact h₁.free b hb
    · refine .inr ⟨hU, hz, ?_⟩
      unfold Phys.Counted at hc ⊢
      rwa [← h₁.max]
  max := h₂.max.trans h₁.max

theorem Within.mono {U' : Nat → Prop} (h : Within U st st') (hU : ∀ b, U b → U' b) :
    Within U' st st' where
  same b hb hn := h.same b hb fun hb' => hn (hU b hb')
  refs b hb hn := h.refs b hb fun hb' => hn (hU b hb')
  free b hb := (h.free b hb).imp id fun hb' => ⟨hU b hb'.1, hb'.2⟩
  max := h.max

/-- What touches one frame stays within every set that has it. -/
theorem Touched.within (h : Touched g st st') (hg : g % pageSize = 0) (hU : U g)
    (hfree : g ∈ st'.free → g ∈ st.free ∨ (g ≠ 0 ∧ st.Counted g)) : Within U st st' where
  same b hb hn := h.same hb hg fun hbg => hn (hbg ▸ hU)
  refs b hb hn := h.refs b (pfn_ne hb hg fun hbg => hn (hbg ▸ hU))
  free b hb := by
    rcases h.free b hb with rfl | hb
    · exact (hfree hb).imp id fun hb' => ⟨hU, hb'⟩
    · exact .inl hb
  max := h.max

/-- An allocation writes the new frame. -/
theorem within_alloc (h : st.allocFrame = (some a, st')) (ha : a % pageSize = 0) (hU : U a) :
    Within U st st' := by
  obtain ⟨hfree, hmem, hmax, hrefs, -⟩ := allocFrame_some h
  refine ⟨fun b hb hn => same_of_outside hb ha (fun hba => hn (hba ▸ hU)) fun x hx => ?_,
    fun b hb hn => ?_, fun b hb => ?_, hmax⟩
  · rw [hmem, zeroFrame, if_neg (by omega)]
  · by_cases hc : a / pageSize < st.maxFrameIdx
    · rw [hrefs hc, if_neg (pfn_ne hb ha fun hba => hn (hba ▸ hU))]
    · have hst : st'.refs = st.refs := allocFrame_uncounted h hc
      rw [hst]
  · exact .inl (hfree ▸ List.mem_cons_of_mem _ hb)

/-- A check writes nothing. -/
theorem within_check (U : Nat → Prop) (st : Phys) (a : Nat) : Within U st (st.checkPhysAddr a) := by
  unfold Phys.checkPhysAddr
  split
  · exact ⟨fun _ _ _ _ _ _ => rfl, fun _ _ _ => rfl, fun _ hb => .inl hb, rfl⟩
  · exact Within.refl U st

/-- An entry is written in its table. -/
theorem within_setEntry {e : Nat} (ht : t % pageSize = 0) (hj : j < pteCount) (hU : U t) :
    Within U st (st.setEntry t j e) where
  same _ hb hn := same_setWord hb ht (fun hbt => hn (hbt ▸ hU)) hj
  refs _ _ _ := rfl
  free _ hb := .inl hb
  max := rfl

/-- A reference that goes may write its frame. -/
theorem within_dropRef (hg : g % pageSize = 0) (hU : U g) : Within U st (st.dropRef g) := by
  refine (touched_dropRef st g).within hg hU fun hin => ?_
  by_cases hz : g = 0
  · have hfast : ∀ st' : Phys, st'.freeFrameFast g = st' := fun st' => if_pos hz
    have hdrop : st.dropRef g = (st.removeRef g).2 := by
      unfold Phys.dropRef
      split
      · next heq => rw [hfast, heq]
      · next heq => rw [heq]
    rw [hdrop, removeRef_free] at hin
    exact .inl hin
  · rcases dropRef_cases st g with ⟨-, h⟩ | ⟨hc, -, -⟩ | ⟨hc, -⟩ | ⟨hc, -, -⟩
    · exact .inl (h ▸ hin)
    · exact .inr ⟨hz, hc⟩
    · exact .inr ⟨hz, hc⟩
    · exact .inr ⟨hz, hc⟩

/-- Dropping an entry may write the frame it leads to. -/
theorem within_dropEntry {e : Nat} (hU : present e = true → U (addr e)) :
    Within U st (st.dropEntry e) := by
  unfold Phys.dropEntry
  split
  · next hpres =>
      refine (within_check U st (addr e)).trans ?_
      exact within_dropRef (addr_mod e) (hU hpres)
  · exact Within.refl U st

/-- What `freeFrame` can do. -/
theorem touched_freeFrame (st : Phys) (a : Nat) : Touched a st (st.freeFrame a) := by
  unfold Phys.freeFrame
  split
  · exact Touched.refl a st
  · split
    · exact ⟨fun _ _ => rfl, fun _ _ => rfl, rfl, fun _ hb => .inr hb⟩
    · dsimp only
      split
      · exact ⟨fun _ _ => rfl, fun b hb => Function.update_of_ne hb .., rfl, fun _ hb => .inr hb⟩
      · exact ⟨fun _ hx => setWord_outside st.mem hx, fun b hb => Function.update_of_ne hb .., rfl,
          fun b hb => List.mem_cons.mp hb⟩

/-- Freeing a frame writes its link. -/
theorem within_freeFrame (ha : a % pageSize = 0) (hU : U a) : Within U st (st.freeFrame a) := by
  refine (touched_freeFrame st a).within ha hU fun hin => ?_
  by_cases hz : a = 0 ∨ ¬ st.Counted a
  · rw [Phys.freeFrame, if_pos hz] at hin
    exact .inl hin
  · simp only [not_or, not_not] at hz
    exact .inr hz

end

/-! ## one slot -/

/-- A slot is changed together with its entry in the table. -/
theorem Shows.update {e : Nat} {x : Option Nat} (h : Shows dir T mem) (hI : Inv dir T st)
    (ht : T.tab i = some t) (hj : j < pteCount) (he : e < 2 ^ 32)
    (hx : ∀ g, x = some g ↔ present e = true ∧ addr e = g) :
    Shows dir (T.setMap (i, j) x) (setWord mem (t + 4 * j) e) := by
  obtain ⟨hal, -, hdir⟩ := hI.tab_used i t ht
  refine ⟨fun i' hi' t' => ?_, h.tab_lt, fun i' t' ht' j' hj' g' => ?_, fun i' j' ht' => ?_⟩
  · rw [(same_setWord hI.dir_aligned hal hdir.symm hj).word hi']
    exact h.tab i' hi' t'
  · simp only [Tables.setMap_tab] at ht'
    by_cases hi : i' = i
    · subst hi
      obtain rfl : t' = t := Option.some.inj (ht'.symm.trans ht)
      by_cases hjj : j' = j
      · subst hjj
        rw [T.setMap_self, word_setWord mem he]
        exact hx g'
      · rw [T.setMap_of_ne _ (by simp [hjj]), word_setWord_of_ne hjj]
        exact h.map i' t' ht' j' hj' g'
    · have htt : t' ≠ t := fun htt => hi (hI.tab_inj i' i t (htt ▸ ht') ht)
      rw [T.setMap_of_ne _ (by simp [hi]),
        (same_setWord (hI.tab_used i' t' ht').1 hal htt hj).word hj']
      exact h.map i' t' ht' j' hj' g'
  · simp only [Tables.setMap_tab] at ht'
    have hne : i' ≠ i := by
      rintro rfl
      simp [ht] at ht'
    rw [T.setMap_of_ne _ (by simp [hne])]
    exact h.none i' j' ht'

/-- An entry of a table is written. -/
theorem Shows.setMap {e : Nat} (h : Shows dir T mem) (hI : Inv dir T st) (ht : T.tab i = some t)
    (hj : j < pteCount)
    (he : e < 2 ^ 32) (hpres : present e = true) (hg : addr e = g) :
    Shows dir (T.setMap (i, j) (some g)) (setWord mem (t + 4 * j) e) :=
  h.update hI ht hj he fun g' => by simp [hpres, hg]

/-- A frame in hand goes into an empty slot. -/
theorem Inv.setMap (hI : Inv dir (T.setMap p none) st) (hh : Held dir (T.setMap p none) a st)
    (hp : p ∈ slots) :
    Inv dir (T.setMap p (some a)) st := by
  have hT : (T.setMap p none).setMap p (some a) = T.setMap p (some a) := by
    simp [Tables.setMap]
  have hmap : ∀ q g, (T.setMap p (some a)).map q = some g →
      (q = p ∧ g = a) ∨ (T.setMap p none).map q = some g := by
    intro q g hq
    by_cases hqp : q = p
    · subst hqp
      rw [T.setMap_self] at hq
      exact .inl ⟨rfl, (Option.some.inj hq).symm⟩
    · rw [T.setMap_of_ne _ hqp] at hq ⊢
      exact .inr hq
  refine ⟨hI.nodup, hI.aligned, hI.dir_aligned, hI.dir_used, hI.tab_used, hI.tab_inj,
    fun q g hq => ?_, fun q g hq => ?_,
    hI.tab_lt, fun q g hq => ?_, fun g hg hc => ?_⟩
  · rcases hmap q g hq with ⟨rfl, rfl⟩ | hq
    · exact ⟨hh.aligned, hh.not_free, hh.ne_dir, hh.not_tab⟩
    · exact hI.map_used q g hq
  · rcases hmap q g hq with ⟨rfl, rfl⟩ | hq
    · exact hp
    · exact hI.map_slot q g hq
  · rcases hmap q g hq with ⟨rfl, rfl⟩ | hq
    · exact hh.lt
    · exact hI.map_lt q g hq
  · by_cases hga : g = a
    · subst hga
      have huses := uses_some (T := T.setMap p none) (p := p) (g := g) (T.setMap_self p none) hp
      rw [hT, uses_eq_zero hh.not_map] at huses
      have := hh.refs hc
      omega
    · have huses :=
        uses_some_of_ne (T := T.setMap p none) (p := p) (g := a) (T.setMap_self p none) hga
      rw [hT] at huses
      rw [huses]
      exact hI.refs g hg hc

/-! ## one table -/

/-- The directory with an empty table `f` in entry `i`. -/
def Tables.replace (T : Tables) (i f : Nat) : Tables where
  tab := Function.update T.tab i (some f)
  map p := if p.1 = i then none else T.map p

/-- The directory without what entry `i` maps below slot `n`. -/
def Tables.without (T : Tables) (i n : Nat) : Tables where
  tab := T.tab
  map p := if p.1 = i ∧ p.2 < n then none else T.map p

/-- The new table. -/
theorem Tables.replace_self (T : Tables) (i f : Nat) : (T.replace i f).tab i = some f :=
  Function.update_self ..

/-- The other tables. -/
theorem Tables.replace_of_ne {k : Nat} (T : Tables) (f : Nat) (h : k ≠ i) :
    (T.replace i f).tab k = T.tab k :=
  Function.update_of_ne h ..

/-- The slots of the other tables. -/
theorem Tables.replace_map {q : Nat × Nat} (T : Tables) (f : Nat) (h : q.1 ≠ i) :
    (T.replace i f).map q = T.map q := if_neg h

/-- The slots of the new table are empty. -/
theorem Tables.replace_map_self {q : Nat × Nat} (T : Tables) (f : Nat) (h : q.1 = i) :
    (T.replace i f).map q = none := if_pos h

/-- A cleared table takes the place of another. -/
theorem Shows.replace {e : Nat} (h : Shows dir T mem) (hI : Inv dir T st) (hi : i < pteCount)
    (hf : f % pageSize = 0)
    (hfdir : f ≠ dir) (hzero : ∀ x, f ≤ x → x < f + pageSize → mem x = 0) (he : e < 2 ^ 32)
    (hpres : present e = true)
    (huser : user e = true) (haddr : addr e = f) :
    Shows dir (T.replace i f) (setWord mem (dir + 4 * i) e) := by
  have hoff : ∀ b, b % pageSize = 0 → b ≠ dir → Same mem (setWord mem (dir + 4 * i) e) b :=
    fun b hb hne => same_setWord hb hI.dir_aligned hne hi
  refine ⟨fun i' hi' t' => ?_, fun i' t' ht' => ?_, fun i' t' ht' j' hj' g' => ?_,
    fun i' j' ht' => ?_⟩
  · by_cases hii : i' = i
    · subst hii
      rw [word_setWord mem he, haddr]
      simp [Tables.replace, hpres, huser]
    · rw [word_setWord_of_ne hii, T.replace_of_ne f hii]
      exact h.tab i' hi' t'
  · by_cases hii : i' = i
    · exact hii ▸ hi
    · rw [T.replace_of_ne f hii] at ht'
      exact h.tab_lt i' t' ht'
  · by_cases hii : i' = i
    · subst hii
      obtain rfl : f = t' := by simpa [Tables.replace] using ht'
      rw [(hoff f hf hfdir).word hj', word_zero hzero hj']
      simp [Tables.replace, present]
    · rw [T.replace_of_ne f hii] at ht'
      obtain ⟨hal, -, hdir⟩ := hI.tab_used i' t' ht'
      rw [(hoff t' hal hdir).word hj', T.replace_map f (by exact hii)]
      exact h.map i' t' ht' j' hj' g'
  · by_cases hii : i' = i
    · simp [Tables.replace, hii] at ht'
    · rw [T.replace_of_ne f hii] at ht'
      rw [T.replace_map f (by exact hii)]
      exact h.none i' j' ht'

/-- A frame in hand becomes the table of an entry that maps nothing. -/
theorem Inv.replace (hI : Inv dir (T.without i pteCount) st) (hh : Held dir T f st) :
    Inv dir (T.replace i f) st := by
  have hmap : ∀ q, (T.replace i f).map q = (T.without i pteCount).map q := by
    intro q
    by_cases hq : q.1 = i
    · rw [T.replace_map_self f hq]
      by_cases hlt : q.2 < pteCount
      · exact (if_pos ⟨hq, hlt⟩).symm
      · cases hm : (T.without i pteCount).map q with
        | none => rfl
        | some g => exact absurd (mem_slots.mp (hI.map_slot q g hm)).2 hlt
    · rw [T.replace_map f hq]
      exact (if_neg fun h => hq h.1).symm
  have hmapT : ∀ q g, (T.replace i f).map q = some g → T.map q = some g := by
    intro q g hq
    by_cases hqi : q.1 = i
    · rw [T.replace_map_self f hqi] at hq
      contradiction
    · rwa [T.replace_map f hqi] at hq
  have htab : ∀ k t, (T.replace i f).tab k = some t →
      (k = i ∧ t = f) ∨ (k ≠ i ∧ T.tab k = some t) := by
    intro k t hk
    by_cases hki : k = i
    · subst hki
      rw [T.replace_self] at hk
      exact .inl ⟨rfl, (Option.some.inj hk).symm⟩
    · rw [T.replace_of_ne f hki] at hk
      exact .inr ⟨hki, hk⟩
  have huses : ∀ g, (T.replace i f).uses g = (T.without i pteCount).uses g :=
    fun g => by simp only [Tables.uses, hmap]
  refine ⟨hI.nodup, hI.aligned, hI.dir_aligned, hI.dir_used, fun k t hk => ?_,
    fun k l t hk hl => ?_, fun q g hq => ?_,
    fun q g hq => ?_, fun k t hk => ?_, fun q g hq => ?_, fun g hg hc => ?_⟩
  · rcases htab k t hk with ⟨-, rfl⟩ | ⟨-, hk⟩
    · exact ⟨hh.aligned, hh.not_free, hh.ne_dir⟩
    · exact hI.tab_used k t hk
  · rcases htab k t hk with ⟨hki, htf⟩ | ⟨-, hk'⟩ <;> rcases htab l t hl with ⟨hli, htf'⟩ | ⟨-, hl'⟩
    · exact hki.trans hli.symm
    · exact absurd (htf ▸ hl') (hh.not_tab l)
    · exact absurd (htf' ▸ hk') (hh.not_tab k)
    · exact hI.tab_inj k l t hk' hl'
  · obtain ⟨h₁, h₂, h₃, h₄⟩ := hI.map_used q g (hmap q ▸ hq)
    refine ⟨h₁, h₂, h₃, fun k hk => ?_⟩
    rcases htab k g hk with ⟨-, rfl⟩ | ⟨-, hk⟩
    · exact hh.not_map q (hmapT q g hq)
    · exact h₄ k hk
  · exact hI.map_slot q g (hmap q ▸ hq)
  · rcases htab k t hk with ⟨-, rfl⟩ | ⟨-, hk⟩
    · exact hh.lt
    · exact hI.tab_lt k t hk
  · exact hI.map_lt q g (hmap q ▸ hq)
  · rw [huses g]
    exact hI.refs g hg hc

/-- `freeFrame` of a frame that the directory does not use. -/
theorem Inv.freeFrame (hI : Inv dir T st) (ht : t % pageSize = 0) (hlt : t < 2 ^ 32)
    (hfree : t ∉ st.free) (hdir : t ≠ dir)
    (htab : ∀ i, T.tab i ≠ some t) (hmap : ∀ p, T.map p ≠ some t) :
    Inv dir T (st.freeFrame t) ∧ ∀ x, x < t ∨ t + pageSize ≤ x →
      (st.freeFrame t).mem x = st.mem x := by
  have hset : ∀ n, Inv dir T (st.setRef t n) := by
    intro n
    refine ⟨hI.nodup, hI.aligned, hI.dir_aligned, hI.dir_used, hI.tab_used, hI.tab_inj, hI.map_used,
      hI.map_slot, hI.tab_lt,
      hI.map_lt, fun g hg hc => ?_⟩
    by_cases hgt : g = t
    · rw [hgt, uses_eq_zero hmap]
      exact Nat.zero_le _
    · rw [Phys.setRef]
      simp only [Function.update_of_ne (pfn_ne hg ht hgt)]
      exact hI.refs g hg hc
  unfold Phys.freeFrame
  split
  · exact ⟨hI, fun _ _ => rfl⟩
  · split
    · exact ⟨hI.congr rfl rfl rfl, fun _ _ => rfl⟩
    · dsimp only
      split
      · exact ⟨hset _, fun _ _ => rfl⟩
      · refine ⟨?_, fun x hx => setWord_outside st.mem hx⟩
        have hI' := hset (st.refs (t / pageSize) - 1)
        refine ⟨List.nodup_cons.mpr ⟨hfree, hI.nodup⟩, ?_, hI.dir_aligned, ?_, ?_, hI.tab_inj, ?_,
          hI.map_slot, hI.tab_lt,
          hI.map_lt, hI'.refs⟩
        · exact List.forall_mem_cons.mpr ⟨⟨ht, hlt⟩, hI.aligned⟩
        · exact fun hin => (List.mem_cons.mp hin).elim (fun h => hdir h.symm) hI.dir_used
        · intro k u hu
          obtain ⟨h₁, h₂, h₃⟩ := hI.tab_used k u hu
          exact ⟨h₁, fun hin => (List.mem_cons.mp hin).elim (fun h => htab k (h ▸ hu)) h₂, h₃⟩
        · intro q g hq
          obtain ⟨h₁, h₂, h₃⟩ := hI.map_used q g hq
          exact ⟨h₁, fun hin => (List.mem_cons.mp hin).elim (fun h => hmap q (h ▸ hq)) h₂, h₃⟩

/-! ## giving up entries -/

theorem Same.refl (mem : Nat → BitVec 8) (a : Nat) : Same mem mem a := fun _ _ _ => rfl

theorem Same.trans {mem'' : Nat → BitVec 8} (h₁ : Same mem mem' a) (h₂ : Same mem' mem'' a) :
    Same mem mem'' a :=
  fun x hx hx' => (h₂ x hx hx').trans (h₁ x hx hx')

/-- An entry goes, and with it one use of its frame. -/
theorem dropEntry_spec {e : Nat} (hI : Inv dir T st)
    (h : ∀ g, T.map p = some g ↔ present e = true ∧ addr e = g) :
    Inv dir (T.setMap p none) (st.dropEntry e) ∧
      (∀ b, b % pageSize = 0 → T.map p ≠ some b → Same st.mem (st.dropEntry e).mem b) ∧
      ∀ a, Held dir T a st → Held dir (T.setMap p none) a (st.dropEntry e) := by
  obtain ⟨hI', htouched⟩ := hI.dropEntry h
  have hnot : ∀ a, Held dir T a st → ∀ q, (T.setMap p none).map q ≠ some a := by
    intro a ha q hq
    by_cases hqp : q = p
    · simp [hqp] at hq
    · rw [T.setMap_of_ne none hqp] at hq
      exact ha.not_map q hq
  by_cases hpres : present e = true
  · have hp := (h (addr e)).mpr ⟨hpres, rfl⟩
    refine ⟨hI', fun b hb hne => ?_, fun a ha => ?_⟩
    · exact htouched.same hb (addr_mod e) fun hbe => hne (hbe ▸ hp)
    · have hae : a ≠ addr e := fun hae => ha.not_map p (hae ▸ hp)
      have ha' := ha.touched htouched (addr_mod e) hae
      exact ⟨ha'.aligned, ha'.lt, ha'.not_free, ha'.ne_dir, ha'.not_tab, hnot a ha, ha'.refs⟩
  · have hst : st.dropEntry e = st := if_neg hpres
    rw [hst] at hI' ⊢
    exact ⟨hI', fun b _ _ => Same.refl _ _, fun a ha =>
      ⟨ha.aligned, ha.lt, ha.not_free, ha.ne_dir, ha.not_tab, hnot a ha, ha.refs⟩⟩

/-- No slot is emptied. -/
theorem Tables.without_zero (T : Tables) (i : Nat) : T.without i 0 = T := by
  simp [Tables.without]

/-- One more slot is emptied. -/
theorem Tables.without_succ (T : Tables) (i n : Nat) :
    T.without i (n + 1) = (T.without i n).setMap (i, n) none := by
  unfold Tables.without Tables.setMap
  congr 1
  funext q
  obtain ⟨k, l⟩ := q
  by_cases hq : (k, l) = (i, n)
  · rw [hq, Function.update_self]
    simp
  · rw [Function.update_of_ne hq]
    have : (k = i ∧ l < n + 1) ↔ (k = i ∧ l < n) := by
      rw [Prod.mk.injEq] at hq
      omega
    simp only [this]

/-- The loop over the old table: its slots are given up one after the other. -/
theorem dropEntries_spec {n : Nat} (hI : Inv dir T st) (hS : Shows dir T st.mem)
    (ht : T.tab i = some t) (hn : n ≤ pteCount) :
    Inv dir (T.without i n) (Phys.dropEntries t n st) ∧
      (∀ b, b % pageSize = 0 → (∀ p, T.map p ≠ some b) →
        Same st.mem (Phys.dropEntries t n st).mem b) ∧
      ∀ a, Held dir T a st → Held dir (T.without i n) a (Phys.dropEntries t n st) := by
  induction n with
  | zero =>
      rw [T.without_zero]
      exact ⟨hI, fun b _ _ => Same.refl _ _, fun a ha => ha⟩
  | succ n ih =>
      obtain ⟨hI₁, hsame₁, hheld₁⟩ := ih (by omega)
      have htnot : ∀ p, T.map p ≠ some t := fun p hp => (hI.map_used p t hp).2.2.2 i ht
      have hword : (Phys.dropEntries t n st).entry t n = st.entry t n :=
        (hsame₁ t (hI.tab_used i t ht).1 htnot).word (by omega)
      have hslot : (T.without i n).map (i, n) = T.map (i, n) := if_neg (by simp)
      have hentry : ∀ g, (T.without i n).map (i, n) = some g ↔
          present ((Phys.dropEntries t n st).entry t n) = true ∧
            addr ((Phys.dropEntries t n st).entry t n) = g := by
        intro g
        rw [hslot, hword]
        exact hS.map i t ht n (by omega) g
      obtain ⟨hI₂, hsame₂, hheld₂⟩ := dropEntry_spec hI₁ hentry
      rw [T.without_succ]
      refine ⟨hI₂, fun b hb hnot => ?_, fun a ha => hheld₂ a (hheld₁ a ha)⟩
      exact (hsame₁ b hb hnot).trans (hsame₂ b hb (by rw [hslot]; exact hnot _))

/-- The loop writes only frames that the table leads to. -/
theorem dropEntries_within {n : Nat} {U : Nat → Prop} (hI : Inv dir T st) (hS : Shows dir T st.mem)
    (ht : T.tab i = some t)
    (hn : n ≤ pteCount) (hU : ∀ j g, T.map (i, j) = some g → U g) :
    Within U st (Phys.dropEntries t n st) := by
  induction n with
  | zero => exact Within.refl U st
  | succ n ih =>
      obtain ⟨-, hsame, -⟩ := dropEntries_spec hI hS ht (Nat.le_of_succ_le hn)
      have hword : (Phys.dropEntries t n st).entry t n = st.entry t n :=
        (hsame t (hI.tab_used i t ht).1 fun p hp => (hI.map_used p t hp).2.2.2 i ht).word (by omega)
      refine (ih (by omega)).trans (within_dropEntry fun hpres => ?_)
      rw [hword] at hpres ⊢
      exact hU n _ ((hS.map i t ht n (by omega) _).mpr ⟨hpres, rfl⟩)

/-! ## `mapPage` -/

/-- The flags with which the loader maps a page. -/
def userFlags : Nat := pagePresent + pageRw + pageUser

/-- The entry of a user page or table at frame `a`. -/
theorem userEntry (ha : a % pageSize = 0) (hlt : a < 2 ^ 32) :
    mkEntry a 7 < 2 ^ 32 ∧ present (mkEntry a 7) = true ∧ user (mkEntry a 7) = true ∧
      addr (mkEntry a 7) = a := by
  have hmod := mkEntry_mod a 7
  refine ⟨mkEntry_lt hlt (by decide), present_iff.mpr (by omega), user_iff.mpr (by omega), ?_⟩
  rw [addr_mkEntry (by decide), addr_of_aligned ha]

/-- A slot of an existing table gets a page; what it had goes. -/
theorem mapSlot_spec (hI : Inv dir T st) (hS : Shows dir T st.mem) (ht : T.tab i = some t)
    (hj : j < pteCount)
    (hh : Held dir T a st) :
    Inv dir (T.setMap (i, j) (some a)) ((st.dropEntry (st.entry t j)).setEntry t j (mkEntry a 7)) ∧
      Shows dir (T.setMap (i, j) (some a))
        ((st.dropEntry (st.entry t j)).setEntry t j (mkEntry a 7)).mem ∧
      ∀ b, b % pageSize = 0 → b ≠ t → T.map (i, j) ≠ some b →
        Same st.mem ((st.dropEntry (st.entry t j)).setEntry t j (mkEntry a 7)).mem b := by
  obtain ⟨he, hpres, -, haddr⟩ := userEntry hh.aligned hh.lt
  obtain ⟨hal, -, hdir⟩ := hI.tab_used i t ht
  obtain ⟨hI₁, hsame, hheld⟩ := dropEntry_spec hI (p := (i, j)) (hS.map i t ht j hj)
  have hslot : (i, j) ∈ slots := mem_slots.mpr ⟨hS.tab_lt i t ht, hj⟩
  have hS₁ : Shows dir T (st.dropEntry (st.entry t j)).mem := by
    refine hS.frame (hsame dir hI.dir_aligned fun hm => ?_) fun k u hu =>
      hsame u (hI.tab_used k u hu).1 fun hm => ?_
    · exact (hI.map_used _ _ hm).2.2.1 rfl
    · exact (hI.map_used _ _ hm).2.2.2 k hu
  refine ⟨(hI₁.setMap (hheld a hh) hslot).congr rfl rfl rfl, hS₁.setMap hI ht hj he hpres haddr,
    fun b hb hbt hbm => ?_⟩
  exact (hsame b hb hbm).trans (same_setWord hb hal hbt hj)

/-- What `mapPage` comes to: the page is in its slot, and the other slots and
entries are as before. -/
structure Mapped (dir : Nat) (T : Tables) (v a : Nat) (st : Phys) (T' : Tables)
    (st' : Phys) : Prop where
  inv : Inv dir T' st'
  shows : Shows dir T' st'.mem
  slot : T'.map (pdeIdx v, pteIdx v) = some a
  other : ∀ q, q ≠ (pdeIdx v, pteIdx v) → T'.map q = T.map q
  tab : T'.tab (pdeIdx v) ≠ none
  rest : ∀ k, k ≠ pdeIdx v → k < pteCount → word st'.mem (dir + 4 * k) = word st.mem (dir + 4 * k) ∧
    T'.tab k = T.tab k
  same : ∀ b, b % pageSize = 0 → b ≠ dir → (∀ k, T.tab k ≠ some b) → b ∉ st.free →
    T.map (pdeIdx v, pteIdx v) ≠ some b → Same st.mem st'.mem b

/-- `Mapped`, with where the frames come from: a new table from the free list, and
nothing is written but the directory, the table and the frame that the slot had. -/
structure MappedFrom (dir : Nat) (T : Tables) (v a : Nat) (st : Phys) (T' : Tables)
    (st' : Phys) : Prop
    extends Mapped dir T v a st T' st' where
  tab_from : ∀ t, T'.tab (pdeIdx v) = some t → T.tab (pdeIdx v) = some t ∨ t ∈ st.free
  within : ∀ U : Nat → Prop, U dir → (∀ b ∈ st.free, U b) → (∀ t, T.tab (pdeIdx v) = some t → U t) →
    (∀ g, T.map (pdeIdx v, pteIdx v) = some g → U g) → Within U st st'

/-- The end of `mapPage`, from the table on. -/
theorem mapPage_tail (hI : Inv dir T st) (hS : Shows dir T st.mem) (ht : T.tab (pdeIdx v) = some t)
    (hh : Held dir T a st) (hdir : addr (st.entry dir (pdeIdx v)) = t)
    (h : (let pageTable := addr (st.entry dir (pdeIdx v))
      let st := st.checkPhysAddr pageTable
      let st := st.dropEntry (st.entry pageTable (pteIdx v))
      let st :=
        st.setEntry pageTable (pteIdx v) (mkEntry a (pagePresent + userFlags / pageRw % 4 * pageRw))
      (true, if user userFlags ∧ ¬ user (st.entry dir (pdeIdx v)) then
          st.setEntry dir (pdeIdx v) (st.entry dir (pdeIdx v) + pageUser)
        else st)) = (true, st')) :
    Inv dir (T.setMap (pdeIdx v, pteIdx v) (some a)) st' ∧
      Shows dir (T.setMap (pdeIdx v, pteIdx v) (some a)) st'.mem ∧
      (∀ b, b % pageSize = 0 → b ≠ t → T.map (pdeIdx v, pteIdx v) ≠ some b →
        Same st.mem st'.mem b) ∧
      ∀ U : Nat → Prop, U t → (∀ g, T.map (pdeIdx v, pteIdx v) = some g → U g) →
        Within U st st' := by
  have hmem := checkPhysAddr_mem st t
  have hS₁ : Shows dir T (st.checkPhysAddr t).mem := hmem.symm ▸ hS
  have hh₁ : Held dir T a (st.checkPhysAddr t) := by
    refine hh.touched (touched_check st t t) (hI.tab_used _ t ht).1 ?_
    rintro rfl
    exact hh.not_tab _ ht
  obtain ⟨hI₂, hS₂, hsame₂⟩ := mapSlot_spec (hI.check t) hS₁ ht (pteIdx_lt v) hh₁
  have huser := ((hS₂.tab (pdeIdx v) (hS.tab_lt _ _ ht) t).mp ht).2.1
  dsimp only at h
  rw [hdir] at h
  have hflags : pagePresent + userFlags / pageRw % 4 * pageRw = 7 := by decide
  rw [hflags, if_neg fun hc => hc.2 huser] at h
  obtain rfl := (Prod.mk.inj h).2
  rw [hmem] at hsame₂
  refine ⟨hI₂, hS₂, hsame₂, fun U hUt hUg => ?_⟩
  refine (within_check U st t).trans ((within_dropEntry fun hp => ?_).trans
    (within_setEntry (hI.tab_used _ t ht).1 (pteIdx_lt v) hUt))
  exact hUg _ ((hS₁.map _ t ht _ (pteIdx_lt v) _).mpr ⟨hp, rfl⟩)

/-- What `ensurePageTable` comes to: a free frame `f` is the empty table of entry `i`. -/
structure Ensured (dir : Nat) (T : Tables) (a i f : Nat) (st : Phys) (T' : Tables)
    (st' : Phys) : Prop where
  inv : Inv dir T' st'
  shows : Shows dir T' st'.mem
  held : Held dir T' a st'
  tab : T'.tab i = some f
  tab_of_ne : ∀ k, k ≠ i → T'.tab k = T.tab k
  map : ∀ q, T'.map q = T.map q
  free : f ∈ st.free
  words : ∀ k, k ≠ i → k < pteCount → word st'.mem (dir + 4 * k) = word st.mem (dir + 4 * k)
  same : ∀ b, b % pageSize = 0 → b ≠ dir → b ≠ f → Same st.mem st'.mem b
  within : ∀ U : Nat → Prop, U dir → U f → Within U st st'

/-- A missing table is allocated and entered. -/
theorem ensurePageTable_spec (hI : Inv dir T st) (hS : Shows dir T st.mem) (hh : Held dir T a st)
    (hi : i < pteCount)
    (hnone : T.tab i = none) (h : st.ensurePageTable dir i userFlags = (true, st')) :
    ∃ T' f, Ensured dir T a i f st T' st' := by
  unfold Phys.ensurePageTable at h
  split at h
  · simp at h
  · next f st₁ halloc =>
      obtain rfl := (Prod.mk.inj h).2
      obtain ⟨hI₁, hf, hffree, htouched, hzero⟩ := hI.alloc halloc
      obtain ⟨he, hepres, heuser, headdr⟩ := userEntry hf.aligned hf.lt
      have hflags : pagePresent + pageRw + userFlags / pageUser % 2 * pageUser = 7 := by decide
      rw [hflags]
      have haf : a ≠ f := fun haf => hh.not_free (haf ▸ hffree)
      have hh₁ := hh.touched htouched hf.aligned haf
      have hdsame := htouched.same hI.dir_aligned hf.aligned hf.ne_dir.symm
      have hS₁ : Shows dir T st₁.mem := hS.frame hdsame fun k u hu =>
        htouched.same (hI.tab_used k u hu).1 hf.aligned fun huf => hf.not_tab k (huf ▸ hu)
      have hwithout : T.without i pteCount = T := by
        unfold Tables.without
        congr 1
        funext q
        obtain ⟨k, l⟩ := q
        dsimp only
        split
        · next hk => rw [hk.1, hS.none _ l hnone]
        · rfl
      have hmapT : ∀ q, (T.replace i f).map q = T.map q := by
        intro q
        by_cases hq : q.1 = i
        · rw [T.replace_map_self f hq]
          obtain ⟨k, l⟩ := q
          obtain rfl : k = i := hq
          exact (hS.none _ l hnone).symm
        · exact T.replace_map f hq
      refine ⟨T.replace i f, f, (Inv.replace (hwithout.symm ▸ hI₁) hf).congr rfl rfl rfl,
        hS₁.replace hI₁ hi hf.aligned hf.ne_dir hzero he hepres heuser headdr, ?_,
          T.replace_self i f,
        fun k hk => T.replace_of_ne f hk, hmapT, hffree, fun k hk hk' => ?_, fun b hb hbdir hbf =>
          ?_, fun U hUd hUf => ?_⟩
      · refine ⟨hh₁.aligned, hh₁.lt, hh₁.not_free, hh₁.ne_dir, fun k hk => ?_,
          fun q hq => ?_, hh₁.refs⟩
        · by_cases hki : k = i
          · rw [hki, T.replace_self] at hk
            exact haf (Option.some.inj hk).symm
          · rw [T.replace_of_ne f hki] at hk
            exact hh₁.not_tab k hk
        · rw [hmapT] at hq
          exact hh₁.not_map q hq
      · have hword : word (st₁.setEntry dir i (mkEntry f 7)).mem (dir + 4 * k) =
            word st₁.mem (dir + 4 * k) :=
          word_setWord_of_ne hk
        rw [hword]
        exact hdsame.word hk'
      · have hset : Same st₁.mem (st₁.setEntry dir i (mkEntry f 7)).mem b :=
          same_setWord hb hI.dir_aligned hbdir hi
        exact (htouched.same hb hf.aligned hbf).trans hset
      · exact (within_alloc halloc hf.aligned hUf).trans (within_setEntry hI.dir_aligned hi hUd)

/-- **`mapPage`** on a page whose table is a user table or missing, with what it leaves
alone. -/
theorem mapPage_from (hI : Inv dir T st) (hS : Shows dir T st.mem) (hh : Held dir T a st)
    (hv : pdeIdx v < pteCount)
    (hR : present (st.entry dir (pdeIdx v)) = true → T.tab (pdeIdx v) ≠ none)
    (h : st.mapPage dir v a userFlags = (true, st')) : ∃ T', MappedFrom dir T v a st T' st' := by
  unfold Phys.mapPage at h
  by_cases hpres : present (st.entry dir (pdeIdx v)) = true
  · obtain ⟨t, ht⟩ := Option.ne_none_iff_exists'.mp (hR hpres)
    have hdir : addr (st.entry dir (pdeIdx v)) = t := ((hS.tab _ hv t).mp ht).2.2
    simp only [hpres, if_true] at h
    obtain ⟨hI₂, hS₂, hsame₂, hw₂⟩ := mapPage_tail hI hS ht hh hdir h
    refine ⟨_, ⟨hI₂, hS₂, T.setMap_self _ _, fun q hq => T.setMap_of_ne _ hq, ?_,
        fun k _ hk' => ⟨?_, rfl⟩, ?_⟩,
      fun t' ht' => .inl ht', fun U _ _ hUt hUg => hw₂ U (hUt t ht) hUg⟩
    · rw [Tables.setMap_tab, ht]
      simp
    · have hsame := hsame₂ dir hI.dir_aligned (hI.tab_used _ t ht).2.2.symm fun hm =>
        (hI.map_used _ _ hm).2.2.1 rfl
      exact hsame.word hk'
    · intro b hb _ htab _ hmap
      exact hsame₂ b hb (fun hbt => htab _ (hbt ▸ ht)) hmap
  · have hnone : T.tab (pdeIdx v) = none := by
      cases ht : T.tab (pdeIdx v) with
      | none => rfl
      | some t => exact absurd ((hS.tab _ hv t).mp ht).1 hpres
    simp only [hpres, Bool.false_eq_true, if_false] at h
    cases hens : st.ensurePageTable dir (pdeIdx v) userFlags with
    | mk ok st₁ =>
        rw [hens] at h
        cases ok with
        | false => simp at h
        | true =>
            simp only [if_true] at h
            obtain ⟨T₁, f, hE⟩ := ensurePageTable_spec hI hS hh hv hnone hens
            have hdir : addr (st₁.entry dir (pdeIdx v)) = f := ((hE.shows.tab _ hv f).mp hE.tab).2.2
            obtain ⟨hfal, -, hfdir⟩ := hE.inv.tab_used _ f hE.tab
            obtain ⟨hI₂, hS₂, hsame₂, hw₂⟩ := mapPage_tail hE.inv hE.shows hE.tab hE.held hdir h
            refine ⟨_, ⟨hI₂, hS₂, Tables.setMap_self _ _ _, fun q hq => ?_, ?_,
                fun k hk hk' => ⟨?_, ?_⟩, ?_⟩,
              fun t' ht' => .inr ?_, fun U hUd hUf _ hUg => ?_⟩
            · rw [Tables.setMap_of_ne _ _ hq, hE.map]
            · rw [Tables.setMap_tab, hE.tab]
              simp
            · have hsame := hsame₂ dir hI.dir_aligned hfdir.symm fun hm =>
                (hE.inv.map_used _ _ hm).2.2.1 rfl
              rw [hsame.word hk']
              exact hE.words k hk hk'
            · rw [Tables.setMap_tab, hE.tab_of_ne k hk]
            · intro b hb hbdir _ hbfree hmap
              have hbf : b ≠ f := fun hbf => hbfree (hbf ▸ hE.free)
              exact (hE.same b hb hbdir hbf).trans (hsame₂ b hb hbf (by rw [hE.map]; exact hmap))
            · rw [Tables.setMap_tab, hE.tab] at ht'
              exact Option.some.inj ht' ▸ hE.free
            · refine (hE.within U hUd (hUf f hE.free)).trans
                (hw₂ U (hUf f hE.free) fun g hg => hUg g ?_)
              rw [← hE.map]
              exact hg

/-- The same, for the tables alone. -/
theorem mapPage_tables (hI : Inv dir T st) (hS : Shows dir T st.mem) (hh : Held dir T a st)
    (hv : pdeIdx v < pteCount)
    (hR : present (st.entry dir (pdeIdx v)) = true → T.tab (pdeIdx v) ≠ none)
    (h : st.mapPage dir v a userFlags = (true, st')) : ∃ T', Mapped dir T v a st T' st' := by
  obtain ⟨T', hM⟩ := mapPage_from hI hS hh hv hR h
  exact ⟨T', hM.toMapped⟩

/-- `mapPage` fails for want of a table. -/
theorem mapPage_false {flags : Nat} (h : st.mapPage dir v a flags = (false, st')) :
    st' = st ∧ st.free = [] ∧ ¬ present (st.entry dir (pdeIdx v)) = true := by
  unfold Phys.mapPage at h
  by_cases hpres : present (st.entry dir (pdeIdx v)) = true
  · simp [hpres] at h
  · simp only [hpres, Bool.false_eq_true, if_false] at h
    unfold Phys.ensurePageTable Phys.allocFrame at h
    cases hfree : st.free with
    | nil =>
        rw [hfree] at h
        simp only [Bool.false_eq_true, if_false] at h
        exact ⟨(Prod.mk.inj h).2.symm, rfl, hpres⟩
    | cons f rest =>
        rw [hfree] at h
        simp at h

/-- `mapPage` fails only without a table and without a frame. -/
theorem mapPage_true_iff {flags : Nat} :
    (st.mapPage dir v a flags).1 = true ↔ present (st.entry dir (pdeIdx v)) = true ∨
      st.free ≠ [] := by
  unfold Phys.mapPage
  by_cases hpres : present (st.entry dir (pdeIdx v)) = true
  · simp [hpres]
  · simp only [hpres, Bool.false_eq_true, if_false, false_or]
    unfold Phys.ensurePageTable Phys.allocFrame
    cases hfree : st.free with
    | nil => simp
    | cons f rest => simp

/-! ## `clearPageTable` -/

/-- What `clearPageTable` comes to. -/
structure Cleared (dir : Nat) (T : Tables) (st : Phys) (T' : Tables) (st' : Phys) : Prop where
  inv : Inv dir T' st'
  shows : Shows dir T' st'.mem
  rest : ∀ k, k < pteCount →
    (present (word st'.mem (dir + 4 * k)) = true → present (word st.mem (dir + 4 * k)) = true) ∧
    (T.tab k ≠ none → T'.tab k ≠ none)

/-- `Cleared`, with what becomes of the slots: those of the table are empty, if there
was a frame for a new one, and the others are as before. -/
structure ClearedFrom (dir : Nat) (T : Tables) (v : Nat) (st : Phys) (T' : Tables)
    (st' : Phys) : Prop
    extends Cleared dir T st T' st' where
  tab_from : ∀ k t, T'.tab k = some t → T.tab k = some t ∨ t ∈ st.free
  other : ∀ q : Nat × Nat, q.1 ≠ pdeIdx v → T'.map q = T.map q
  gone : st.free ≠ [] → ∀ q : Nat × Nat, q.1 = pdeIdx v → T'.map q = none
  sub : ∀ q g, T'.map q = some g → T.map q = some g
  words : ∀ k, k ≠ pdeIdx v → k < pteCount → word st'.mem (dir + 4 * k) = word st.mem (dir + 4 * k)
  within : ∀ U : Nat → Prop, U dir → (∀ b ∈ st.free, U b) → (∀ t, T.tab (pdeIdx v) = some t → U t) →
    (∀ j g, T.map (pdeIdx v, j) = some g → U g) → Within U st st'

/-- The end of `clearPageTable`: the new table `f` takes the place of `t`. -/
theorem clearPageTable_tail {st₂ : Phys} (hI : Inv dir T st) (hv : pdeIdx v < pteCount)
    (hpres : present (st.entry dir (pdeIdx v)) = true) (ht : T.tab (pdeIdx v) = some t)
    (hI₂ : Inv dir (T.without (pdeIdx v) pteCount) st₂) (hS₂ : Shows dir T st₂.mem)
    (hf : Held dir T f st₂)
    (hzero : ∀ x, f ≤ x → x < f + pageSize → st₂.mem x = 0)
    (hdir : ∀ k < pteCount, word st₂.mem (dir + 4 * k) = word st.mem (dir + 4 * k))
    (hffree : f ∈ st.free)
    (hwithin : ∀ U : Nat → Prop, (∀ b ∈ st.free, U b) →
    (∀ j g, T.map (pdeIdx v, j) = some g → U g) → Within U st st₂) :
    ∃ T', ClearedFrom dir T v st T'
      ((st₂.setEntry dir (pdeIdx v) (mkEntry f (st₂.entry dir (pdeIdx v) % 8))).freeFrame t) := by
  obtain ⟨htal, -, htdir⟩ := hI.tab_used _ t ht
  obtain ⟨hp₂, hu₂, -⟩ := (hS₂.tab _ hv t).mp ht
  have hp₂' : present (st₂.entry dir (pdeIdx v)) = true := hp₂
  have hu₂' : user (st₂.entry dir (pdeIdx v)) = true := hu₂
  generalize st₂.entry dir (pdeIdx v) = e at hp₂' hu₂' ⊢
  have hbits : e % 8 < pageSize := by
    unfold pageSize
    omega
  have hlt : mkEntry f (e % 8) < 2 ^ 32 := mkEntry_lt hf.lt hbits
  have hmod := mkEntry_mod f (e % 8)
  rw [Nat.mod_mod] at hmod
  have hpres' : present (mkEntry f (e % 8)) = true := by
    rw [present_iff, hmod]
    exact present_iff.mp hp₂'
  have huser' : user (mkEntry f (e % 8)) = true := by
    rw [user_iff, hmod]
    exact user_iff.mp hu₂'
  have haddr' : addr (mkEntry f (e % 8)) = f := by
    rw [addr_mkEntry hbits, addr_of_aligned hf.aligned]
  have hI₃ : Inv dir (T.replace (pdeIdx v) f) (st₂.setEntry dir (pdeIdx v) (mkEntry f (e % 8))) :=
    (hI₂.replace hf).congr rfl rfl rfl
  have hS₃ : Shows dir (T.replace (pdeIdx v) f)
      (st₂.setEntry dir (pdeIdx v) (mkEntry f (e % 8))).mem :=
    hS₂.replace hI hv hf.aligned hf.ne_dir hzero hlt hpres' huser' haddr'
  have htab₃ : ∀ k, (T.replace (pdeIdx v) f).tab k ≠ some t := by
    intro k hk
    by_cases hki : k = pdeIdx v
    · rw [hki, T.replace_self] at hk
      exact hf.not_tab _ (Option.some.inj hk ▸ ht)
    · rw [T.replace_of_ne f hki] at hk
      exact hki (hI.tab_inj k _ t hk ht)
  have hmap₃ : ∀ p, (T.replace (pdeIdx v) f).map p ≠ some t := by
    intro p hp
    by_cases hpi : p.1 = pdeIdx v
    · rw [T.replace_map_self f hpi] at hp
      contradiction
    · rw [T.replace_map f hpi] at hp
      exact (hI.map_used p t hp).2.2.2 _ ht
  have htfree : t ∉ (st₂.setEntry dir (pdeIdx v) (mkEntry f (e % 8))).free :=
    (hI₂.tab_used _ t ht).2.1
  obtain ⟨hI₄, hsame₄⟩ := hI₃.freeFrame htal (hI.tab_lt _ t ht) htfree htdir htab₃ hmap₃
  have hword : ∀ k, k ≠ pdeIdx v →
      word (st₂.setEntry dir (pdeIdx v) (mkEntry f (e % 8))).mem (dir + 4 * k) =
        word st₂.mem (dir + 4 * k) :=
    fun k hk => word_setWord_of_ne hk
  have hset : ∀ U : Nat → Prop, U dir → Within U st₂
      (st₂.setEntry dir (pdeIdx v) (mkEntry f (e % 8))) :=
    fun U hU => within_setEntry hI.dir_aligned hv hU
  generalize st₂.setEntry dir (pdeIdx v) (mkEntry f (e % 8)) =
    st₃ at hI₃ hS₃ hI₄ hsame₄ hword hset ⊢
  have hoff : ∀ b, b % pageSize = 0 → b ≠ t → Same st₃.mem (st₃.freeFrame t).mem b :=
    fun b hb hbt => same_of_outside hb htal hbt hsame₄
  refine ⟨_, ⟨hI₄, hS₃.frame (hoff dir hI.dir_aligned htdir.symm) fun k u hu => ?_,
    fun k hk => ⟨fun hp => ?_, fun hk' => ?_⟩⟩, fun k u hu => ?_, fun q hq => T.replace_map f hq,
    fun _ q hq => T.replace_map_self f hq, fun q g hq => ?_, fun k hk hk' =>
      ?_, fun U hUd hUf hUt hUg => ?_⟩
  · exact hoff u (hI₃.tab_used k u hu).1 fun hut => htab₃ k (hut ▸ hu)
  · by_cases hki : k = pdeIdx v
    · exact hki ▸ hpres
    · rw [(hoff dir hI.dir_aligned htdir.symm).word hk, hword k hki, hdir k hk] at hp
      exact hp
  · by_cases hki : k = pdeIdx v
    · rw [hki, T.replace_self]
      simp
    · rw [T.replace_of_ne f hki]
      exact hk'
  · by_cases hki : k = pdeIdx v
    · rw [hki, T.replace_self] at hu
      exact .inr (Option.some.inj hu ▸ hffree)
    · rw [T.replace_of_ne f hki] at hu
      exact .inl hu
  · by_cases hq' : q.1 = pdeIdx v
    · rw [T.replace_map_self f hq'] at hq
      contradiction
    · rwa [T.replace_map f hq'] at hq
  · rw [(hoff dir hI.dir_aligned htdir.symm).word hk', hword k hk, hdir k hk']
  · exact ((hwithin U hUf hUg).trans (hset U hUd)).trans (within_freeFrame htal (hUt t ht))

/-- **`clearPageTable`** on a user table or none, with what it leaves alone. -/
theorem clearPageTable_from (hI : Inv dir T st) (hS : Shows dir T st.mem) (hv : pdeIdx v < pteCount)
    (hR : present (st.entry dir (pdeIdx v)) = true → T.tab (pdeIdx v) ≠ none) :
    ∃ T', ClearedFrom dir T v st T' (st.clearPageTable dir v) := by
  have hkeep : ∀ {st' : Phys}, Inv dir T st' → st'.mem = st.mem →
    (∀ U : Nat → Prop, Within U st st') →
      (st.free ≠ [] → T.tab (pdeIdx v) = none) → ∃ T', ClearedFrom dir T v st T' st' := by
    intro st' hI' hmem hwithin hnone
    refine ⟨T, ⟨hI', hmem.symm ▸ hS, fun k _ => ⟨fun hp => by rwa [hmem] at hp, id⟩⟩,
      fun _ _ => .inl, fun _ _ => rfl,
      fun hfree q hq => ?_, fun _ _ => id, fun _ _ _ => by rw [hmem], fun U _ _ _ _ => hwithin U⟩
    have h := hS.none _ q.2 (hnone hfree)
    rwa [← hq] at h
  unfold Phys.clearPageTable
  split
  · next hpres =>
      obtain ⟨t, ht⟩ := Option.ne_none_iff_exists'.mp (hR hpres)
      have hdir : addr (st.entry dir (pdeIdx v)) = t := ((hS.tab _ hv t).mp ht).2.2
      rw [hdir]
      dsimp only
      have hmem := checkPhysAddr_mem st t
      have hI₀ := hI.check t
      have hdnot : ∀ p, T.map p ≠ some dir := fun p hp => (hI.map_used p dir hp).2.2.1 rfl
      have hfree₀ := checkPhysAddr_free st t
      split
      · next st₁ halloc =>
          obtain ⟨rfl, hfree⟩ := allocFrame_none halloc
          exact hkeep hI₀ hmem (fun U => within_check U st t) fun hne => absurd (hfree₀ ▸ hfree) hne
      · next f st₁ halloc =>
          obtain ⟨hI₁, hf, hffree, htouched, hzero⟩ := hI₀.alloc halloc
          have hsame₁ : ∀ b, b % pageSize = 0 → b ≠ f → Same st.mem st₁.mem b := by
            intro b hb hbf
            rw [← hmem]
            exact htouched.same hb hf.aligned hbf
          have hS₁ : Shows dir T st₁.mem := by
            refine hS.frame (hsame₁ dir hI.dir_aligned hf.ne_dir.symm) fun k u hu => ?_
            exact hsame₁ u (hI.tab_used k u hu).1 fun huf => hf.not_tab k (huf ▸ hu)
          obtain ⟨hI₂, hsame₂, hheld₂⟩ := dropEntries_spec hI₁ hS₁ ht le_rfl
          refine clearPageTable_tail hI hv hpres ht hI₂ ?_ ?_ ?_ ?_ ?_ ?_
          · refine hS₁.frame (hsame₂ dir hI.dir_aligned hdnot) fun k u hu => ?_
            exact hsame₂ u (hI.tab_used k u hu).1 fun p hp => (hI.map_used p u hp).2.2.2 k hu
          · obtain ⟨h₁, h₂, h₃, h₄, -, -, h₅⟩ := hheld₂ f hf
            exact ⟨h₁, h₂, h₃, h₄, hf.not_tab, hf.not_map, h₅⟩
          · exact fun x hx hx' => (hsame₂ f hf.aligned hf.not_map x hx hx').trans (hzero x hx hx')
          · intro k hk
            rw [(hsame₂ dir hI.dir_aligned hdnot).word hk,
              (hsame₁ dir hI.dir_aligned hf.ne_dir.symm).word hk]
          · exact hfree₀ ▸ hffree
          · intro U hUf hUg
            have h₁ := within_alloc halloc hf.aligned (hUf f (hfree₀ ▸ hffree))
            exact ((within_check U st t).trans h₁).trans (dropEntries_within hI₁ hS₁ ht le_rfl hUg)
  · next hpres =>
      refine hkeep hI rfl (fun U => Within.refl U st) fun _ => ?_
      cases ht : T.tab (pdeIdx v) with
      | none => rfl
      | some t => exact absurd ((hS.tab _ hv t).mp ht).1 hpres

/-- The same, for the tables alone. -/
theorem clearPageTable_tables (hI : Inv dir T st) (hS : Shows dir T st.mem)
    (hv : pdeIdx v < pteCount)
    (hR : present (st.entry dir (pdeIdx v)) = true → T.tab (pdeIdx v) ≠ none) :
    ∃ T', Cleared dir T st T' (st.clearPageTable dir v) := by
  obtain ⟨T', hC⟩ := clearPageTable_from hI hS hv hR
  exact ⟨T', hC.toCleared⟩

end Doors.Memory
