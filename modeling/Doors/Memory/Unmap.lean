import Doors.Memory.Mapping

/-!
# Doors.Memory.Unmap

What `unmapPage` does.

* `unmapPage_tables` — in a directory that keeps its invariant, one slot is emptied,
  its frame is given up, and an empty table goes with it;
* `unmapPage_fades` — in any directory, `unmapPage` writes no present entry.
-/

namespace Doors.Memory

variable {dir g a i j k t v : Nat} {p : Nat × Nat} {T : Tables} {st st' : Phys}
  {mem mem' : Nat → BitVec 8} {U : Nat → Prop}

/-! ## an empty slot, an empty entry -/

/-- The table that was set. -/
theorem Tables.setTab_self (T : Tables) (i : Nat) (t : Option Nat) : (T.setTab i t).tab i = t :=
  Function.update_self ..

/-- The other tables. -/
theorem Tables.setTab_of_ne (T : Tables) (t : Option Nat) (h : k ≠ i) :
    (T.setTab i t).tab k = T.tab k :=
  Function.update_of_ne h ..

/-- A slot is emptied. -/
theorem Shows.unset (h : Shows dir T mem) (hI : Inv dir T st) (ht : T.tab i = some t)
    (hj : j < pteCount) :
    Shows dir (T.setMap (i, j) Option.none) (setWord mem (t + 4 * j) 0) :=
  h.update hI ht hj (by decide) fun g => by simp [present]

/-- An empty table is taken out. -/
theorem Inv.dropTab (hI : Inv dir T st) (i : Nat) : Inv dir (T.setTab i none) st := by
  have hsub : ∀ k t, (T.setTab i none).tab k = some t → T.tab k = some t := by
    intro k t hk
    by_cases hki : k = i
    · rw [hki, T.setTab_self] at hk
      contradiction
    · rwa [T.setTab_of_ne none hki] at hk
  refine ⟨hI.nodup, hI.aligned, hI.dir_aligned, hI.dir_used,
    fun k t hk => hI.tab_used k t (hsub k t hk),
    fun k l t hk hl => hI.tab_inj k l t (hsub k t hk) (hsub l t hl), fun q g hq => ?_, hI.map_slot,
    fun k t hk => hI.tab_lt k t (hsub k t hk), hI.map_lt, hI.refs⟩
  obtain ⟨h₁, h₂, h₃, h₄⟩ := hI.map_used q g hq
  exact ⟨h₁, h₂, h₃, fun k hk => h₄ k (hsub k g hk)⟩

/-- An empty table leaves the directory. -/
theorem Shows.dropTab (h : Shows dir T mem) (hI : Inv dir T st) (hi : i < pteCount)
    (hnone : ∀ j, T.map (i, j) = Option.none) :
    Shows dir (T.setTab i Option.none) (setWord mem (dir + 4 * i) 0) := by
  refine ⟨fun i' hi' t' => ?_, fun i' t' ht' => ?_, fun i' t' ht' j' hj' g' => ?_,
    fun i' j' ht' => ?_⟩
  · by_cases hii : i' = i
    · subst hii
      rw [T.setTab_self, word_setWord mem (by decide)]
      simp [present]
    · rw [T.setTab_of_ne Option.none hii, word_setWord_of_ne hii]
      exact h.tab i' hi' t'
  · by_cases hii : i' = i
    · exact hii ▸ hi
    · rw [T.setTab_of_ne Option.none hii] at ht'
      exact h.tab_lt i' t' ht'
  · have hii : i' ≠ i := by
      rintro rfl
      rw [T.setTab_self] at ht'
      contradiction
    rw [T.setTab_of_ne Option.none hii] at ht'
    obtain ⟨hal, -, hdir⟩ := hI.tab_used i' t' ht'
    rw [(same_setWord hal hI.dir_aligned hdir hi).word hj']
    exact h.map i' t' ht' j' hj' g'
  · by_cases hii : i' = i
    · exact hii ▸ hnone j'
    · rw [T.setTab_of_ne Option.none hii] at ht'
      exact h.none i' j' ht'

/-! ## `unmapPage` -/

/-- What `unmapPage` comes to. -/
structure Unmapped (dir : Nat) (T : Tables) (v : Nat) (st : Phys) (T' : Tables)
    (st' : Phys) : Prop where
  inv : Inv dir T' st'
  shows : Shows dir T' st'.mem
  slot : T'.map (pdeIdx v, pteIdx v) = none
  other : ∀ q, q ≠ (pdeIdx v, pteIdx v) → T'.map q = T.map q
  tab : ∀ k, T'.tab k = T.tab k ∨ T'.tab k = none
  words : ∀ k < pteCount, word st'.mem (dir + 4 * k) = word st.mem (dir + 4 * k) ∨
    (word st'.mem (dir + 4 * k) = 0 ∧ k = pdeIdx v)
  free : ∀ b ∈ st.free, b ∈ st'.free
  freed : ∀ g, T.map (pdeIdx v, pteIdx v) = some g → g ≠ 0 → st.Counted g →
    st.refs (g / pageSize) = 1 → g ∈ st'.free
  within : ∀ U : Nat → Prop, U dir → (∀ t, T.tab (pdeIdx v) = some t → U t) →
    (∀ g, T.map (pdeIdx v, pteIdx v) = some g → U g) → Within U st st'

/-- What is mapped then was mapped before. -/
theorem Unmapped.map_sub {q : Nat × Nat} (h : Unmapped dir T v st T' st')
    (hq : T'.map q = some g) : T.map q = some g := by
  by_cases hqv : q = (pdeIdx v, pteIdx v)
  · rw [hqv, h.slot] at hq
    contradiction
  · rwa [h.other q hqv] at hq

/-- Dropping a reference takes nothing from the list. -/
theorem dropRef_free (st : Phys) (g : Nat) : ∀ b ∈ st.free, b ∈ (st.dropRef g).free := by
  intro b hb
  rcases dropRef_cases st g with ⟨-, h⟩ | ⟨-, -, h⟩ | ⟨-, h⟩ | ⟨-, -, h⟩
  · rwa [h]
  · rwa [h]
  · rwa [h]
  · rw [h]
    exact List.mem_cons_of_mem _ hb

/-- The last reference. -/
theorem dropRef_last (hg : g ≠ 0) (hc : st.Counted g) (hone : st.refs (g / pageSize) = 1) :
    g ∈ (st.dropRef g).free := by
  simp [Phys.dropRef, Phys.removeRef, Phys.freeFrameFast, Phys.setRef, hc, hone, hg]

/-- Freeing takes nothing from the list. -/
theorem freeFrame_free (st : Phys) (a : Nat) : ∀ b ∈ st.free, b ∈ (st.freeFrame a).free := by
  intro b hb
  unfold Phys.freeFrame
  split
  · exact hb
  · split
    · exact hb
    · dsimp only
      split
      · exact hb
      · exact List.mem_cons_of_mem _ hb

/-- `tryFreePageTable`: the table is empty and goes, or stays. -/
theorem tryFreePageTable_cases (st : Phys) (dir i : Nat) :
    ((∀ k < pteCount, st.entry (addr (st.entry dir i)) k = 0) ∧
      st.tryFreePageTable dir i =
        ((st.checkPhysAddr (addr (st.entry dir i))).setEntry dir i 0).freeFrame
          (addr (st.entry dir i))) ∨
      st.tryFreePageTable dir i = st.checkPhysAddr (addr (st.entry dir i)) := by
  unfold Phys.tryFreePageTable
  dsimp only
  split
  · next hall =>
      refine .inl ⟨fun k hk => ?_, rfl⟩
      have hzero := List.all_eq_true.mp hall k (List.mem_range.mpr hk)
      rw [Phys.entry, checkPhysAddr_mem] at hzero
      exact of_decide_eq_true hzero
  · exact .inr rfl

/-- Slot `(i, j)` is given up and emptied; its table `t` stays. -/
structure Emptied (dir : Nat) (T : Tables) (i j t : Nat) (st st' : Phys) : Prop where
  inv : Inv dir (T.setMap (i, j) none) st'
  shows : Shows dir (T.setMap (i, j) none) st'.mem
  words : ∀ k < pteCount, word st'.mem (dir + 4 * k) = word st.mem (dir + 4 * k)
  free : ∀ b ∈ st.free, b ∈ st'.free
  freed : ∀ g, T.map (i, j) = some g → g ≠ 0 → st.Counted g → st.refs (g / pageSize) = 1 →
    g ∈ st'.free
  within : ∀ U : Nat → Prop, U t → (∀ g, T.map (i, j) = some g → U g) → Within U st st'

/-- A slot is emptied. -/
theorem emptySlot_spec (hI : Inv dir T st) (hS : Shows dir T st.mem) (ht : T.tab i = some t)
    (hj : j < pteCount) :
    Emptied dir T i j t st
      (((st.checkPhysAddr t).dropEntry ((st.checkPhysAddr t).entry t j)).setEntry t j 0) := by
  obtain ⟨htal, -, htdir⟩ := hI.tab_used i t ht
  have hmem := checkPhysAddr_mem st t
  have hI₁ := hI.check t
  have hS₁ : Shows dir T (st.checkPhysAddr t).mem := hmem.symm ▸ hS
  have hentry : ∀ g, T.map (i, j) = some g ↔ present ((st.checkPhysAddr t).entry t j) = true ∧
      addr ((st.checkPhysAddr t).entry t j) = g := hS₁.map _ t ht _ hj
  obtain ⟨hI₂, hsame₂, -⟩ := dropEntry_spec hI₁ hentry
  have hdsame := hsame₂ dir hI.dir_aligned fun hm => (hI.map_used _ _ hm).2.2.1 rfl
  have hS₂ : Shows dir T ((st.checkPhysAddr t).dropEntry ((st.checkPhysAddr t).entry t j)).mem := by
    refine hS₁.frame hdsame fun k u hu => hsame₂ u (hI.tab_used k u hu).1 fun hm => ?_
    exact (hI.map_used _ _ hm).2.2.2 k hu
  refine ⟨hI₂.congr rfl rfl rfl, hS₂.unset hI₁ ht hj, fun k hk => ?_, fun b hb => ?_,
    fun g hg hz hc hone => ?_, fun U hUt hUg => ?_⟩
  · have hset : Same ((st.checkPhysAddr t).dropEntry ((st.checkPhysAddr t).entry t j)).mem
        (((st.checkPhysAddr t).dropEntry ((st.checkPhysAddr t).entry t j)).setEntry t j 0).mem
          dir :=
      same_setWord hI.dir_aligned htal htdir.symm hj
    exact (hset.word hk).trans ((hdsame.word hk).trans (congrArg (word · (dir + 4 * k)) hmem))
  · show b ∈ ((st.checkPhysAddr t).dropEntry ((st.checkPhysAddr t).entry t j)).free
    unfold Phys.dropEntry
    split
    · exact dropRef_free _ _ b (by rw [checkPhysAddr_free, checkPhysAddr_free]; exact hb)
    · rw [checkPhysAddr_free]
      exact hb
  · show g ∈ ((st.checkPhysAddr t).dropEntry ((st.checkPhysAddr t).entry t j)).free
    obtain ⟨hp, ha⟩ := (hentry g).mp hg
    have hcheck := (touched_check st t (g + pageSize)).trans
      (touched_check (st.checkPhysAddr t) g (g + pageSize))
    have hne : g / pageSize ≠ (g + pageSize) / pageSize := by
      unfold pageSize
      omega
    rw [Phys.dropEntry, if_pos hp, ha]
    refine dropRef_last hz ?_ ((hcheck.refs g hne).trans hone)
    unfold Phys.Counted at hc ⊢
    rwa [hcheck.max]
  · have hdrop : Within U (st.checkPhysAddr t)
        ((st.checkPhysAddr t).dropEntry ((st.checkPhysAddr t).entry t j)) :=
      within_dropEntry fun hp => hUg _ ((hentry _).mpr ⟨hp, rfl⟩)
    exact ((within_check U st t).trans hdrop).trans (within_setEntry htal hj hUt)

/-- Table `t` of entry `i` is given up if it is empty, and the entry with it. -/
structure TableTried (dir : Nat) (T : Tables) (i t : Nat) (st : Phys) (T' : Tables)
    (st' : Phys) : Prop where
  inv : Inv dir T' st'
  shows : Shows dir T' st'.mem
  map : T'.map = T.map
  tab : ∀ k, T'.tab k = T.tab k ∨ T'.tab k = none
  words : ∀ k < pteCount, word st'.mem (dir + 4 * k) = word st.mem (dir + 4 * k) ∨
    (word st'.mem (dir + 4 * k) = 0 ∧ k = i)
  free : ∀ b ∈ st.free, b ∈ st'.free
  within : ∀ U : Nat → Prop, U dir → U t → Within U st st'

/-- A table goes when it is empty, and only then. -/
theorem tryFreePageTable_spec (hI : Inv dir T st) (hS : Shows dir T st.mem) (hi : i < pteCount)
    (ht : T.tab i = some t) :
    ∃ T', TableTried dir T i t st T' (st.tryFreePageTable dir i) := by
  obtain ⟨htal, htfree, htdir⟩ := hI.tab_used i t ht
  have hdir : addr (st.entry dir i) = t := ((hS.tab i hi t).mp ht).2.2
  have hmem := checkPhysAddr_mem st t
  rcases tryFreePageTable_cases st dir i with ⟨hzero, heq⟩ | heq
  · rw [hdir] at hzero heq
    rw [heq]
    have hnone : ∀ j, T.map (i, j) = none := by
      intro j
      cases hm : T.map (i, j) with
      | none => rfl
      | some g =>
          have hjlt := (mem_slots.mp (hI.map_slot _ g hm)).2
          have hp := ((hS.map i t ht j hjlt g).mp hm).1
          have hz : word st.mem (t + 4 * j) = 0 := hzero j hjlt
          rw [hz] at hp
          simp [present] at hp
    have hI₁ : Inv dir (T.setTab i none) ((st.checkPhysAddr t).setEntry dir i 0) :=
      ((hI.check t).dropTab i).congr rfl rfl rfl
    have hS₁ : Shows dir (T.setTab i none) ((st.checkPhysAddr t).setEntry dir i 0).mem := by
      have hset := hS.dropTab hI hi hnone
      rwa [← hmem] at hset
    have htab : ∀ k, (T.setTab i none).tab k ≠ some t := by
      intro k hk
      by_cases hki : k = i
      · rw [hki, Tables.setTab_self] at hk
        simp at hk
      · rw [Tables.setTab_of_ne _ _ hki] at hk
        exact hki (hI.tab_inj k _ t hk ht)
    have hmap : ∀ q, (T.setTab i none).map q ≠ some t := fun q hq => (hI.map_used q t hq).2.2.2 _ ht
    have hnot : t ∉ ((st.checkPhysAddr t).setEntry dir i 0).free := by
      show t ∉ (st.checkPhysAddr t).free
      rwa [checkPhysAddr_free]
    obtain ⟨hI₂, hsame⟩ := hI₁.freeFrame htal (hI.tab_lt _ t ht) hnot htdir htab hmap
    have hoff : ∀ b, b % pageSize = 0 → b ≠ t → Same ((st.checkPhysAddr t).setEntry dir i 0).mem
        (((st.checkPhysAddr t).setEntry dir i 0).freeFrame t).mem b :=
      fun b hb hbt => same_of_outside hb htal hbt hsame
    have hdsame := hoff dir hI.dir_aligned htdir.symm
    refine ⟨_, hI₂, ?_, rfl, fun k => ?_, fun k hk => ?_, fun b hb => ?_, fun U hUd hUt => ?_⟩
    · exact hS₁.frame hdsame fun k u hu => hoff u (hI₁.tab_used k u hu).1 fun hut =>
        htab k (hut ▸ hu)
    · by_cases hki : k = i
      · rw [hki]
        exact .inr (Tables.setTab_self _ _ _)
      · exact .inl (Tables.setTab_of_ne _ _ hki)
    · rw [hdsame.word hk]
      by_cases hki : k = i
      · subst hki
        exact .inr ⟨word_setWord _ (by decide), rfl⟩
      · refine .inl ?_
        rw [← hmem]
        exact word_setWord_of_ne hki
    · refine freeFrame_free _ _ b ?_
      show b ∈ (st.checkPhysAddr t).free
      rwa [checkPhysAddr_free]
    · exact ((within_check U st t).trans (within_setEntry hI.dir_aligned hi hUd)).trans
        (within_freeFrame htal hUt)
  · rw [hdir] at heq
    rw [heq]
    refine ⟨T, hI.check t, hmem.symm ▸ hS, rfl, fun _ => .inl rfl, fun k _ => .inl ?_,
      fun b hb => ?_, fun U _ _ => within_check U st t⟩
    · exact congrArg (word · (dir + 4 * k)) hmem
    · rw [checkPhysAddr_free]
      exact hb

/-- **`unmapPage`** on a user table or none. -/
theorem unmapPage_tables (hI : Inv dir T st) (hS : Shows dir T st.mem) (hv : pdeIdx v < pteCount)
    (hR : present (st.entry dir (pdeIdx v)) = true → T.tab (pdeIdx v) ≠ none) :
    ∃ T', Unmapped dir T v st T' (st.unmapPage dir v) := by
  unfold Phys.unmapPage
  split
  · next hpres =>
      obtain ⟨t, ht⟩ := Option.ne_none_iff_exists'.mp (hR hpres)
      have hdir : addr (st.entry dir (pdeIdx v)) = t := ((hS.tab _ hv t).mp ht).2.2
      rw [hdir]
      dsimp only
      have hE := emptySlot_spec hI hS ht (pteIdx_lt v)
      obtain ⟨T', hT⟩ := tryFreePageTable_spec hE.inv hE.shows hv ht
      refine ⟨T', hT.inv, hT.shows, ?_, fun q hq => ?_, hT.tab, fun k hk => ?_,
        fun b hb => hT.free b (hE.free b hb),
        fun g hg hz hc hone => hT.free g (hE.freed g hg hz hc hone),
        fun U hUd hUt hUg => (hE.within U (hUt t ht) hUg).trans (hT.within U hUd (hUt t ht))⟩
      · rw [hT.map]
        exact T.setMap_self _ _
      · rw [hT.map]
        exact T.setMap_of_ne none hq
      · rw [← hE.words k hk]
        exact hT.words k hk
  · next hpres =>
      have hnone : T.tab (pdeIdx v) = none := by
        cases ht : T.tab (pdeIdx v) with
        | none => rfl
        | some t => exact absurd ((hS.tab _ hv t).mp ht).1 hpres
      have hslot := hS.none _ (pteIdx v) hnone
      refine ⟨T, hI, hS, hslot, fun _ _ => rfl, fun _ => .inl rfl, fun _ _ => .inl rfl,
        fun _ hb => hb,
        fun g hg => ?_, fun U _ _ _ => Within.refl U st⟩
      rw [hslot] at hg
      contradiction

/-! ## any directory -/

/-- No word becomes a present entry. -/
def Fades (mem mem' : Nat → BitVec 8) : Prop :=
  ∀ x, x % 4 = 0 → present (word mem' x) = true → word mem' x = word mem x

/-- The free list holds frames. -/
def Pool (st : Phys) : Prop := ∀ a ∈ st.free, a % pageSize = 0 ∧ a < 2 ^ 32

theorem Fades.refl (mem : Nat → BitVec 8) : Fades mem mem := fun _ _ _ => rfl

theorem Fades.trans {mem'' : Nat → BitVec 8} (h₁ : Fades mem mem') (h₂ : Fades mem' mem'') :
    Fades mem mem'' := by
  intro x hx hp
  have hword := h₂ x hx hp
  rw [hword]
  exact h₁ x hx (hword ▸ hp)

/-- A word that is not a present entry brings no page. -/
theorem fades_setWord {e : Nat} (ha : a % 4 = 0) (he : e < 2 ^ 32) (hpres : ¬ present e = true) :
    Fades mem (setWord mem a e) := by
  intro x hx hp
  by_cases hxa : x = a
  · rw [hxa, word_setWord mem he] at hp
    exact absurd hp hpres
  · exact word_congr fun y hy hy' => setWord_of_ne mem (by omega)

/-- The link in a free frame is not a present entry. -/
theorem headD_link (h : Pool st) : st.free.headD 0 < 2 ^ 32 ∧
    ¬ present (st.free.headD 0) = true := by
  cases hfree : st.free with
  | nil => simp [present]
  | cons b rest =>
      obtain ⟨hal, hlt⟩ := h b (by simp [hfree])
      refine ⟨hlt, fun hp => ?_⟩
      rw [List.headD_cons, present_iff] at hp
      unfold pageSize at hal
      omega

/-- A frame begins at a word. -/
theorem page_mod_four (h : a % pageSize = 0) : a % 4 = 0 := by
  unfold pageSize at h
  omega

/-- An entry is a word of its table. -/
theorem mod_four (h : a % pageSize = 0) (j : Nat) : (a + 4 * j) % 4 = 0 := by
  have := page_mod_four h
  omega

/-- The address in an entry is a word. -/
theorem addr_lt {e : Nat} (he : e < 2 ^ 32) : addr e < 2 ^ 32 :=
  Nat.lt_of_le_of_lt (Nat.div_mul_le_self e pageSize) he

/-- One more free frame. -/
theorem Pool.cons (h : Pool st) (ha : a % pageSize = 0) (hlt : a < 2 ^ 32)
    (hfree : st'.free = a :: st.free) : Pool st' := by
  intro b hb
  rw [hfree] at hb
  rcases List.mem_cons.mp hb with rfl | hb
  · exact ⟨ha, hlt⟩
  · exact h b hb

/-- Freeing a frame writes a link at most. -/
theorem freeFrame_fades (hP : Pool st) (ha : a % pageSize = 0) (hlt : a < 2 ^ 32) :
    Fades st.mem (st.freeFrame a).mem ∧ Pool (st.freeFrame a) := by
  unfold Phys.freeFrame
  split
  · exact ⟨Fades.refl _, hP⟩
  · split
    · exact ⟨Fades.refl _, hP⟩
    · dsimp only
      split
      · exact ⟨Fades.refl _, hP⟩
      · obtain ⟨hl, hp⟩ := headD_link hP
        exact ⟨fades_setWord (page_mod_four ha) hl hp, hP.cons ha hlt rfl⟩

/-- Dropping an entry brings no page. -/
theorem dropEntry_fades {e : Nat} (hP : Pool st) (he : e < 2 ^ 32) :
    Fades st.mem (st.dropEntry e).mem ∧ Pool (st.dropEntry e) := by
  unfold Phys.dropEntry
  split
  · have hP₁ : Pool (st.checkPhysAddr (addr e)) :=
      fun a ha => hP a (by rwa [checkPhysAddr_free] at ha)
    rw [← checkPhysAddr_mem st (addr e)]
    rcases dropRef_cases (st.checkPhysAddr (addr e)) (addr e) with ⟨-, h⟩ | ⟨-, -, h⟩ |
      ⟨-, h⟩ | ⟨-, -, h⟩
    · rw [h]
      exact ⟨Fades.refl _, hP₁⟩
    · rw [h]
      exact ⟨Fades.refl _, hP₁⟩
    · rw [h]
      exact ⟨Fades.refl _, hP₁⟩
    · rw [h]
      obtain ⟨hl, hp⟩ := headD_link hP₁
      exact ⟨fades_setWord (page_mod_four (addr_mod e)) hl hp,
        hP₁.cons (addr_mod e) (addr_lt he) rfl⟩
  · exact ⟨Fades.refl _, hP⟩

/-- Taking out a table brings no page; where it takes one, its entry is not present afterwards. -/
theorem tryFreePageTable_fades (hP : Pool st) (hdir : dir % pageSize = 0) (i : Nat) :
    Fades st.mem (st.tryFreePageTable dir i).mem ∧ Pool (st.tryFreePageTable dir i) ∧
      ((st.tryFreePageTable dir i).free = st.free ∨
        ¬ present ((st.tryFreePageTable dir i).entry dir i) = true) := by
  obtain ⟨-, heq⟩ | heq := tryFreePageTable_cases st dir i
  · rw [heq]
    have hu := addr_mod (st.entry dir i)
    have hult : addr (st.entry dir i) < 2 ^ 32 := addr_lt (word_lt _ _)
    generalize addr (st.entry dir i) = u at hu hult
    have hf : Fades (st.checkPhysAddr u).mem ((st.checkPhysAddr u).setEntry dir i 0).mem :=
      fades_setWord (mod_four hdir _) (by decide) (by decide)
    rw [checkPhysAddr_mem] at hf
    have hP₁ : Pool ((st.checkPhysAddr u).setEntry dir i 0) := fun a ha => by
      have ha : a ∈ (st.checkPhysAddr u).free := ha
      rw [checkPhysAddr_free] at ha
      exact hP a ha
    obtain ⟨hf', hP'⟩ := freeFrame_fades hP₁ hu hult
    refine ⟨hf.trans hf', hP', .inr fun hp => ?_⟩
    have hword := hf' _ (mod_four hdir _) hp
    have hzero : word ((st.checkPhysAddr u).setEntry dir i 0).mem (dir + 4 * i) = 0 :=
      word_setWord _ (by decide)
    have hp' : present (word (((st.checkPhysAddr u).setEntry dir i 0).freeFrame u).mem
        (dir + 4 * i)) = true := hp
    rw [hword, hzero] at hp'
    simp [present] at hp'
  · have hfree := checkPhysAddr_free st (addr (st.entry dir i))
    rw [heq, checkPhysAddr_mem]
    exact ⟨Fades.refl _, fun a ha => hP a (by rwa [hfree] at ha), .inl hfree⟩

/-- **`unmapPage` writes no present entry.**  Where there is a table the entry of the
page is not present afterwards; and the free list is as before, if the entry was not
present and the table stays. -/
theorem unmapPage_fades (hP : Pool st) (hdir : dir % pageSize = 0) :
    Fades st.mem (st.unmapPage dir v).mem ∧ Pool (st.unmapPage dir v) ∧
      (present (st.entry dir (pdeIdx v)) = true →
        ¬ present ((st.unmapPage dir v).entry (addr (st.entry dir (pdeIdx v))) (pteIdx v)) = true ∧
          (¬ present (st.entry (addr (st.entry dir (pdeIdx v))) (pteIdx v)) = true →
            (st.unmapPage dir v).free = st.free ∨
              ¬ present ((st.unmapPage dir v).entry dir (pdeIdx v)) = true)) := by
  unfold Phys.unmapPage
  split
  · next hpres =>
      dsimp only
      have ht := addr_mod (st.entry dir (pdeIdx v))
      have htlt := addr_lt (word_lt st.mem (dir + 4 * pdeIdx v))
      have hzero : ¬ present 0 = true := by decide
      generalize hte : addr (st.entry dir (pdeIdx v)) = t at ht
      have hte' : addr (word st.mem (dir + 4 * pdeIdx v)) = t := hte
      rw [hte'] at htlt
      have hmem₁ := checkPhysAddr_mem st t
      have hP₁ : Pool (st.checkPhysAddr t) := fun a ha => hP a (by rwa [checkPhysAddr_free] at ha)
      obtain ⟨hf₂, hP₂⟩ := dropEntry_fades (e := (st.checkPhysAddr t).entry t (pteIdx v)) hP₁
        (word_lt _ _)
      rw [hmem₁] at hf₂
      have hfree₂ : ¬ present (st.entry t (pteIdx v)) = true →
          ((st.checkPhysAddr t).dropEntry ((st.checkPhysAddr t).entry t (pteIdx v))).free =
            st.free := by
        intro hn
        have hentry : (st.checkPhysAddr t).entry t (pteIdx v) = st.entry t (pteIdx v) := by
          rw [Phys.entry, hmem₁, Phys.entry]
        rw [Phys.dropEntry, hentry, if_neg hn, checkPhysAddr_free]
      generalize (st.checkPhysAddr t).dropEntry ((st.checkPhysAddr t).entry t (pteIdx v)) =
        st₂ at hf₂ hP₂ hfree₂ ⊢
      have hf₃ : Fades st₂.mem (st₂.setEntry t (pteIdx v) 0).mem :=
        fades_setWord (mod_four ht _) (by decide) hzero
      have hgone : ¬ present (word (st₂.setEntry t (pteIdx v) 0).mem (t + 4 * pteIdx v)) =
          true := by
        rw [show word (st₂.setEntry t (pteIdx v) 0).mem (t + 4 * pteIdx v) = 0
          from word_setWord _ (by decide)]
        exact hzero
      have hP₃ : Pool (st₂.setEntry t (pteIdx v) 0) := hP₂
      have hfree₃ : (st₂.setEntry t (pteIdx v) 0).free = st₂.free := rfl
      generalize st₂.setEntry t (pteIdx v) 0 = st₃ at hf₃ hgone hP₃ hfree₃ ⊢
      have hf₁₃ := hf₂.trans hf₃
      obtain ⟨hf₄, hP₄, hend⟩ := tryFreePageTable_fades hP₃ hdir (pdeIdx v)
      refine ⟨hf₁₃.trans hf₄, hP₄, fun _ => ⟨fun hp => ?_, fun hn => hend.imp_left fun hfree => ?_⟩⟩
      · have hword := hf₄ _ (mod_four ht _) hp
        exact hgone (hword ▸ hp)
      · rw [hfree, hfree₃, hfree₂ hn]
  · next hpres => exact ⟨Fades.refl _, hP, fun hp => absurd hp hpres⟩

/-! ## many pages -/

/-- What is left of the user tables `T` that were in `st₀`: entries and slots as they
were, or empty. -/
structure Fading (dir : Nat) (T : Tables) (U : Nat → Prop) (st₀ st : Phys) : Prop where
  entries : ∀ k < pteCount, word st.mem (dir + 4 * k) = word st₀.mem (dir + 4 * k) ∨
    (word st.mem (dir + 4 * k) = 0 ∧ T.tab k ≠ none)
  slots : ∀ k t, T.tab k = some t → word st.mem (dir + 4 * k) ≠ 0 → ∀ j < pteCount,
    word st.mem (t + 4 * j) = word st₀.mem (t + 4 * j) ∨ word st.mem (t + 4 * j) = 0
  within : Within U st₀ st

theorem Fading.refl (dir : Nat) (T : Tables) (U : Nat → Prop) (st : Phys) : Fading dir T U st st :=
  ⟨fun _ _ => .inl rfl, fun _ _ _ _ _ _ => .inl rfl, Within.refl U st⟩

/-- A step that leaves the directory and its tables alone. -/
theorem Fading.same {st₀ : Phys} (h : Fading dir T U st₀ st) (hw : Within U st st')
    (hdir : Same st.mem st'.mem dir)
    (htab : ∀ k t, T.tab k = some t → Same st.mem st'.mem t)
    (hlt : ∀ k t, T.tab k = some t → k < pteCount) :
    Fading dir T U st₀ st' where
  entries k hk := by
    rw [hdir.word hk]
    exact h.entries k hk
  slots k t ht hne j hj := by
    rw [(htab k t ht).word hj]
    exact h.slots k t ht (by rwa [hdir.word (hlt k t ht)] at hne) j hj
  within := h.within.trans hw

/-- An entry of the directory is emptied and its table freed. -/
theorem Fading.dropTab {st₀ sto : Phys} (hI : Inv dir T sto) (hS : Shows dir T st₀.mem)
    (h : Fading dir T U st₀ st)
    (ht : T.tab i = some t) (hUd : U dir) (hUt : U t) :
    Fading dir T U st₀ ((st.setEntry dir i 0).freeFrame t) := by
  obtain ⟨htal, -, htdir⟩ := hI.tab_used i t ht
  have hi := hS.tab_lt i t ht
  have hfree := touched_freeFrame (st.setEntry dir i 0) t
  have hdir : Same (st.setEntry dir i 0).mem ((st.setEntry dir i 0).freeFrame t).mem dir :=
    hfree.same hI.dir_aligned htal htdir.symm
  have hword : ∀ k, k ≠ i → word (st.setEntry dir i 0).mem (dir + 4 * k) =
      word st.mem (dir + 4 * k) :=
    fun k hk => word_setWord_of_ne hk
  have hzero : word (st.setEntry dir i 0).mem (dir + 4 * i) = 0 := word_setWord _ (by decide)
  refine ⟨fun k hk => ?_, fun k u hu hne j hj => ?_,
    h.within.trans ((within_setEntry hI.dir_aligned hi hUd).trans (within_freeFrame htal hUt))⟩
  · rw [hdir.word hk]
    by_cases hki : k = i
    · subst hki
      exact .inr ⟨hzero, by simp [ht]⟩
    · rw [hword k hki]
      exact h.entries k hk
  · have hk := hS.tab_lt k u hu
    rw [hdir.word hk] at hne
    have hki : k ≠ i := by
      rintro rfl
      exact hne hzero
    rw [hword k hki] at hne
    obtain ⟨hual, -, hudir⟩ := hI.tab_used k u hu
    have hut : u ≠ t := fun hut => hki (hI.tab_inj k i t (hut ▸ hu) ht)
    have hsame : Same st.mem ((st.setEntry dir i 0).freeFrame t).mem u :=
      (same_setWord hual hI.dir_aligned hudir hi).trans (hfree.same hual htal hut)
    rw [hsame.word hj]
    exact h.slots k u hu hne j hj

/-- An entry of a table is emptied. -/
theorem Fading.clearEntry {st₀ sto : Phys} (hI : Inv dir T sto) (hS : Shows dir T st₀.mem)
    (h : Fading dir T U st₀ st)
    (ht : T.tab i = some t) (hj : j < pteCount) (hUt : U t) :
    Fading dir T U st₀ (st.setEntry t j 0) := by
  obtain ⟨htal, -, htdir⟩ := hI.tab_used i t ht
  have hset : Same st.mem (st.setEntry t j 0).mem dir :=
    same_setWord hI.dir_aligned htal htdir.symm hj
  refine ⟨fun k hk => ?_, fun k u hu hne j' hj' => ?_,
    h.within.trans (within_setEntry htal hj hUt)⟩
  · rw [hset.word hk]
    exact h.entries k hk
  · rw [hset.word (hS.tab_lt k u hu)] at hne
    by_cases hut : u = t
    · subst hut
      by_cases hjj : j' = j
      · subst hjj
        exact .inr (word_setWord _ (by decide))
      · have hkeep : word (st.setEntry u j 0).mem (u + 4 * j') = word st.mem (u + 4 * j') :=
          word_setWord_of_ne hjj
        rw [hkeep]
        exact h.slots k u hu hne j' hj'
    · have hkeep : Same st.mem (st.setEntry t j 0).mem u :=
        same_setWord (hI.tab_used k u hu).1 htal hut hj
      rw [hkeep.word hj']
      exact h.slots k u hu hne j' hj'

/-- **One page more**, of a user table or of none: only what is in the directory is
touched. -/
theorem Fading.unmapPage {st₀ sto : Phys} (hI : Inv dir T sto) (hS : Shows dir T st₀.mem)
    (h : Fading dir T U st₀ st)
    (hUd : U dir) (hUt : ∀ k t, T.tab k = some t → U t) (hUg : ∀ q g, T.map q = some g → U g)
    (hv : pdeIdx v < pteCount)
    (hR : present (word st₀.mem (dir + 4 * pdeIdx v)) = true → T.tab (pdeIdx v) ≠ none) :
    Fading dir T U st₀ (st.unmapPage dir v) := by
  unfold Phys.unmapPage
  split
  · next hpres =>
      have hword : word st.mem (dir + 4 * pdeIdx v) = word st₀.mem (dir + 4 * pdeIdx v) := by
        rcases h.entries _ hv with heq | ⟨hz, -⟩
        · exact heq
        · have hpres' : present (word st.mem (dir + 4 * pdeIdx v)) = true := hpres
          rw [hz] at hpres'
          simp [present] at hpres'
      have hpres₀ : present (word st₀.mem (dir + 4 * pdeIdx v)) = true := hword ▸ hpres
      obtain ⟨t, ht⟩ := Option.ne_none_iff_exists'.mp (hR hpres₀)
      have hta : addr (st.entry dir (pdeIdx v)) = t := by
        rw [Phys.entry, hword]
        exact ((hS.tab _ hv t).mp ht).2.2
      rw [hta]
      dsimp only
      obtain ⟨htal, -, htdir⟩ := hI.tab_used _ t ht
      have hj := pteIdx_lt v
      have hne : word st.mem (dir + 4 * pdeIdx v) ≠ 0 := by
        intro hz
        rw [← hword, hz] at hpres₀
        simp [present] at hpres₀
      -- the frame of a present entry is one that the tables had
      have hmap : present ((st.checkPhysAddr t).entry t (pteIdx v)) = true →
          T.map (pdeIdx v, pteIdx v) = some (addr ((st.checkPhysAddr t).entry t (pteIdx v))) := by
        intro hp
        have hp' : present (word (st.checkPhysAddr t).mem (t + 4 * pteIdx v)) = true := hp
        have hentry : (st.checkPhysAddr t).entry t (pteIdx v) = word st.mem (t + 4 * pteIdx v) := by
          rw [Phys.entry, checkPhysAddr_mem]
        rw [checkPhysAddr_mem] at hp'
        rw [hentry]
        rcases h.slots _ t ht hne _ hj with heq | hz
        · exact (hS.map _ t ht _ hj _).mpr ⟨heq ▸ hp', by rw [heq]⟩
        · rw [hz] at hp'
          simp [present] at hp'
      have hlt := hS.tab_lt
      have hdrop : ∀ V : Nat → Prop, (∀ g, T.map (pdeIdx v, pteIdx v) = some g → V g) →
          Within V st ((st.checkPhysAddr t).dropEntry ((st.checkPhysAddr t).entry t (pteIdx v))) :=
        fun V hV => (within_check V st t).trans (within_dropEntry fun hp => hV _ (hmap hp))
      have hdsame := (hdrop (· ≠ dir) fun g hg => (hI.map_used _ g hg).2.2.1).same dir
        hI.dir_aligned (not_not.mpr rfl)
      have h₂ := h.same (hdrop U (hUg _)) hdsame
        (fun k u hu => (hdrop (· ≠ u) fun g hg hgu => (hI.map_used _ g hg).2.2.2 k (hgu ▸ hu)).same
          u
          (hI.tab_used k u hu).1 (not_not.mpr rfl)) hlt
      generalize (st.checkPhysAddr t).dropEntry ((st.checkPhysAddr t).entry t (pteIdx v)) =
        st₂ at hdsame h₂ ⊢
      have h₃ := h₂.clearEntry hI hS ht hj (hUt _ t ht)
      have hset : Same st₂.mem (st₂.setEntry t (pteIdx v) 0).mem dir :=
        same_setWord hI.dir_aligned htal htdir.symm hj
      have hta₃ : addr ((st₂.setEntry t (pteIdx v) 0).entry dir (pdeIdx v)) = t := by
        rw [Phys.entry, hset.word hv, hdsame.word hv]
        exact hta
      generalize st₂.setEntry t (pteIdx v) 0 = st₃ at h₃ hta₃ ⊢
      have hcheck : ∀ b, Fading dir T U st₀ (st₃.checkPhysAddr b) := by
        intro b
        have hmem := checkPhysAddr_mem st₃ b
        exact h₃.same (within_check U st₃ b) (by rw [hmem]; exact Same.refl _ _)
          (fun _ _ _ => by rw [hmem]; exact Same.refl _ _) hlt
      rcases tryFreePageTable_cases st₃ dir (pdeIdx v) with ⟨-, heq⟩ | heq
      · rw [heq, hta₃]
        exact (hcheck t).dropTab hI hS ht hUd (hUt _ t ht)
      · rw [heq]
        exact hcheck _
  · exact h

end Doors.Memory
