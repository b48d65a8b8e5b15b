import Mathlib.Data.Finset.Prod
import Mathlib.Data.Finset.Card
import Doors.Memory.Paging

/-!
# Doors.Memory.Directory

A page directory as a whole: its user page tables and the frames they map.

* `Tables` — the user tables of a directory, and the frame of each slot;
* `Shows` — the tables are what is in memory;
* `Inv` — tables and mapped frames are not free, are not each other, and every
  mapped frame is counted at least as often as it is mapped.

A frame that loses its last reference can then be freed without harm
(`Inv.drop`).
-/

namespace Doors.Memory

/-- The user tables of a directory and the frames that their entries map. -/
structure Tables where
  tab : Nat → Option Nat
  map : Nat × Nat → Option Nat

/-- The slots of a directory: an entry, and one of its table. -/
@[irreducible] def slots : Finset (Nat × Nat) := Finset.range pteCount ×ˢ Finset.range pteCount

/-- The slots of a directory. -/
theorem mem_slots {i j : Nat} : (i, j) ∈ slots ↔ i < pteCount ∧ j < pteCount := by
  unfold slots
  rw [Finset.mem_product, Finset.mem_range, Finset.mem_range]

/-- How often frame `g` is mapped. -/
def Tables.uses (T : Tables) (g : Nat) : Nat := (slots.filter fun p => T.map p = some g).card

def Tables.setTab (T : Tables) (i : Nat) (t : Option Nat) : Tables :=
  { T with tab := Function.update T.tab i t }

def Tables.setMap (T : Tables) (p : Nat × Nat) (g : Option Nat) : Tables :=
  { T with map := Function.update T.map p g }

@[simp] theorem Tables.setMap_tab (T : Tables) (p : Nat × Nat) (g : Option Nat) :
    (T.setMap p g).tab = T.tab := rfl

@[simp] theorem Tables.setMap_self (T : Tables) (p : Nat × Nat) (g : Option Nat) :
    (T.setMap p g).map p = g :=
  Function.update_self ..

/-- The other slots stay. -/
theorem Tables.setMap_of_ne {p q : Nat × Nat} (T : Tables) (g : Option Nat) (h : q ≠ p) :
    (T.setMap p g).map q = T.map q := Function.update_of_ne h ..

/-- **The invariant of a directory** against the allocator. -/
structure Inv (dir : Nat) (T : Tables) (st : Phys) : Prop where
  nodup : st.free.Nodup
  aligned : ∀ a ∈ st.free, a % pageSize = 0 ∧ a < 2 ^ 32
  dir_aligned : dir % pageSize = 0
  dir_used : dir ∉ st.free
  tab_used : ∀ i t, T.tab i = some t → t % pageSize = 0 ∧ t ∉ st.free ∧ t ≠ dir
  tab_inj : ∀ i j t, T.tab i = some t → T.tab j = some t → i = j
  map_used : ∀ p g, T.map p = some g → g % pageSize = 0 ∧ g ∉ st.free ∧ g ≠ dir ∧ ∀ i,
    T.tab i ≠ some g
  map_slot : ∀ p g, T.map p = some g → p ∈ slots
  tab_lt : ∀ i t, T.tab i = some t → t < 2 ^ 32
  map_lt : ∀ p g, T.map p = some g → g < 2 ^ 32
  refs : ∀ g, g % pageSize = 0 → st.Counted g → T.uses g ≤ st.refs (g / pageSize)

/-- The tables are those in memory. -/
structure Shows (dir : Nat) (T : Tables) (mem : Nat → BitVec 8) : Prop where
  tab : ∀ i < pteCount, ∀ t, T.tab i = some t ↔
    present (word mem (dir + 4 * i)) = true ∧ user (word mem (dir + 4 * i)) = true ∧
      addr (word mem (dir + 4 * i)) = t
  tab_lt : ∀ i t, T.tab i = some t → i < pteCount
  map : ∀ i t, T.tab i = some t → ∀ j < pteCount, ∀ g, T.map (i, j) = some g ↔
    present (word mem (t + 4 * j)) = true ∧ addr (word mem (t + 4 * j)) = g
  none : ∀ i j, T.tab i = none → T.map (i, j) = none

variable {dir g a i j t : Nat} {p : Nat × Nat} {T : Tables} {st st' : Phys}
  {mem mem' : Nat → BitVec 8}

/-- The bytes of a frame are the same. -/
def Same (mem mem' : Nat → BitVec 8) (a : Nat) : Prop :=
  ∀ x, a ≤ x → x < a + pageSize → mem' x = mem x

/-- An entry of a page that did not change. -/
theorem Same.word (h : Same mem mem' a) (hj : j < pteCount) :
    word mem' (a + 4 * j) = word mem (a + 4 * j) := by
  refine word_congr fun x hx hx' => h x ?_ ?_
  · omega
  · unfold pteCount at hj
    unfold pageSize
    omega

/-- Only the frames of the tables matter. -/
theorem Shows.frame (h : Shows dir T mem) (hdir : Same mem mem' dir)
    (htab : ∀ i t, T.tab i = some t → Same mem mem' t) :
    Shows dir T mem' where
  tab i hi t := by
    rw [hdir.word hi]
    exact h.tab i hi t
  tab_lt := h.tab_lt
  map i t ht j hj g := by
    rw [(htab i t ht).word hj]
    exact h.map i t ht j hj g
  none := h.none

/-- Two frames do not overlap. -/
theorem same_of_outside {b : Nat} (ha : a % pageSize = 0) (hb : b % pageSize = 0) (hab : a ≠ b)
    (h : ∀ x, x < b ∨ b + pageSize ≤ x → mem' x = mem x) : Same mem mem' a := by
  intro x hx hx'
  refine h x ?_
  unfold pageSize at *
  omega

/-! ## counting -/

/-- One use fewer. -/
theorem uses_none (hp : T.map p = some g) (hs : p ∈ slots) :
    (T.setMap p none).uses g + 1 = T.uses g := by
  have hmem : p ∈ slots.filter fun q => T.map q = some g := Finset.mem_filter.mpr ⟨hs, hp⟩
  have herase : (slots.filter fun q => (T.setMap p none).map q = some g) =
      (slots.filter fun q => T.map q = some g).erase p := by
    ext q
    rw [Finset.mem_filter, Finset.mem_erase, Finset.mem_filter]
    by_cases hq : q = p
    · simp [hq]
    · rw [T.setMap_of_ne none hq]
      exact ⟨fun h => ⟨hq, h⟩, fun h => h.2⟩
  unfold Tables.uses
  rw [herase, Finset.card_erase_add_one hmem]

/-- The uses of other frames stay when a slot is emptied. -/
theorem uses_none_of_ne {g' : Nat} (hp : T.map p = some g) (hne : g' ≠ g) :
    (T.setMap p none).uses g' = T.uses g' := by
  have hsame : (slots.filter fun q => (T.setMap p none).map q = some g') = slots.filter fun q =>
      T.map q = some g' := by
    ext q
    rw [Finset.mem_filter, Finset.mem_filter]
    by_cases hq : q = p
    · subst hq
      simp [hp, hne.symm]
    · rw [T.setMap_of_ne none hq]
  unfold Tables.uses
  rw [hsame]

/-- One use more. -/
theorem uses_some (hp : T.map p = none) (hs : p ∈ slots) :
    (T.setMap p (some g)).uses g = T.uses g + 1 := by
  have hT : T = (T.setMap p (some g)).setMap p none := by
    simp [Tables.setMap, ← hp]
  have := uses_none (T := T.setMap p (some g)) (p := p) (g := g) (by simp [Tables.setMap]) hs
  rw [← hT] at this
  exact this.symm

/-- The uses of other frames stay when a slot is filled. -/
theorem uses_some_of_ne {g' : Nat} (hp : T.map p = none) (hne : g' ≠ g) :
    (T.setMap p (some g)).uses g' = T.uses g' := by
  have hT : T = (T.setMap p (some g)).setMap p none := by
    simp [Tables.setMap, ← hp]
  have := uses_none_of_ne (T := T.setMap p (some g)) (p := p) (g := g) (by simp [Tables.setMap]) hne
  rw [← hT] at this
  exact this.symm

/-- A mapped frame is used. -/
theorem uses_pos (hp : T.map p = some g) (hs : p ∈ slots) : 0 < T.uses g :=
  Finset.card_pos.mpr ⟨p, by simp [hs, hp]⟩

/-- A frame in no slot is not used. -/
theorem uses_eq_zero (h : ∀ p, T.map p ≠ some g) : T.uses g = 0 := by
  simp [Tables.uses, h]

/-! ## the allocator -/

/-- Different frames have different numbers. -/
theorem pfn_ne {b : Nat} (ha : a % pageSize = 0) (hb : b % pageSize = 0) (hab : a ≠ b) :
    a / pageSize ≠ b / pageSize := by
  unfold pageSize at *
  omega

/-- Frame `a` is in hand: allocated, and in none of the tables. -/
structure Held (dir : Nat) (T : Tables) (a : Nat) (st : Phys) : Prop where
  aligned : a % pageSize = 0
  lt : a < 2 ^ 32
  not_free : a ∉ st.free
  ne_dir : a ≠ dir
  not_tab : ∀ i, T.tab i ≠ some a
  not_map : ∀ p, T.map p ≠ some a
  refs : st.Counted a → 1 ≤ st.refs (a / pageSize)

/-- What touches frame `g` and its count only, and may free it. -/
structure Touched (g : Nat) (st st' : Phys) : Prop where
  mem : ∀ x, x < g ∨ g + pageSize ≤ x → st'.mem x = st.mem x
  refs : ∀ b, b / pageSize ≠ g / pageSize → st'.refs (b / pageSize) = st.refs (b / pageSize)
  max : st'.maxFrameIdx = st.maxFrameIdx
  free : ∀ b ∈ st'.free, b = g ∨ b ∈ st.free

/-- Only the frame in question changes. -/
theorem Touched.same {g : Nat} (h : Touched g st st') (ha : a % pageSize = 0)
    (hg : g % pageSize = 0) (hne : a ≠ g) :
    Same st.mem st'.mem a := same_of_outside ha hg hne h.mem

/-- A held frame is not touched by what happens to another. -/
theorem Held.touched {g : Nat} (hh : Held dir T a st) (h : Touched g st st') (hg : g % pageSize = 0)
    (hne : a ≠ g) :
    Held dir T a st' where
  aligned := hh.aligned
  lt := hh.lt
  not_free hin := by
    rcases h.free a hin with rfl | hin
    · exact hne rfl
    · exact hh.not_free hin
  ne_dir := hh.ne_dir
  not_tab := hh.not_tab
  not_map := hh.not_map
  refs hc := by
    rw [h.refs a (pfn_ne hh.aligned hg hne)]
    refine hh.refs ?_
    unfold Phys.Counted at hc ⊢
    rwa [← h.max]

/-- A new frame is held, and cleared. -/
theorem Inv.alloc (hI : Inv dir T st) (h : st.allocFrame = (some a, st')) :
    Inv dir T st' ∧ Held dir T a st' ∧ a ∈ st.free ∧ Touched a st st' ∧ ∀ x, a ≤ x →
      x < a + pageSize → st'.mem x = 0 := by
  unfold Phys.allocFrame at h
  split at h
  · simp at h
  · next a' rest hfree =>
      have hst' := (Prod.mk.inj h).2
      obtain rfl := Option.some.inj (Prod.mk.inj h).1
      have hnodup := hfree ▸ hI.nodup
      obtain ⟨hnot, hnodup⟩ := List.nodup_cons.mp hnodup
      have ha : a' ∈ st.free := hfree ▸ List.mem_cons_self
      have hrest : ∀ b ∈ rest, b ∈ st.free := fun b hb => hfree ▸ List.mem_cons_of_mem _ hb
      have hmem : st'.mem = zeroFrame st.mem a' := by
        rw [← hst']
        split
        · rfl
        · rfl
      have hfree' : st'.free = rest := by
        rw [← hst']
        split
        · rfl
        · rfl
      have hmax : st'.maxFrameIdx = st.maxFrameIdx := by
        rw [← hst']
        split
        · rfl
        · rfl
      have hrefs : ∀ b, b / pageSize ≠ a' / pageSize →
          st'.refs (b / pageSize) = st.refs (b / pageSize) := by
        intro b hb
        rw [← hst']
        split
        · exact Function.update_of_ne hb ..
        · rfl
      have hcount : st'.Counted a' → st'.refs (a' / pageSize) = 1 := by
        intro hc
        have hc' : st.Counted a' := by
          unfold Phys.Counted at hc ⊢
          rwa [← hmax]
        rw [← hst']
        split
        · exact Function.update_self ..
        · next hn => exact absurd hc' hn
      have hnotmap : ∀ p, T.map p ≠ some a' := fun p hp => (hI.map_used p a' hp).2.1 ha
      refine ⟨⟨?_, ?_, hI.dir_aligned, ?_, ?_, hI.tab_inj, ?_, hI.map_slot, hI.tab_lt,
          hI.map_lt, ?_⟩,
        ⟨?_, ?_, ?_, ?_, ?_, hnotmap, ?_⟩, ha,
        ⟨?_, hrefs, hmax, ?_⟩, ?_⟩
      · exact hfree'.symm ▸ hnodup
      · exact fun b hb => hI.aligned b (hrest b (hfree' ▸ hb))
      · exact fun hin => hI.dir_used (hrest _ (hfree' ▸ hin))
      · intro i t ht
        obtain ⟨h₁, h₂, h₃⟩ := hI.tab_used i t ht
        exact ⟨h₁, fun hin => h₂ (hrest _ (hfree' ▸ hin)), h₃⟩
      · intro p g hp
        obtain ⟨h₁, h₂, h₃⟩ := hI.map_used p g hp
        exact ⟨h₁, fun hin => h₂ (hrest _ (hfree' ▸ hin)), h₃⟩
      · intro g hg hc
        by_cases hga : g = a'
        · rw [hga, uses_eq_zero hnotmap]
          exact Nat.zero_le _
        · rw [hrefs g (pfn_ne hg (hI.aligned a' ha).1 hga)]
          refine hI.refs g hg ?_
          unfold Phys.Counted at hc ⊢
          rwa [← hmax]
      · exact (hI.aligned a' ha).1
      · exact (hI.aligned a' ha).2
      · exact hfree'.symm ▸ hnot
      · rintro rfl
        exact hI.dir_used ha
      · exact fun i ht => (hI.tab_used i a' ht).2.1 ha
      · exact fun hc => (hcount hc).ge
      · intro x hx
        rw [hmem, zeroFrame, if_neg]
        omega
      · exact fun b hb => .inr (hrest b (hfree' ▸ hb))
      · intro x hx hx'
        rw [hmem, zeroFrame, if_pos ⟨hx, hx'⟩]

/-- Nothing changes but the flag. -/
theorem Inv.check (hI : Inv dir T st) (b : Nat) : Inv dir T (st.checkPhysAddr b) := by
  unfold Phys.checkPhysAddr
  split
  · exact ⟨hI.nodup, hI.aligned, hI.dir_aligned, hI.dir_used, hI.tab_used, hI.tab_inj, hI.map_used,
      hI.map_slot,
      hI.tab_lt, hI.map_lt, hI.refs⟩
  · exact hI

/-- A check writes nothing. -/
theorem checkPhysAddr_mem (st : Phys) (b : Nat) : (st.checkPhysAddr b).mem = st.mem := by
  unfold Phys.checkPhysAddr
  split
  · rfl
  · rfl

/-- A check frees nothing. -/
theorem checkPhysAddr_free (st : Phys) (b : Nat) : (st.checkPhysAddr b).free = st.free := by
  unfold Phys.checkPhysAddr
  split
  · rfl
  · rfl

theorem Touched.refl (g : Nat) (st : Phys) : Touched g st st :=
  ⟨fun _ _ => rfl, fun _ _ => rfl, rfl, fun _ hb => .inr hb⟩

/-- A check touches nothing. -/
theorem touched_check (st : Phys) (b g : Nat) : Touched g st (st.checkPhysAddr b) := by
  unfold Phys.checkPhysAddr
  split
  · exact ⟨fun _ _ => rfl, fun _ _ => rfl, rfl, fun _ hb => .inr hb⟩
  · exact Touched.refl g st

theorem Touched.trans {st'' : Phys} (h₁ : Touched g st st') (h₂ : Touched g st' st'') :
    Touched g st st'' where
  mem x hx := (h₂.mem x hx).trans (h₁.mem x hx)
  refs b hb := (h₂.refs b hb).trans (h₁.refs b hb)
  max := h₂.max.trans h₁.max
  free b hb := by
    rcases h₂.free b hb with hb | hb
    · exact .inl hb
    · exact h₁.free b hb

/-- A link at the start of a frame is in the frame. -/
theorem setWord_outside {x v : Nat} (mem : Nat → BitVec 8) (hx : x < g ∨ g + pageSize ≤ x) :
    setWord mem g v x = mem x := by
  refine setWord_of_ne mem ?_
  unfold pageSize at hx
  omega

/-- What `dropRef` can do. -/
theorem dropRef_cases (st : Phys) (g : Nat) :
    (¬ st.Counted g ∧ st.dropRef g = st) ∨
      (st.Counted g ∧ st.refs (g / pageSize) = 0 ∧ st.dropRef g = st.panic) ∨
      (st.Counted g ∧ st.dropRef g = st.setRef g (st.refs (g / pageSize) - 1)) ∨
      (st.Counted g ∧ st.refs (g / pageSize) = 1 ∧ st.dropRef g =
        { st.setRef g 0 with
          free := g :: st.free, mem := setWord st.mem g (st.free.headD 0) }) := by
  by_cases hc : st.Counted g
  · by_cases hz : st.refs (g / pageSize) = 0
    · exact .inr (.inl ⟨hc, hz, by simp [Phys.dropRef, Phys.removeRef, hc, hz]⟩)
    · by_cases hone : st.refs (g / pageSize) = 1
      · by_cases hg : g = 0
        · refine .inr (.inr (.inl ⟨hc, ?_⟩))
          have hfast : ∀ st' : Phys, st'.freeFrameFast g = st' := fun st' => if_pos hg
          simp [Phys.dropRef, Phys.removeRef, hfast, Phys.setRef, hc, hone]
        · refine .inr (.inr (.inr ⟨hc, hone, ?_⟩))
          simp [Phys.dropRef, Phys.removeRef, Phys.freeFrameFast, Phys.setRef, hc, hone, hg]
      · refine .inr (.inr (.inl ⟨hc, ?_⟩))
        have hne : st.refs (g / pageSize) - 1 ≠ 0 := by omega
        simp [Phys.dropRef, Phys.removeRef, Phys.setRef, hc, hz, hne]
  · exact .inl ⟨hc, by simp [Phys.dropRef, Phys.removeRef, hc]⟩

/-- Dropping a reference touches its frame only. -/
theorem touched_dropRef (st : Phys) (g : Nat) : Touched g st (st.dropRef g) := by
  rcases dropRef_cases st g with ⟨-, h⟩ | ⟨-, -, h⟩ | ⟨-, h⟩ | ⟨-, -, h⟩
  · rw [h]
    exact Touched.refl g st
  · rw [h]
    exact ⟨fun _ _ => rfl, fun _ _ => rfl, rfl, fun _ hb => .inr hb⟩
  · rw [h]
    exact ⟨fun _ _ => rfl, fun b hb => Function.update_of_ne hb .., rfl, fun _ hb => .inr hb⟩
  · rw [h]
    exact ⟨fun _ hx => setWord_outside st.mem hx, fun b hb => Function.update_of_ne hb .., rfl,
      fun b hb => List.mem_cons.mp hb⟩

/-- **Giving up a mapping**: the frame may be freed when nothing else in the
directory maps it. -/
theorem Inv.drop (hI : Inv dir T st) (hp : T.map p = some g) :
    Inv dir (T.setMap p none) (st.dropRef g) := by
  have hs := hI.map_slot p g hp
  obtain ⟨hg, hgfree, hgdir, hgtab⟩ := hI.map_used p g hp
  have huses := uses_none hp hs
  have htouched := touched_dropRef st g
  have hmap : ∀ q g', (T.setMap p none).map q = some g' → T.map q = some g' := by
    intro q g' hq
    by_cases hqp : q = p
    · simp [hqp] at hq
    · rwa [T.setMap_of_ne none hqp] at hq
  have hother : ∀ g', g' % pageSize = 0 → g' ≠ g → (st.dropRef g).Counted g' →
      (T.setMap p none).uses g' ≤ (st.dropRef g).refs (g' / pageSize) := by
    intro g' hg' hne hc
    rw [htouched.refs g' (pfn_ne hg' hg hne), uses_none_of_ne hp hne]
    refine hI.refs g' hg' ?_
    unfold Phys.Counted at hc ⊢
    rwa [← htouched.max]
  -- the frame goes to the free list only if the count was one
  have hcases : ((st.dropRef g).free = st.free ∧
    (st.Counted g → T.uses g - 1 ≤ (st.dropRef g).refs (g / pageSize))) ∨
      ((st.dropRef g).free = g :: st.free ∧ T.uses g ≤ 1) := by
    rcases dropRef_cases st g with ⟨hc, h⟩ | ⟨hc, hz, h⟩ | ⟨hc, h⟩ | ⟨hc, hone, h⟩
    · exact .inl ⟨by rw [h], fun hc' => absurd hc' hc⟩
    · have := hI.refs g hg hc
      omega
    · refine .inl ⟨by rw [h]; rfl, fun _ => ?_⟩
      have hrefs := hI.refs g hg hc
      have hself : (st.setRef g (st.refs (g / pageSize) - 1)).refs (g / pageSize) =
          st.refs (g / pageSize) - 1 :=
        Function.update_self ..
      rw [h, hself]
      omega
    · have hrefs := hI.refs g hg hc
      exact .inr ⟨by rw [h], by omega⟩
  have hfree : ∀ b ∈ (st.dropRef g).free, b = g ∨ b ∈ st.free := htouched.free
  have hdirfree : dir ∉ (st.dropRef g).free := by
    intro hin
    rcases hfree dir hin with h | h
    · exact hgdir h.symm
    · exact hI.dir_used h
  have haligned : ∀ a ∈ (st.dropRef g).free, a % pageSize = 0 ∧ a < 2 ^ 32 := by
    intro a ha
    rcases hfree a ha with rfl | ha
    · exact ⟨hg, hI.map_lt p a hp⟩
    · exact hI.aligned a ha
  have htab : ∀ i t, T.tab i = some t → t % pageSize = 0 ∧ t ∉ (st.dropRef g).free ∧ t ≠ dir := by
    intro i t ht
    obtain ⟨h₁, h₂, h₃⟩ := hI.tab_used i t ht
    refine ⟨h₁, fun hin => ?_, h₃⟩
    rcases hfree t hin with rfl | hin
    · exact hgtab i ht
    · exact h₂ hin
  rcases hcases with ⟨hsame, hle⟩ | ⟨hpush, hone⟩
  · refine ⟨hsame ▸ hI.nodup, haligned, hI.dir_aligned, hdirfree, htab, hI.tab_inj,
      fun q g' hq => ?_,
      fun q g' hq => hI.map_slot q g' (hmap q g' hq), hI.tab_lt, fun q g' hq =>
        hI.map_lt q g' (hmap q g' hq),
      fun g' hg' hc => ?_⟩
    · rw [hsame]
      exact hI.map_used q g' (hmap q g' hq)
    · by_cases hne : g' = g
      · subst hne
        have hc' : st.Counted g' := by
          unfold Phys.Counted at hc ⊢
          rwa [← htouched.max]
        have := hle hc'
        omega
      · exact hother g' hg' hne hc
  · have hgone : ∀ q, (T.setMap p none).map q ≠ some g := by
      intro q hq
      have := uses_pos hq (hI.map_slot q g (hmap q g hq))
      omega
    refine ⟨?_, haligned, hI.dir_aligned, hdirfree, htab, hI.tab_inj, fun q g' hq => ?_,
      fun q g' hq => hI.map_slot q g' (hmap q g' hq), hI.tab_lt, fun q g' hq =>
        hI.map_lt q g' (hmap q g' hq),
      fun g' hg' hc => ?_⟩
    · rw [hpush]
      exact List.nodup_cons.mpr ⟨hgfree, hI.nodup⟩
    · obtain ⟨h₁, h₂, h₃⟩ := hI.map_used q g' (hmap q g' hq)
      refine ⟨h₁, fun hin => ?_, h₃⟩
      rcases hfree g' hin with rfl | hin
      · exact hgone q hq
      · exact h₂ hin
    · by_cases hne : g' = g
      · rw [hne, uses_eq_zero hgone]
        exact Nat.zero_le _
      · exact hother g' hg' hne hc

/-- The frame of an entry, given up. -/
theorem Inv.dropEntry {e : Nat} (hI : Inv dir T st)
    (h : ∀ g, T.map p = some g ↔ present e = true ∧ addr e = g) :
    Inv dir (T.setMap p none) (st.dropEntry e) ∧ Touched (addr e) st (st.dropEntry e) := by
  unfold Phys.dropEntry
  split
  · next hpres =>
      have hp := (h (addr e)).mpr ⟨hpres, rfl⟩
      exact ⟨(hI.check _).drop hp, (touched_check st _ _).trans (touched_dropRef _ _)⟩
  · next hpres =>
      have hnone : T.map p = none := by
        cases hm : T.map p with
        | none => rfl
        | some g => exact absurd ((h g).mp hm).1 hpres
      have hT : T.setMap p none = T := by
        simp [Tables.setMap, ← hnone]
      exact ⟨hT.symm ▸ hI, Touched.refl _ _⟩

end Doors.Memory
