import Mathlib.Data.Multiset.Count
import Mathlib.Data.Multiset.AddSub
import Doors.Memory.Clone

/-!
# Doors.Memory.Ledger

The allocator with exact counts.

`Exact M R st` says that the frames `M` are in use as often as the references `R` say: each
is counted so often, and those without a reference are free, once.  `R` is a ghost; what
memory shows of it is for the modules above to say.

* `Exact.alloc`, `Exact.dropRef`, `Exact.freeFrame`, `Exact.addRef`, `Exact.removeRef` — what
  the allocator does to the references;
* `Exact.dropEntries`, `Exact.addRefs`, `Exact.removeRefs` — and the loops over a table;
* `Exact.within_alloc` and the lemmas after it — none of them goes beyond the frames `M`.
-/

namespace Doors.Memory

open Phys

/-- **Exact counts** of the frames `M`, which have the references `R`. -/
structure Exact (M : Set Nat) (R : Multiset Nat) (st : Phys) : Prop where
  pool : ∀ g ∈ M, g % pageSize = 0 ∧ g / pageSize < st.maxFrameIdx ∧ Sound st.maxFrameIdx g
  refs : ∀ g ∈ M, st.refs (g / pageSize) = R.count g
  free : ∀ g ∈ M, st.free.count g = if R.count g = 0 then 1 else 0
  used_in : ∀ g ∈ R, g ∈ M
  free_in : ∀ g ∈ st.free, g ∈ M
  calm : st.panicked = false

/-- The frames `R` are as they were. -/
def Steady (R : Multiset Nat) (st st' : Phys) : Prop := ∀ g ∈ R, Same st.mem st'.mem g

variable {M : Set Nat} {R : Multiset Nat} {st st' st'' : Phys} {a g t n : Nat}

theorem Steady.refl (R : Multiset Nat) (st : Phys) : Steady R st st := fun _ _ => Same.refl _ _

theorem Steady.trans (h : Steady R st st') (h' : Steady R st' st'') : Steady R st st'' :=
  fun g hg => (h g hg).trans (h' g hg)

/-- Fewer frames are as steady. -/
theorem Steady.mono {S : Multiset Nat} (h : Steady R st st') (hS : ∀ g ∈ S, g ∈ R) :
    Steady S st st' := fun g hg => h g (hS g hg)

/-! ## frames -/

/-- A managed frame begins at a page. -/
theorem Exact.aligned (h : Exact M R st) (hg : g ∈ M) : g % pageSize = 0 := (h.pool g hg).1

/-- A managed frame is below 4 GiB. -/
theorem Exact.lt (h : Exact M R st) (hg : g ∈ M) : g < 2 ^ 32 := by
  have hlt := (h.pool g hg).2.2.2
  omega

/-- A managed frame has a count. -/
theorem Exact.counted (h : Exact M R st) (hg : g ∈ M) : st.Counted g := (h.pool g hg).2.1

/-- A managed frame is not at 0. -/
theorem Exact.ne_zero (h : Exact M R st) (hg : g ∈ M) : g ≠ 0 := (h.pool g hg).2.2.1

/-- A frame in use is not free. -/
theorem Exact.not_free (h : Exact M R st) (hg : g ∈ R) : g ∉ st.free := by
  have hcount := h.free g (h.used_in g hg)
  rw [if_neg (Multiset.count_ne_zero.mpr hg)] at hcount
  exact List.count_eq_zero.mp hcount

/-- Frames are known by their numbers. -/
theorem Exact.pfn_iff (h : Exact M R st) (ha : a ∈ M) (hg : g ∈ M) :
    g / pageSize = a / pageSize ↔ g = a := by
  have h₁ := h.aligned ha
  have h₂ := h.aligned hg
  unfold pageSize at *
  omega

/-- Only the counts, the list, the flag and the limit matter. -/
theorem Exact.congr (h : Exact M R st) (hrefs : st'.refs = st.refs) (hfree : st'.free = st.free)
    (hmax : st'.maxFrameIdx = st.maxFrameIdx)
    (hcalm : st'.panicked = st.panicked) : Exact M R st' := by
  refine ⟨?_, ?_, ?_, h.used_in, ?_, hcalm.trans h.calm⟩
  · rw [hmax]
    exact h.pool
  · rw [hrefs]
    exact h.refs
  · rw [hfree]
    exact h.free
  · rw [hfree]
    exact h.free_in

/-- An entry that is written is no reference of the ledger yet. -/
theorem Exact.setEntry {k e : Nat} (h : Exact M R st) : Exact M R (st.setEntry t k e) :=
  h.congr rfl rfl rfl rfl

/-- The counts say what the references are. -/
theorem Exact.unique {S : Multiset Nat} (h : Exact M R st) (h' : Exact M S st) : R = S := by
  refine Multiset.ext.mpr fun g => ?_
  by_cases hg : g ∈ M
  · rw [← h.refs g hg, h'.refs g hg]
  · rw [Multiset.count_eq_zero.mpr fun hin => hg (h.used_in g hin),
      Multiset.count_eq_zero.mpr fun hin => hg (h'.used_in g hin)]

/-- `CHECK_PHYS_ADDR` accepts every frame. -/
theorem Exact.check (h : Exact M R st) (hg : g ∈ M) : st.checkPhysAddr g = st := by
  obtain ⟨-, -, hne, hlt⟩ := h.pool g hg
  unfold Phys.checkPhysAddr
  rw [if_neg (by omega)]

/-! ## the operations -/

/-- **Allocation** adds a reference to a frame that had none. -/
theorem Exact.alloc (h : Exact M R st) (halloc : st.allocFrame = (some a, st')) :
    Exact M (a ::ₘ R) st' ∧ a ∈ M ∧ a ∉ R ∧ (∀ x, x < a ∨ a + pageSize ≤ x → st'.mem x = st.mem x) ∧
      ∀ x, a ≤ x → x < a + pageSize → st'.mem x = 0 := by
  obtain ⟨hfree, hmem, hmax, hrefs, hcalm⟩ := allocFrame_some halloc
  have ha : a ∈ M := h.free_in a (by simp [hfree])
  have hnot : a ∉ R := fun hin => h.not_free hin (by simp [hfree])
  have hcount : st'.free.count a = 0 := by
    have hone := h.free a ha
    rw [if_pos (Multiset.count_eq_zero.mpr hnot), hfree, List.count_cons_self] at hone
    omega
  refine ⟨⟨by rw [hmax]; exact h.pool, fun g hg => ?_, fun g hg => ?_, ?_,
      fun g hg => h.free_in g (by simp [hfree, hg]), hcalm.trans h.calm⟩,
    ha, hnot, fun x hx => ?_, fun x hx hx' => ?_⟩
  · rw [hrefs (h.counted ha)]
    by_cases hga : g = a
    · rw [hga, if_pos rfl, Multiset.count_cons_self, Multiset.count_eq_zero.mpr hnot]
    · rw [if_neg fun heq => hga ((h.pfn_iff ha hg).mp heq), Multiset.count_cons_of_ne hga]
      exact h.refs g hg
  · by_cases hga : g = a
    · rw [hga, hcount, Multiset.count_cons_self, if_neg (by omega)]
    · rw [Multiset.count_cons_of_ne hga, ← h.free g hg, hfree, List.count_cons_of_ne (Ne.symm hga)]
  · exact fun g hg => (Multiset.mem_cons.mp hg).elim (fun heq => heq ▸ ha) (h.used_in g)
  · rw [hmem, zeroFrame, if_neg (by omega)]
  · rw [hmem, zeroFrame, if_pos ⟨hx, hx'⟩]

/-- One reference to `g` less, and the frame is not freed. -/
theorem Exact.recount (h : Exact M (g ::ₘ R) st) (hin : g ∈ R)
    (hrefs : ∀ m, st'.refs m = if m = g / pageSize then st.refs m - 1 else st.refs m)
    (hfree : st'.free = st.free) (hmax : st'.maxFrameIdx = st.maxFrameIdx)
    (hcalm : st'.panicked = st.panicked) : Exact M R st' := by
  have hg : g ∈ M := h.used_in g (Multiset.mem_cons_self g R)
  refine ⟨by rw [hmax]; exact h.pool, fun b hb => ?_, fun b hb => ?_,
    fun b hb => h.used_in b (Multiset.mem_cons_of_mem hb),
    by rw [hfree]; exact h.free_in, hcalm.trans h.calm⟩
  · rw [hrefs, h.refs b hb]
    by_cases hbg : b = g
    · rw [hbg, if_pos rfl, Multiset.count_cons_self, Nat.add_sub_cancel]
    · rw [if_neg fun heq => hbg ((h.pfn_iff hg hb).mp heq), Multiset.count_cons_of_ne hbg]
  · rw [hfree, h.free b hb]
    by_cases hbg : b = g
    · rw [hbg, Multiset.count_cons_self, if_neg (by omega), if_neg (Multiset.count_ne_zero.mpr hin)]
    · rw [Multiset.count_cons_of_ne hbg]

/-- The last reference to `g` goes, and the frame with it. -/
theorem Exact.last (h : Exact M (g ::ₘ R) st) (hout : g ∉ R)
    (hrefs : ∀ m, st'.refs m = if m = g / pageSize then 0 else st.refs m)
    (hfree : st'.free = g :: st.free) (hmax : st'.maxFrameIdx = st.maxFrameIdx)
    (hcalm : st'.panicked = st.panicked) : Exact M R st' := by
  have hg : g ∈ M := h.used_in g (Multiset.mem_cons_self g R)
  have hzero : R.count g = 0 := Multiset.count_eq_zero.mpr hout
  refine ⟨by rw [hmax]; exact h.pool, fun b hb => ?_, fun b hb => ?_,
    fun b hb => h.used_in b (Multiset.mem_cons_of_mem hb),
    fun b hb => ?_, hcalm.trans h.calm⟩
  · rw [hrefs, h.refs b hb]
    by_cases hbg : b = g
    · rw [hbg, if_pos rfl, hzero]
    · rw [if_neg fun heq => hbg ((h.pfn_iff hg hb).mp heq), Multiset.count_cons_of_ne hbg]
  · by_cases hbg : b = g
    · rw [hbg, hfree, List.count_cons_self, hzero, if_pos rfl, h.free g hg,
        Multiset.count_cons_self, if_neg (by omega)]
    · rw [hfree, List.count_cons_of_ne (Ne.symm hbg), h.free b hb, Multiset.count_cons_of_ne hbg]
  · rw [hfree] at hb
    rcases List.mem_cons.mp hb with rfl | hb
    · exact hg
    · exact h.free_in b hb

/-- A count is the number of references. -/
theorem Exact.refs_cons (h : Exact M (g ::ₘ R) st) : st.refs (g / pageSize) = R.count g + 1 := by
  rw [h.refs g (h.used_in g (Multiset.mem_cons_self g R)), Multiset.count_cons_self]

/-- **`removeRef`** of a frame that keeps a reference. -/
theorem Exact.removeRef (h : Exact M (g ::ₘ R) st) (hin : g ∈ R) :
    Exact M R (st.removeRef g).2 ∧ (st.removeRef g).2.mem = st.mem := by
  have hrefs := h.refs_cons
  have hc := h.counted (h.used_in g (Multiset.mem_cons_self g R))
  have heq : (st.removeRef g).2 = st.setRef g (st.refs (g / pageSize) - 1) := by
    unfold Phys.removeRef
    rw [if_neg (not_not.mpr hc), if_neg (by omega)]
  rw [heq]
  refine ⟨h.recount hin (fun m => ?_) rfl rfl rfl, rfl⟩
  rw [(setRef_recounted st g _).refs m]
  split
  · next hm => rw [hm]
  · rfl

/-- What is given up is freed when that was the last reference. -/
theorem Exact.given (h : Exact M (g ::ₘ R) st) (hkeep : g ∈ R → Exact M R st' ∧ st'.mem = st.mem)
    (hlast : g ∉ R → Exact M R st' ∧ ∀ x, x < g ∨ g + pageSize ≤ x → st'.mem x = st.mem x) :
    Exact M R st' ∧ Steady R st st' := by
  by_cases hin : g ∈ R
  · obtain ⟨he, hmem⟩ := hkeep hin
    exact ⟨he, fun b _ x _ _ => by rw [hmem]⟩
  · obtain ⟨he, hmem⟩ := hlast hin
    refine ⟨he, fun b hb => same_of_outside ?_ ?_ ?_ hmem⟩
    · exact h.aligned (h.used_in b (Multiset.mem_cons_of_mem hb))
    · exact h.aligned (h.used_in g (Multiset.mem_cons_self g R))
    · rintro rfl
      exact hin hb

/-- **`if (removeRef(g)) freeFrameFast(g)`**. -/
theorem Exact.dropRef (h : Exact M (g ::ₘ R) st) :
    Exact M R (st.dropRef g) ∧ Steady R st (st.dropRef g) := by
  have hg := h.used_in g (Multiset.mem_cons_self g R)
  have hrefs := h.refs_cons
  have hc := h.counted hg
  refine h.given (fun hin => ?_) (fun hout => ?_)
  · have hpos := Multiset.count_pos.mpr hin
    rw [dropRef_eq_removeRef fun _ => by omega]
    exact h.removeRef hin
  · rw [Multiset.count_eq_zero.mpr hout] at hrefs
    have heq : st.dropRef g =
        { st.setRef g 0 with free := g :: st.free, mem := setWord st.mem g (st.free.headD 0) } := by
      simp [Phys.dropRef, Phys.removeRef, Phys.freeFrameFast, Phys.setRef, hc, hrefs, h.ne_zero hg]
    rw [heq]
    exact ⟨h.last hout (fun m => (setRef_recounted st g 0).refs m) rfl rfl rfl,
      fun x hx => setWord_outside st.mem hx⟩

/-- **`freeFrame`**. -/
theorem Exact.freeFrame (h : Exact M (g ::ₘ R) st) :
    Exact M R (st.freeFrame g) ∧ Steady R st (st.freeFrame g) := by
  have hg := h.used_in g (Multiset.mem_cons_self g R)
  have hrefs := h.refs_cons
  have hc := h.counted hg
  refine h.given (fun hin => ?_) (fun hout => ?_)
  · have hpos := Multiset.count_pos.mpr hin
    have heq : st.freeFrame g = st.setRef g (st.refs (g / pageSize) - 1) := by
      have hself : (st.setRef g (st.refs (g / pageSize) - 1)).refs (g / pageSize) =
          st.refs (g / pageSize) - 1 :=
        Function.update_self ..
      unfold Phys.freeFrame
      rw [if_neg (by simp [h.ne_zero hg, hc]), if_neg (by omega)]
      dsimp only
      rw [hself, if_pos (by omega)]
    rw [heq]
    refine ⟨h.recount hin (fun m => ?_) rfl rfl rfl, rfl⟩
    rw [(setRef_recounted st g _).refs m]
    split
    · next hm => rw [hm]
    · rfl
  · rw [Multiset.count_eq_zero.mpr hout] at hrefs
    obtain ⟨hfree, hmax, hmem, hrefs', hcalm⟩ := freeFrame_last (h.ne_zero hg) hc hrefs
    exact ⟨h.last hout hrefs' hfree hmax hcalm, hmem⟩

/-- **`addRef`** of a frame in use, below the limit. -/
theorem Exact.addRef (h : Exact M R st) (hin : g ∈ R) (hlim : R.count g < maxRefcount) :
    Exact M (g ::ₘ R) (st.addRef g) ∧ (st.addRef g).mem = st.mem := by
  have hg := h.used_in g hin
  have hrefs := h.refs g hg
  have heq : st.addRef g = st.setRef g (st.refs (g / pageSize) + 1) :=
    if_pos ⟨h.counted hg, by omega⟩
  rw [heq]
  refine ⟨⟨h.pool, fun b hb => ?_, fun b hb => ?_,
      fun b hb => (Multiset.mem_cons.mp hb).elim (fun hbg => hbg ▸ hg) (h.used_in b),
    h.free_in, h.calm⟩, rfl⟩
  · rw [(setRef_recounted st g _).refs]
    by_cases hbg : b = g
    · rw [hbg, if_pos rfl, Multiset.count_cons_self, hrefs]
    · rw [if_neg fun hn => hbg ((h.pfn_iff hg hb).mp hn), Multiset.count_cons_of_ne hbg]
      exact h.refs b hb
  · show st.free.count b = _
    by_cases hbg : b = g
    · rw [hbg, Multiset.count_cons_self, if_neg (by omega), List.count_eq_zero.mpr (h.not_free hin)]
    · rw [h.free b hb, Multiset.count_cons_of_ne hbg]

/-! ## the loops over a table -/

/-- What an entry refers to. -/
def entryRefs (e : Nat) : Multiset Nat := if present e then {addr e} else 0

/-- The first `n` entries of a table. -/
def tableRefs (mem : Nat → BitVec 8) (t n : Nat) : Multiset Nat := ↑(tableFrames mem t n)

/-- One more entry of a table. -/
theorem tableRefs_succ (mem : Nat → BitVec 8) (t n : Nat) :
    tableRefs mem t (n + 1) = entryRefs (word mem (t + 4 * n)) + tableRefs mem t n := by
  unfold tableRefs entryRefs
  rw [tableFrames, ← Multiset.coe_add, add_comm]
  split
  · rfl
  · rfl

/-- No entries. -/
theorem tableRefs_zero (mem : Nat → BitVec 8) (t : Nat) : tableRefs mem t 0 = 0 := rfl

/-- Giving up what an entry refers to. -/
theorem Exact.dropEntry {e : Nat} (h : Exact M (entryRefs e + R) st) :
    Exact M R (st.dropEntry e) ∧ Steady R st (st.dropEntry e) := by
  unfold entryRefs at h
  unfold Phys.dropEntry
  split
  · next hp =>
      rw [if_pos hp, Multiset.singleton_add] at h
      rw [h.check (h.used_in _ (Multiset.mem_cons_self _ _))]
      exact h.dropRef
  · next hp =>
      rw [if_neg hp, zero_add] at h
      exact ⟨h, Steady.refl R st⟩

/-- **`dropEntries`** gives up what a table refers to. -/
theorem Exact.dropEntries (h : Exact M (tableRefs st.mem t n + R) st) (ht : t ∈ R)
    (hn : n ≤ pteCount) :
    Exact M R (Phys.dropEntries t n st) ∧ Steady R st (Phys.dropEntries t n st) := by
  induction n generalizing R with
  | zero =>
      rw [tableRefs_zero, zero_add] at h
      exact ⟨h, Steady.refl R st⟩
  | succ n ih =>
      have hsplit : tableRefs st.mem t (n + 1) + R =
          tableRefs st.mem t n + (entryRefs (word st.mem (t + 4 * n)) + R) := by
        rw [tableRefs_succ, add_comm (entryRefs _), add_assoc]
      rw [hsplit] at h
      obtain ⟨h₁, hs₁⟩ := ih h (Multiset.mem_add.mpr (.inr ht)) (by omega)
      have hword : (Phys.dropEntries t n st).entry t n = word st.mem (t + 4 * n) :=
        (hs₁ t (Multiset.mem_add.mpr (.inr ht))).word (by omega)
      rw [Phys.dropEntries, hword]
      obtain ⟨h₂, hs₂⟩ := h₁.dropEntry
      exact ⟨h₂, (hs₁.mono fun g hg => Multiset.mem_add.mpr (.inr hg)).trans hs₂⟩

/-- **`addRefs`** takes a reference for each entry of a table. -/
theorem Exact.addRefs (h : Exact M R st) (hin : ∀ g ∈ tableRefs st.mem t n, g ∈ R)
    (hlim : ∀ g ∈ tableRefs st.mem t n, (tableRefs st.mem t n).count g + R.count g ≤ maxRefcount) :
    Exact M (tableRefs st.mem t n + R) (Phys.addRefs t n st) ∧
      (Phys.addRefs t n st).mem = st.mem := by
  induction n with
  | zero =>
      rw [tableRefs_zero, zero_add]
      exact ⟨h, rfl⟩
  | succ n ih =>
      simp only [tableRefs_succ, Multiset.mem_add, Multiset.count_add] at hin hlim ⊢
      obtain ⟨h₁, hmem⟩ := ih (fun g hg => hin g (.inr hg)) fun g hg => by
        have hle := hlim g (.inr hg)
        omega
      rw [Phys.addRefs]
      simp only [Phys.entry, hmem]
      unfold entryRefs at hin hlim ⊢
      split
      · next hp =>
          simp only [hp, if_true, Multiset.mem_singleton] at hin hlim
          have hg := hin _ (.inl rfl)
          have hmem' : addr (word st.mem (t + 4 * n)) ∈ tableRefs st.mem t n + R :=
            Multiset.mem_add.mpr (.inr hg)
          rw [h₁.check (h₁.used_in _ hmem'), add_assoc, Multiset.singleton_add]
          have hle := hlim _ (.inl rfl)
          rw [Multiset.count_singleton_self] at hle
          obtain ⟨h₂, hmem₂⟩ := h₁.addRef hmem' (by rw [Multiset.count_add]; omega)
          exact ⟨h₂, hmem₂.trans hmem⟩
      · rw [zero_add]
        exact ⟨h₁, hmem⟩

/-- **`removeRefs`** gives the references back; the frames have others. -/
theorem Exact.removeRefs (h : Exact M (tableRefs st.mem t n + R) st)
    (hin : ∀ g ∈ tableRefs st.mem t n, g ∈ R) :
    Exact M R (Phys.removeRefs t n st) ∧ (Phys.removeRefs t n st).mem = st.mem := by
  induction n generalizing R with
  | zero =>
      rw [tableRefs_zero, zero_add] at h
      exact ⟨h, rfl⟩
  | succ n ih =>
      simp only [tableRefs_succ, Multiset.mem_add] at hin
      have hsplit : tableRefs st.mem t (n + 1) + R =
          tableRefs st.mem t n + (entryRefs (word st.mem (t + 4 * n)) + R) := by
        rw [tableRefs_succ, add_comm (entryRefs _), add_assoc]
      rw [hsplit] at h
      obtain ⟨h₁, hmem⟩ := ih h fun g hg => Multiset.mem_add.mpr (.inr (hin g (.inr hg)))
      rw [Phys.removeRefs]
      simp only [Phys.entry, hmem]
      unfold entryRefs at hin h₁
      split
      · next hp =>
          simp only [hp, if_true, Multiset.mem_singleton, Multiset.singleton_add] at hin h₁
          obtain ⟨h₂, hmem₂⟩ := h₁.removeRef (hin _ (.inl rfl))
          exact ⟨h₂, hmem₂.trans hmem⟩
      · next hp =>
          rw [if_neg hp, zero_add] at h₁
          exact ⟨h₁, hmem⟩

/-! ## nothing beyond the frames -/

variable {U : Nat → Prop}

/-- A count is no memory. -/
theorem within_setRef (hg : g % pageSize = 0) (hU : U g) : Within U st (st.setRef g n) where
  same _ _ _ := Same.refl _ _
  refs _ hb hn := Function.update_of_ne (pfn_ne hb hg fun hbg => hn (hbg ▸ hU)) ..
  free _ hb := .inl hb
  max := rfl

/-- Counting up writes no memory. -/
theorem within_addRef (hg : g % pageSize = 0) (hU : U g) : Within U st (st.addRef g) := by
  unfold Phys.addRef
  split
  · exact within_setRef hg hU
  · exact .refl U st

/-- Counting down writes no memory. -/
theorem within_removeRef (hg : g % pageSize = 0) (hU : U g) : Within U st (st.removeRef g).2 := by
  unfold Phys.removeRef
  split
  · exact .refl U st
  · split
    · exact ⟨fun _ _ _ => Same.refl _ _, fun _ _ _ => rfl, fun _ hb => .inl hb, rfl⟩
    · exact within_setRef hg hU

/-- A copy writes its frame. -/
theorem within_copyFrame {src : Nat} (ht : t % pageSize = 0) (hU : U t) :
    Within U st (st.copyFrame t src) where
  same b hb hn := same_of_outside hb ht (fun hbt => hn (hbt ▸ hU)) fun _ hx => if_neg (by omega)
  refs _ _ _ := rfl
  free _ hb := .inl hb
  max := rfl

/-- An allocation writes a managed frame. -/
theorem Exact.within_alloc (h : Exact M R st) (halloc : st.allocFrame = (some a, st')) :
    Within (· ∈ M) st st' := by
  have ha : a ∈ M := h.free_in a (by simp [(allocFrame_some halloc).1])
  exact Memory.within_alloc halloc (h.aligned ha) ha

/-- Dropping an entry writes managed frames. -/
theorem Exact.within_dropEntry {e : Nat} (h : Exact M (entryRefs e + R) st) :
    Within (· ∈ M) st (st.dropEntry e) := by
  refine Memory.within_dropEntry fun hp => h.used_in _ (Multiset.mem_add.mpr (.inl ?_))
  rw [entryRefs, if_pos hp]
  exact Multiset.mem_singleton_self _

/-- Dropping a table writes managed frames. -/
theorem Exact.within_dropEntries (h : Exact M (tableRefs st.mem t n + R) st) (ht : t ∈ R)
    (hn : n ≤ pteCount) :
    Within (· ∈ M) st (Phys.dropEntries t n st) := by
  induction n generalizing R with
  | zero => exact .refl _ st
  | succ n ih =>
      have hsplit : tableRefs st.mem t (n + 1) + R =
          tableRefs st.mem t n + (entryRefs (word st.mem (t + 4 * n)) + R) := by
        rw [tableRefs_succ, add_comm (entryRefs _), add_assoc]
      rw [hsplit] at h
      have htR : t ∈ entryRefs (word st.mem (t + 4 * n)) + R := Multiset.mem_add.mpr (.inr ht)
      obtain ⟨h₁, hs₁⟩ := h.dropEntries htR (by omega)
      have hword : (Phys.dropEntries t n st).entry t n = word st.mem (t + 4 * n) :=
        (hs₁ t htR).word (by omega)
      rw [Phys.dropEntries, hword]
      exact (ih h htR (by omega)).trans h₁.within_dropEntry

/-- Counting a table up writes no memory. -/
theorem Exact.within_addRefs (h : Exact M R st) (hin : ∀ g ∈ tableRefs st.mem t n, g ∈ R)
    (hlim : ∀ g ∈ tableRefs st.mem t n, (tableRefs st.mem t n).count g + R.count g ≤ maxRefcount) :
    Within (· ∈ M) st (Phys.addRefs t n st) := by
  induction n with
  | zero => exact .refl _ st
  | succ n ih =>
      simp only [tableRefs_succ, Multiset.mem_add, Multiset.count_add] at hin hlim
      have hlim' : ∀ g ∈ tableRefs st.mem t n,
          (tableRefs st.mem t n).count g + R.count g ≤ maxRefcount := fun g hg => by
        have hle := hlim g (.inr hg)
        omega
      have hmem := (h.addRefs (fun g hg => hin g (.inr hg)) hlim').2
      refine (ih (fun g hg => hin g (.inr hg)) hlim').trans ?_
      rw [Phys.addRefs]
      simp only [Phys.entry, hmem]
      split
      · next hp =>
          rw [entryRefs, if_pos hp] at hin
          exact (within_check _ _ _).trans (within_addRef (addr_mod _)
            (h.used_in _ (hin _ (.inl (Multiset.mem_singleton_self _)))))
      · exact .refl _ _

/-- Counting a table down writes no memory. -/
theorem Exact.within_removeRefs (h : Exact M (tableRefs st.mem t n + R) st)
    (hin : ∀ g ∈ tableRefs st.mem t n, g ∈ R) :
    Within (· ∈ M) st (Phys.removeRefs t n st) := by
  induction n generalizing R with
  | zero => exact .refl _ st
  | succ n ih =>
      simp only [tableRefs_succ, Multiset.mem_add] at hin
      have hsplit : tableRefs st.mem t (n + 1) + R =
          tableRefs st.mem t n + (entryRefs (word st.mem (t + 4 * n)) + R) := by
        rw [tableRefs_succ, add_comm (entryRefs _), add_assoc]
      rw [hsplit] at h
      have hin' : ∀ g ∈ tableRefs st.mem t n, g ∈ entryRefs (word st.mem (t + 4 * n)) + R :=
        fun g hg =>
        Multiset.mem_add.mpr (.inr (hin g (.inr hg)))
      have hmem := (h.removeRefs hin').2
      refine (ih h hin').trans ?_
      rw [Phys.removeRefs]
      simp only [Phys.entry, hmem]
      split
      · next hp =>
          rw [entryRefs, if_pos hp] at h
          refine within_removeRef (addr_mod _)
            (h.used_in _ (Multiset.mem_add.mpr (.inr (Multiset.mem_add.mpr (.inl ?_)))))
          exact Multiset.mem_singleton_self _
      · exact .refl _ _

end Doors.Memory
