import Doors.Memory.Mapping

/-!
# Doors.Memory.Clone

`clonePageDir` with its rollback, and `freePageDirectory` (`arch/i386/Paging.cc`).

A clone shares the kernel's page tables and has copies of the user tables; every
frame that a user table maps gets a reference for each time it is mapped.  What
these references do to the counts is one sum, `tally`; `Cloning` is the state
after a part of the directory was copied, and `Released` the state after a part
of the copy was given back.

* `clonePageDir_fails` — a clone that fails leaves no trace;
* `clonePageDir_free` — nor does one that is freed.
-/

namespace Doors.Memory

def pageCow : Nat := 512

/-- `if ((pte & PAGE_PRESENT) && (pte & PAGE_RW)) { pte &= ~PAGE_RW; pte |= PAGE_COW; }`. -/
def protect (e : Nat) : Nat :=
  if present e ∧ e / pageRw % 2 = 1 then e - pageRw + (if e / pageCow % 2 = 1 then 0 else pageCow)
    else e

namespace Phys

variable (st : Phys)

/-- `memcpy` of a frame. -/
def copyFrame (dst src : Nat) : Phys :=
  { st with
    mem := fun x => if dst ≤ x ∧ x < dst + pageSize then st.mem (src + (x - dst)) else st.mem x }

/-- `clonePageDir` takes references on the frames of the first `n` entries of a table. -/
def addRefs (t : Nat) : Nat → Phys → Phys
  | 0, st => st
  | n + 1, st =>
      let st := addRefs t n st
      let e := st.entry t n
      if present e then (st.checkPhysAddr (addr e)).addRef (addr e) else st

/-- `clonePageDir` write-protects the first `n` entries of a table. -/
def protectEntries (t : Nat) : Nat → Phys → Phys
  | 0, st => st
  | n + 1, st => let st := protectEntries t n st; st.setEntry t n (protect (st.entry t n))

/-- One round of `clonePageDir`; the flag is false when there is no frame for a
table. -/
def cloneEntry (src pd i : Nat) : Bool × Phys :=
  let pde := st.entry src i
  if ¬ present pde then (true, st)
  else if user pde then
    match st.allocFrame with
    | (none, st) => (false, st)
    | (some newPt, st) =>
        let st := st.checkPhysAddr (addr pde)
        let st := st.copyFrame newPt (addr pde)
        let st := st.setEntry pd i (mkEntry newPt (pde % pageSize))
        let st := addRefs newPt pteCount st
        (true, protectEntries newPt pteCount st)
  else (true, st.setEntry pd i pde)

/-- The loop of `clonePageDir` over the first `n` entries, with the entry at which
it failed. -/
def cloneEntries (src pd : Nat) : Nat → Phys → Option Nat × Phys
  | 0, st => (none, st)
  | n + 1, st =>
      match cloneEntries src pd n st with
      | (some i, st) => (some i, st)
      | (none, st) =>
          match st.cloneEntry src pd n with
          | (true, st) => (none, st)
          | (false, st) => (some n, st)

/-- `rollback` drops the references of the first `n` entries of a table. -/
def removeRefs (t : Nat) : Nat → Phys → Phys
  | 0, st => st
  | n + 1, st =>
      let st := removeRefs t n st
      if present (st.entry t n) then (st.removeRef (addr (st.entry t n))).2 else st

/-- The user tables among the first `n` entries of `pd` are given up, each of
them by `release` and then freed. -/
def releaseEntries (release : Nat → Phys → Phys) (pd : Nat) : Nat → Phys → Phys
  | 0, st => st
  | n + 1, st =>
      let st := releaseEntries release pd n st
      let pde := st.entry pd n
      if present pde ∧ user pde then (release (addr pde) st).freeFrame (addr pde) else st

/-- `rollback(upTo)` of `clonePageDir`. -/
def rollback (pd upTo : Nat) : Phys :=
  (releaseEntries (fun t st => removeRefs t pteCount st) pd upTo st).freeFrame pd

/-- `Paging::clonePageDir`; 0 is failure. -/
def clonePageDir (src : Nat) : Nat × Phys :=
  match st.allocFrame with
  | (none, st) => (0, st)
  | (some pd, st) =>
      match cloneEntries src pd pteCount st with
      | (some i, st) => (0, st.rollback pd i)
      | (none, st) => (pd, st)

/-- `Paging::freePageDirectory`. -/
def freePageDirectory (dir : Nat) : Phys :=
  releaseEntries (fun t st => dropEntries t pteCount (st.checkPhysAddr t)) dir pteCount st

end Phys

open Phys

variable {src pd a g t n m i j k : Nat} {L : List Nat} {st st₀ st' : Phys}
  {mem mem' : Nat → BitVec 8}

/-! ## counting references -/

/-- The frames of the present entries among the first `n` of a table. -/
def tableFrames (mem : Nat → BitVec 8) (t : Nat) : Nat → List Nat
  | 0 => []
  | n + 1 => tableFrames mem t n ++ if present (word mem (t + 4 * n))
      then [addr (word mem (t + 4 * n))] else []

/-- How many of the frames `L` have number `m`, among the numbers below `max`. -/
def tally (max : Nat) (L : List Nat) (m : Nat) : Nat :=
  if m < max then L.countP fun g => g / pageSize = m else 0

/-- Frames of both lists. -/
theorem tally_append (max : Nat) (L L' : List Nat) (m : Nat) :
    tally max (L ++ L') m = tally max L m + tally max L' m := by
  unfold tally
  split
  · exact List.countP_append
  · rfl

theorem tally_nil (max m : Nat) : tally max [] m = 0 := by simp [tally]

/-- A counted frame counts for itself. -/
theorem tally_self {max : Nat} (h : a / pageSize < max) : tally max [a] (a / pageSize) = 1 := by
  simp [tally, h]

/-- A number that no frame has. -/
theorem tally_of_ne {max : Nat} (h : ∀ g ∈ L, m < max → g / pageSize ≠ m) : tally max L m = 0 := by
  unfold tally
  split
  · next hm => exact List.countP_eq_zero.mpr fun g hg => by simpa using h g hg hm
  · rfl

/-- A number that is counted has a frame. -/
theorem tally_ne_zero {max : Nat} (h : tally max L m ≠ 0) :
    m < max ∧ ∃ g ∈ L, g / pageSize = m := by
  by_contra hno
  refine h (tally_of_ne fun g hg hm heq => hno ⟨hm, g, hg, heq⟩)

/-- Only the counts changed. -/
structure Recounted (st st' : Phys) (refs : Nat → Nat) : Prop where
  mem : st'.mem = st.mem
  free : st'.free = st.free
  max : st'.maxFrameIdx = st.maxFrameIdx
  refs : ∀ m, st'.refs m = refs m

/-- A check counts nothing. -/
theorem recounted_check (st : Phys) (a : Nat) : Recounted st (st.checkPhysAddr a) st.refs := by
  unfold Phys.checkPhysAddr
  split
  · exact ⟨rfl, rfl, rfl, fun _ => rfl⟩
  · exact ⟨rfl, rfl, rfl, fun _ => rfl⟩

/-- One count is set. -/
theorem setRef_recounted (st : Phys) (a c : Nat) :
    Recounted st (st.setRef a c) fun m => if m = a / pageSize then c else st.refs m :=
  ⟨rfl, rfl, rfl, fun _ => Function.update_apply ..⟩

/-- One count goes up, where there is room. -/
theorem addRef_recounted
    (h : ∀ m < st.maxFrameIdx, st.refs m + tally st.maxFrameIdx [a] m ≤ maxRefcount) :
    Recounted st (st.addRef a) fun m => st.refs m + tally st.maxFrameIdx [a] m := by
  unfold Phys.addRef Phys.Counted
  by_cases hc : a / pageSize < st.maxFrameIdx
  · have ha := h _ hc
    rw [tally_self hc] at ha
    rw [if_pos ⟨hc, by omega⟩]
    refine ⟨rfl, rfl, rfl, fun m => ?_⟩
    rw [(setRef_recounted st a _).refs m]
    split
    · next hm => rw [hm, tally_self hc]
    · next hm => rw [tally_of_ne (by simpa using fun _ h => hm h.symm), Nat.add_zero]
  · rw [if_neg fun h => hc h.1]
    refine ⟨rfl, rfl, rfl, fun m => ?_⟩
    rw [tally_of_ne (fun g hg hm heq => hc (by rwa [← List.mem_singleton.mp hg, heq])),
      Nat.add_zero]

/-- One count goes down, where there is something to count. -/
theorem removeRef_recounted (h : ∀ m, tally st.maxFrameIdx [a] m ≤ st.refs m) :
    Recounted st (st.removeRef a).2 fun m => st.refs m - tally st.maxFrameIdx [a] m := by
  have ha := h (a / pageSize)
  unfold Phys.removeRef Phys.Counted
  by_cases hc : a / pageSize < st.maxFrameIdx
  · rw [tally_self hc] at ha
    rw [if_neg (not_not.mpr hc), if_neg (by omega)]
    refine ⟨rfl, rfl, rfl, fun m => ?_⟩
    rw [(setRef_recounted st a _).refs m]
    split
    · next hm => rw [hm, tally_self hc]
    · next hm => rw [tally_of_ne (by simpa using fun _ h => hm h.symm), Nat.sub_zero]
  · rw [if_pos hc]
    refine ⟨rfl, rfl, rfl, fun m => ?_⟩
    rw [tally_of_ne (fun g hg hm heq => hc (by rwa [← List.mem_singleton.mp hg, heq])),
      Nat.sub_zero]

/-- A frame that keeps a reference is not freed. -/
theorem dropRef_eq_removeRef (h : st.Counted a → 1 < st.refs (a / pageSize)) :
    st.dropRef a = (st.removeRef a).2 := by
  unfold Phys.dropRef Phys.removeRef
  by_cases hc : st.Counted a
  · have hlt := h hc
    have hself : (st.setRef a (st.refs (a / pageSize) - 1)).refs (a / pageSize) =
        st.refs (a / pageSize) - 1 :=
      Function.update_self ..
    simp only [hc, not_true_eq_false, if_false, show st.refs (a / pageSize) ≠ 0 by omega, hself,
      show st.refs (a / pageSize) - 1 ≠ 0 by omega, decide_false]
  · simp only [hc, not_false_eq_true, if_true]

/-- What `CHECK_PHYS_ADDR` accepts. -/
def Sound (max a : Nat) : Prop := a ≠ 0 ∧ a < max * pageSize % 2 ^ 32

/-- A check is passed exactly by sound addresses. -/
theorem check_calm : (st.checkPhysAddr a).panicked = false ↔
    st.panicked = false ∧ Sound st.maxFrameIdx a := by
  unfold Phys.checkPhysAddr Sound Phys.panic
  split
  · next hbad =>
      simp only [Bool.true_eq_false, false_iff, not_and, not_lt]
      rintro - ha
      exact hbad.resolve_left ha
  · next hok =>
      simp only [not_or, not_le] at hok
      exact ⟨fun hp => ⟨hp, hok⟩, fun h => h.1⟩

/-- Counting down from 1 or more does not panic. -/
theorem removeRef_panicked (h : a / pageSize < st.maxFrameIdx → st.refs (a / pageSize) ≠ 0) :
    (st.removeRef a).2.panicked = st.panicked := by
  unfold Phys.removeRef Phys.Counted
  split
  · rfl
  · next hc =>
      rw [if_neg (h (not_not.mp hc))]
      rfl

/-- Counting up does not panic. -/
theorem addRef_panicked (st : Phys) (a : Nat) :
    (st.addRef a).panicked = st.panicked ∧ (st.addRef a).mem = st.mem ∧
    (st.addRef a).maxFrameIdx = st.maxFrameIdx := by
  unfold Phys.addRef
  split
  · exact ⟨rfl, rfl, rfl⟩
  · exact ⟨rfl, rfl, rfl⟩

/-! ## the loops over a table -/

/-- One more entry of a table. -/
theorem tally_tableFrames_succ (max m : Nat) (mem : Nat → BitVec 8) (t n : Nat) :
    tally max (tableFrames mem t (n + 1)) m = tally max (tableFrames mem t n) m +
      tally max (if present (word mem (t + 4 * n)) then [addr (word mem (t + 4 * n))] else [])
        m := by
  rw [tableFrames, tally_append]

/-- Every frame of a table is counted once more. -/
theorem addRefs_recounted (t n : Nat) (h : ∀ m < st.maxFrameIdx,
    st.refs m + tally st.maxFrameIdx (tableFrames st.mem t n) m ≤ maxRefcount) :
    Recounted st (addRefs t n st) fun m => st.refs m + tally st.maxFrameIdx
      (tableFrames st.mem t n) m := by
  induction n with
  | zero => exact ⟨rfl, rfl, rfl, fun m => by simp [tableFrames, tally_nil, addRefs]⟩
  | succ n ih =>
      simp only [tally_tableFrames_succ] at *
      have hn := ih fun m hm => (by have := h m hm; omega)
      rw [addRefs]
      simp only [Phys.entry, hn.mem]
      split
      · next hp =>
          simp only [hp, if_true] at h ⊢
          have hc := recounted_check (addRefs t n st) (addr (word st.mem (t + 4 * n)))
          have ha := @addRef_recounted (addr (word st.mem (t + 4 * n)))
              ((addRefs t n st).checkPhysAddr (addr (word st.mem (t + 4 * n)))) fun m hm => by
              rw [hc.max, hn.max] at hm
              have := h m hm
              rw [hc.refs, hn.refs, hc.max, hn.max]
              omega
          refine ⟨ha.mem.trans (hc.mem.trans hn.mem), ha.free.trans (hc.free.trans hn.free),
            ha.max.trans (hc.max.trans hn.max), fun m => ?_⟩
          rw [ha.refs, hc.refs, hn.refs, hc.max, hn.max, Nat.add_assoc]
      · next hp =>
          refine ⟨hn.mem, hn.free, hn.max, fun m => ?_⟩
          rw [tally_nil, Nat.add_zero]
          exact hn.refs m

/-- One more entry of a table. -/
theorem mem_tableFrames_succ : g ∈ tableFrames mem t (n + 1) ↔
    g ∈ tableFrames mem t n ∨
      (present (word mem (t + 4 * n)) = true ∧ g = addr (word mem (t + 4 * n))) := by
  rw [tableFrames, List.mem_append]
  split
  · next hp => simp [hp]
  · next hp => simp [hp]

/-- A table is copied without a panic only when its frames are sound. -/
theorem addRefs_calm (t n : Nat) : (addRefs t n st).mem = st.mem ∧
    (addRefs t n st).maxFrameIdx = st.maxFrameIdx ∧
    ((addRefs t n st).panicked = false → st.panicked = false ∧ ∀ g ∈ tableFrames st.mem t n,
      Sound st.maxFrameIdx g) := by
  induction n with
  | zero => exact ⟨rfl, rfl, fun hp => ⟨hp, by simp [tableFrames]⟩⟩
  | succ n ih =>
      obtain ⟨hmem, hmax, hcalm⟩ := ih
      rw [addRefs]
      simp only [Phys.entry, hmem]
      split
      · next hp =>
          generalize haddr : addr (word st.mem (t + 4 * n)) = g₀
          have hc := recounted_check (addRefs t n st) g₀
          obtain ⟨hp₁, hp₂, hp₃⟩ := addRef_panicked ((addRefs t n st).checkPhysAddr g₀) g₀
          refine ⟨hp₂.trans (hc.mem.trans hmem), hp₃.trans (hc.max.trans hmax), fun hpan => ?_⟩
          rw [hp₁, check_calm, hmax] at hpan
          obtain ⟨h₁, h₂⟩ := hcalm hpan.1
          refine ⟨h₁, fun g hg => ?_⟩
          rcases mem_tableFrames_succ.mp hg with hg | ⟨-, rfl⟩
          · exact h₂ g hg
          · exact haddr ▸ hpan.2
      · next hp =>
          refine ⟨hmem, hmax, fun hpan => ?_⟩
          obtain ⟨h₁, h₂⟩ := hcalm hpan
          refine ⟨h₁, fun g hg => ?_⟩
          rcases mem_tableFrames_succ.mp hg with hg | ⟨hp', -⟩
          · exact h₂ g hg
          · exact absurd hp' hp

/-- Every frame of a table is counted once less. -/
theorem removeRefs_recounted (t n : Nat)
    (h : ∀ m, tally st.maxFrameIdx (tableFrames st.mem t n) m ≤ st.refs m) :
    Recounted st (removeRefs t n st) fun m =>
      st.refs m - tally st.maxFrameIdx (tableFrames st.mem t n) m := by
  induction n with
  | zero => exact ⟨rfl, rfl, rfl, fun m => by simp [tableFrames, tally_nil, removeRefs]⟩
  | succ n ih =>
      simp only [tally_tableFrames_succ] at *
      have hn := ih fun m => (by have := h m; omega)
      rw [removeRefs]
      simp only [Phys.entry, hn.mem]
      split
      · next hp =>
          simp only [hp, if_true] at h ⊢
          have ha :=
            @removeRef_recounted (addr (word st.mem (t + 4 * n))) (removeRefs t n st) fun m => by
            have := h m
            rw [hn.refs, hn.max]
            omega
          refine ⟨ha.mem.trans hn.mem, ha.free.trans hn.free, ha.max.trans hn.max, fun m => ?_⟩
          rw [ha.refs, hn.refs, hn.max, Nat.sub_sub]
      · next hp =>
          refine ⟨hn.mem, hn.free, hn.max, fun m => ?_⟩
          rw [tally_nil, Nat.add_zero]
          exact hn.refs m

/-- Counting a table down does not panic. -/
theorem removeRefs_panicked (t n : Nat)
    (h : ∀ m, tally st.maxFrameIdx (tableFrames st.mem t n) m ≤ st.refs m) :
    (removeRefs t n st).panicked = st.panicked := by
  induction n with
  | zero => rfl
  | succ n ih =>
      simp only [tally_tableFrames_succ] at h
      have hle : ∀ m, tally st.maxFrameIdx (tableFrames st.mem t n) m ≤ st.refs m :=
        fun m => by have := h m; omega
      have hn := removeRefs_recounted t n hle
      rw [removeRefs]
      simp only [Phys.entry, hn.mem]
      split
      · next hp =>
          refine (removeRef_panicked fun hc => ?_).trans (ih hle)
          rw [hn.max] at hc
          have := h (addr (word st.mem (t + 4 * n)) / pageSize)
          rw [if_pos hp, tally_self hc] at this
          rw [hn.refs]
          omega
      · exact ih hle

/-- `freePageDirectory` and `clearPageTable` do the same as `rollback`, and free
what loses its last reference; here nothing does. -/
theorem dropEntries_recounted (t n : Nat)
    (h : ∀ m, tally st.maxFrameIdx (tableFrames st.mem t n) m = 0 ∨
      tally st.maxFrameIdx (tableFrames st.mem t n) m < st.refs m) :
    Recounted st (dropEntries t n st) fun m =>
      st.refs m - tally st.maxFrameIdx (tableFrames st.mem t n) m := by
  induction n with
  | zero => exact ⟨rfl, rfl, rfl, fun m => by simp [tableFrames, tally_nil, dropEntries]⟩
  | succ n ih =>
      simp only [tally_tableFrames_succ] at *
      have hn := ih fun m => (by have := h m; omega)
      rw [dropEntries]
      simp only [Phys.entry, hn.mem, Phys.dropEntry]
      split
      · next hp =>
          simp only [hp, if_true] at h ⊢
          generalize addr (word st.mem (t + 4 * n)) = g at *
          have hc := recounted_check (dropEntries t n st) g
          have hdrop : ((dropEntries t n st).checkPhysAddr g).dropRef g =
              (((dropEntries t n st).checkPhysAddr g).removeRef g).2 := by
            refine dropRef_eq_removeRef fun hcount => ?_
            unfold Phys.Counted at hcount
            rw [hc.max, hn.max] at hcount
            have := h (g / pageSize)
            rw [tally_self hcount] at this
            rw [hc.refs, hn.refs]
            omega
          have ha := @removeRef_recounted g ((dropEntries t n st).checkPhysAddr g) fun m => by
            have := h m
            rw [hc.refs, hn.refs, hc.max, hn.max]
            omega
          rw [hdrop]
          refine ⟨ha.mem.trans (hc.mem.trans hn.mem), ha.free.trans (hc.free.trans hn.free),
            ha.max.trans (hc.max.trans hn.max),
            fun m => ?_⟩
          rw [ha.refs, hc.refs, hn.refs, hc.max, hn.max, Nat.sub_sub]
      · next hp =>
          refine ⟨hn.mem, hn.free, hn.max, fun m => ?_⟩
          rw [tally_nil, Nat.add_zero]
          exact hn.refs m

/-- Dropping a table does not panic while its frames are sound and shared. -/
theorem dropEntries_panicked (t n : Nat)
    (h : ∀ m, tally st.maxFrameIdx (tableFrames st.mem t n) m = 0 ∨
      tally st.maxFrameIdx (tableFrames st.mem t n) m < st.refs m)
        (hsound : ∀ g ∈ tableFrames st.mem t n, Sound st.maxFrameIdx g)
    (hcalm : st.panicked = false) : (dropEntries t n st).panicked = false := by
  induction n with
  | zero => exact hcalm
  | succ n ih =>
      simp only [tally_tableFrames_succ] at h
      have hle : ∀ m, tally st.maxFrameIdx (tableFrames st.mem t n) m = 0 ∨
          tally st.maxFrameIdx (tableFrames st.mem t n) m < st.refs m :=
            fun m => by have := h m; omega
      have hn := dropEntries_recounted t n hle
      have hcalm' := ih hle fun g hg => hsound g (mem_tableFrames_succ.mpr (.inl hg))
      rw [dropEntries]
      simp only [Phys.entry, hn.mem, Phys.dropEntry]
      split
      · next hp =>
          have hg := hsound _ (mem_tableFrames_succ.mpr (.inr ⟨hp, rfl⟩))
          simp only [hp, if_true] at h
          generalize addr (word st.mem (t + 4 * n)) = g at *
          have hc := recounted_check (dropEntries t n st) g
          have hlt : g / pageSize < st.maxFrameIdx →
              1 < ((dropEntries t n st).checkPhysAddr g).refs (g / pageSize) := by
            intro hcount
            have := h (g / pageSize)
            rw [tally_self hcount] at this
            rw [hc.refs, hn.refs]
            omega
          rw [dropRef_eq_removeRef fun hcount =>
            hlt (by unfold Phys.Counted at hcount; rwa [hc.max, hn.max] at hcount),
            removeRef_panicked fun hcount => by
              have := hlt (by rwa [hc.max, hn.max] at hcount); omega]
          exact check_calm.mpr ⟨hcalm', by rwa [hn.max]⟩
      · exact hcalm'

/-! ## copying a table -/

/-- A protected entry is a word. -/
theorem protect_lt {e : Nat} (he : e < 2 ^ 32) : protect e < 2 ^ 32 := by
  unfold protect pageRw pageCow at *
  split
  · split
    · omega
    · omega
  · exact he

/-- Protection keeps the page. -/
theorem protect_same (e : Nat) : present (protect e) = present e ∧ addr (protect e) = addr e := by
  unfold protect
  split
  · next h =>
      obtain ⟨-, hrw⟩ := h
      unfold present addr pageRw pageCow pageSize at *
      split
      · exact ⟨by rw [decide_eq_decide]; omega, by omega⟩
      · exact ⟨by rw [decide_eq_decide]; omega, by omega⟩
  · exact ⟨rfl, rfl⟩

/-- Frames of the same entries. -/
theorem tableFrames_congr {t' : Nat}
    (h : ∀ k < n, present (word mem' (t' + 4 * k)) = present (word mem (t + 4 * k)) ∧
    addr (word mem' (t' + 4 * k)) = addr (word mem (t + 4 * k))) : tableFrames mem' t' n =
      tableFrames mem t n := by
  induction n with
  | zero => rfl
  | succ n ih =>
      obtain ⟨hp, ha⟩ := h n (by omega)
      rw [tableFrames, tableFrames, ih fun k hk => h k (by omega), hp, ha]

/-- When some address passes the check, every counted frame but the first does. -/
theorem Sound.of_lt {max b : Nat} (h : Sound max b) (hmax : max ≤ maxFrames) (ha : a ≠ 0)
    (hal : a % pageSize = 0)
    (hlt : a / pageSize < max) : Sound max a := by
  obtain ⟨-, hb⟩ := h
  refine ⟨ha, ?_⟩
  unfold pageSize maxFrames at *
  omega

/-- What only changes the words of the frame `t`. -/
structure Written (t : Nat) (st st' : Phys) : Prop where
  mem : ∀ x, x < t ∨ t + pageSize ≤ x → st'.mem x = st.mem x
  free : st'.free = st.free
  max : st'.maxFrameIdx = st.maxFrameIdx
  refs : st'.refs = st.refs
  panicked : st'.panicked = st.panicked

/-- Protection writes one table. -/
theorem protectEntries_written (t : Nat) (hn : n ≤ pteCount) :
    Written t st (protectEntries t n st) := by
  induction n with
  | zero => exact ⟨fun _ _ => rfl, rfl, rfl, rfl, rfl⟩
  | succ n ih =>
      have hw := ih (by omega)
      refine ⟨fun x hx => ?_, hw.free, hw.max, hw.refs, hw.panicked⟩
      rw [protectEntries]
      refine Eq.trans (setWord_of_ne _ ?_) (hw.mem x hx)
      unfold pageSize at hx
      unfold pteCount at hn
      omega

/-- The entries before and behind the loop. -/
theorem protectEntries_word (t k : Nat) :
    word (protectEntries t n st).mem (t + 4 * k) = if k < n then protect (word st.mem (t + 4 * k))
      else word st.mem (t + 4 * k) := by
  induction n with
  | zero => rw [if_neg (by omega), protectEntries]
  | succ n ih =>
      rw [protectEntries]
      show word (setWord _ _ _) _ = _
      by_cases hkn : k = n
      · subst hkn
        rw [Phys.entry, word_setWord _ (protect_lt (word_lt _ _)), ih, if_neg (by omega),
          if_pos (by omega)]
      · rw [word_setWord_of_ne hkn, ih]
        by_cases hlt : k < n
        · rw [if_pos hlt, if_pos (by omega)]
        · rw [if_neg hlt, if_neg (by omega)]

/-- The copy has the entries of the source. -/
theorem copyFrame_word (st : Phys) (dst src : Nat) (hk : k < pteCount) :
    word (st.copyFrame dst src).mem (dst + 4 * k) = word st.mem (src + 4 * k) := by
  have hb : ∀ x < 4, (st.copyFrame dst src).mem (dst + 4 * k + x) = st.mem (src + 4 * k + x) := by
    intro x hx
    show (if _ then _ else _) = _
    unfold pteCount at hk
    rw [if_pos ⟨by omega, by unfold pageSize; omega⟩]
    congr 1
    omega
  have h₀ := hb 0 (by decide)
  simp only [Nat.add_zero] at h₀
  simp only [word, h₀, hb 1 (by decide), hb 2 (by decide), hb 3 (by decide)]

/-! ## cloning -/

/-- The entries of user tables among the first `n`. -/
def userEntries (mem : Nat → BitVec 8) (dir n : Nat) : List Nat :=
  (List.range n).filter fun i => present (word mem (dir + 4 * i)) ∧ user (word mem (dir + 4 * i))

/-- The table of entry `i`. -/
def tableOf (mem : Nat → BitVec 8) (dir i : Nat) : Nat := addr (word mem (dir + 4 * i))

/-- The frames that the user tables map, each as often as it is mapped. -/
def dirFrames (mem : Nat → BitVec 8) (dir n : Nat) : List Nat :=
  (userEntries mem dir n).flatMap fun i => tableFrames mem (tableOf mem dir i) pteCount

/-- The user tables of a directory. -/
theorem mem_userEntries : i ∈ userEntries mem src n ↔
    i < n ∧ present (word mem (src + 4 * i)) = true ∧ user (word mem (src + 4 * i)) = true := by
  unfold userEntries
  rw [List.mem_filter, List.mem_range, decide_eq_true_iff]

/-- One more entry of the directory. -/
theorem userEntries_succ (mem : Nat → BitVec 8) (dir n : Nat) : userEntries mem dir (n + 1) =
    userEntries mem dir n ++ if present (word mem (dir + 4 * n)) ∧
      user (word mem (dir + 4 * n)) then [n] else [] := by
  unfold userEntries
  rw [List.range_succ, List.filter_append]
  split
  · next h => simp [h]
  · next h => simp [h]

/-- One more entry of the directory. -/
theorem dirFrames_succ (mem : Nat → BitVec 8) (dir n : Nat) :
    dirFrames mem dir (n + 1) = dirFrames mem dir n ++
    if present (word mem (dir + 4 * n)) ∧ user (word mem (dir + 4 * n))
      then tableFrames mem (tableOf mem dir n) pteCount else [] := by
  unfold dirFrames
  rw [userEntries_succ, List.flatMap_append]
  split
  · simp
  · simp

/-- More entries, more frames. -/
theorem dirFrames_mono {n' : Nat} (h : n ≤ n') (hg : g ∈ dirFrames mem src n) :
    g ∈ dirFrames mem src n' := by
  unfold dirFrames at *
  obtain ⟨i, hi, hg⟩ := List.mem_flatMap.mp hg
  obtain ⟨hlt, hi⟩ := mem_userEntries.mp hi
  exact List.mem_flatMap.mpr ⟨i, mem_userEntries.mpr ⟨by omega, hi⟩, hg⟩

/-- The frames of a table begin at a page. -/
theorem tableFrames_aligned : ∀ g ∈ tableFrames mem t n, g % pageSize = 0 := by
  induction n with
  | zero => simp [tableFrames]
  | succ n ih =>
      intro g hg
      rw [tableFrames, List.mem_append] at hg
      rcases hg with hg | hg
      · exact ih g hg
      · split at hg
        · rw [List.mem_singleton.mp hg]
          exact addr_mod _
        · simp at hg

/-- The frames of a directory begin at a page. -/
theorem dirFrames_aligned : ∀ g ∈ dirFrames mem src n, g % pageSize = 0 := by
  intro g hg
  obtain ⟨i, -, hg⟩ := List.mem_flatMap.mp hg
  exact tableFrames_aligned g hg

/-- **A directory that can be cloned**: the free frames are the allocator's own,
neither the directory nor its tables nor what they map are among them, and no
count passes the limit when each mapping takes one reference more. -/
structure Cloneable (src : Nat) (st : Phys) : Prop where
  nodup : st.free.Nodup
  pool : ∀ a ∈ st.free, a % pageSize = 0 ∧ a ≠ 0 ∧ a < 2 ^ 32 ∧ a / pageSize < st.maxFrameIdx ∧
    st.refs (a / pageSize) = 0
  src_aligned : src % pageSize = 0
  src_used : src ∉ st.free
  tab_used : ∀ i ∈ userEntries st.mem src pteCount, tableOf st.mem src i ∉ st.free
  frame_used : ∀ g ∈ dirFrames st.mem src pteCount, g ∉ st.free
  frames : st.maxFrameIdx ≤ maxFrames
  limit : ∀ m < st.maxFrameIdx, st.refs m + tally st.maxFrameIdx
    (dirFrames st.mem src pteCount) m ≤ maxRefcount

/-- A table and its frames pass `CHECK_PHYS_ADDR`. -/
def SoundTable (max : Nat) (mem : Nat → BitVec 8) (t : Nat) : Prop :=
  Sound max t ∧ ∀ g ∈ tableFrames mem t pteCount, Sound max g

/-- The numbers of frames. -/
def numbers (l : List Nat) : List Nat := l.map (· / pageSize)

/-- The state after the first `n` entries were copied to `pd`; `tab i` is the
table that entry `i` got. -/
structure Cloning (st₀ : Phys) (src pd n : Nat) (tab : Nat → Nat) (st : Phys) : Prop where
  free : st₀.free = pd :: ((userEntries st₀.mem src n).map tab ++ st.free)
  mem : ∀ x, (x < pd ∨ pd + pageSize ≤ x) →
    (∀ i ∈ userEntries st₀.mem src n, x < tab i ∨ tab i + pageSize ≤ x) →
    st.mem x = st₀.mem x
  dir : ∀ i < n,
    ((present (word st.mem (pd + 4 * i)) = true ∧ user (word st.mem (pd + 4 * i)) = true) ↔
    i ∈ userEntries st₀.mem src n) ∧ (i ∈ userEntries st₀.mem src n → tableOf st.mem pd i = tab i)
  rest : ∀ i, n ≤ i → i < pteCount → word st.mem (pd + 4 * i) = 0
  tables : ∀ i ∈ userEntries st₀.mem src n,
    tableFrames st.mem (tab i) pteCount = tableFrames st₀.mem (tableOf st₀.mem src i) pteCount
  max : st.maxFrameIdx = st₀.maxFrameIdx
  refs : ∀ m, st.refs m = (if m ∈ numbers (pd :: (userEntries st₀.mem src n).map tab) then 1
    else st₀.refs m) +
    tally st₀.maxFrameIdx (dirFrames st₀.mem src n) m
  calm : st.panicked = false → st₀.panicked = false ∧
    ∀ i ∈ userEntries st₀.mem src n, SoundTable st₀.maxFrameIdx st₀.mem (tableOf st₀.mem src i)

/-- The number of a frame that was free is none of a mapped frame. -/
theorem Cloneable.tally_free (hc : Cloneable src st) (hn : n ≤ pteCount) (ha : a ∈ st.free) :
    tally st.maxFrameIdx (dirFrames st.mem src n) (a / pageSize) = 0 := by
  refine tally_of_ne fun g hg _ heq => ?_
  have hgf := hc.frame_used g (dirFrames_mono hn hg)
  have hga := dirFrames_aligned g hg
  have haa := (hc.pool a ha).1
  exact hgf ((show g = a by unfold pageSize at *; omega) ▸ ha)

/-- More entries, more references. -/
theorem tally_dirFrames_mono (mem : Nat → BitVec 8) (src max m : Nat) {n' : Nat} (h : n ≤ n') :
    tally max (dirFrames mem src n) m ≤ tally max (dirFrames mem src n') m := by
  induction n', h using Nat.le_induction with
  | base => exact le_rfl
  | succ k _ ih =>
      rw [dirFrames_succ, tally_append]
      omega

/-- The first frame is the directory. -/
theorem cloning_start (hc : Cloneable src st₀) (h : st₀.allocFrame = (some pd, st)) :
    Cloning st₀ src pd 0 (fun _ => 0) st := by
  obtain ⟨hfree, hmem, hmax, hrefs, hpan⟩ := allocFrame_some h
  obtain ⟨-, -, -, hcount, -⟩ := hc.pool pd (by simp [hfree])
  refine ⟨hfree, fun x hx _ =>
    ?_, by simp, fun i _ hi => ?_, by simp [userEntries], hmax, fun m => ?_, fun hcalm => ?_⟩
  · rw [hmem, zeroFrame, if_neg (by omega)]
  · rw [hmem]
    exact word_zero (fun x hx hx' => by rw [zeroFrame, if_pos ⟨hx, hx'⟩]) hi
  · rw [hrefs hcount m]
    simp [userEntries, dirFrames, tally_nil, numbers]
  · exact ⟨hpan ▸ hcalm, by simp [userEntries]⟩

section Step

variable {tab : Nat → Nat}

/-- The frames that the clone got are not those of the source. -/
theorem Cloning.ne (h : Cloning st₀ src pd n tab st) (ha : a ∉ st₀.free) :
    a ≠ pd ∧ ∀ i ∈ userEntries st₀.mem src n, a ≠ tab i := by
  rw [h.free] at ha
  simp only [List.mem_cons, List.mem_append, List.mem_map, not_or, not_exists, not_and] at ha
  exact ⟨ha.1, fun i hi heq => ha.2.1 i hi heq.symm⟩

/-- The new tables were free. -/
theorem Cloning.pool (h : Cloning st₀ src pd n tab st) :
    pd ∈ st₀.free ∧ (∀ i ∈ userEntries st₀.mem src n, tab i ∈ st₀.free) ∧
      (∀ a ∈ st.free, a ∈ st₀.free) := by
  rw [h.free]
  refine ⟨by simp, fun i hi => ?_, fun a ha => by simp [ha]⟩
  exact List.mem_cons_of_mem _ (List.mem_append_left _ (List.mem_map_of_mem hi))

/-- What is not free is as it was. -/
theorem Cloning.same (hc : Cloneable src st₀) (h : Cloning st₀ src pd n tab st)
    (ha : a % pageSize = 0) (hfree : a ∉ st₀.free) :
    Same st₀.mem st.mem a := by
  obtain ⟨hpd, htab⟩ := h.ne hfree
  obtain ⟨hpd', htab', -⟩ := h.pool
  intro x hx hx'
  refine h.mem x ?_ fun i hi => ?_
  · have := (hc.pool pd hpd').1
    unfold pageSize at *
    omega
  · have := (hc.pool _ (htab' i hi)).1
    have := htab i hi
    unfold pageSize at *
    omega

/-- The frames of the clone are different ones. -/
theorem Cloning.apart (hc : Cloneable src st₀) (h : Cloning st₀ src pd n tab st)
    (hi : i ∈ userEntries st₀.mem src n) :
    tab i ≠ pd ∧ tab i ∉ st.free ∧ pd ∉ st.free := by
  have hnd := hc.nodup
  rw [h.free] at hnd
  obtain ⟨hpd, hnd⟩ := List.nodup_cons.mp hnd
  obtain ⟨-, -, hdisj⟩ := List.nodup_append.mp hnd
  have hin : tab i ∈ (userEntries st₀.mem src n).map tab := List.mem_map_of_mem hi
  refine ⟨fun heq => hpd ?_, fun hf => hdisj _ hin _ hf rfl,
    fun hf => hpd (List.mem_append_right _ hf)⟩
  rw [← heq]
  exact List.mem_append_left _ hin

/-- A table that does not change keeps its frames. -/
theorem tableFrames_same (h : Same mem mem' t) :
    tableFrames mem' t pteCount = tableFrames mem t pteCount :=
  tableFrames_congr fun _ hk => by rw [h.word hk]; exact ⟨rfl, rfl⟩

/-- An entry that is no user table. -/
theorem Cloning.step_skip (hc : Cloneable src st₀) (h : Cloning st₀ src pd n tab st)
    (hn : n < pteCount)
    (hno : ¬ (present (word st₀.mem (src + 4 * n)) = true ∧
      user (word st₀.mem (src + 4 * n)) = true))
    (hmem : ∀ x, x < pd + 4 * n ∨ pd + 4 * n + 4 ≤ x → st'.mem x = st.mem x)
    (hword : ¬ (present (word st'.mem (pd + 4 * n)) = true ∧
      user (word st'.mem (pd + 4 * n)) = true))
    (hfree : st'.free = st.free) (hmax : st'.maxFrameIdx = st.maxFrameIdx)
    (hrefs : st'.refs = st.refs)
    (hpan : st'.panicked = st.panicked) : Cloning st₀ src pd (n + 1) tab st' := by
  have hue : userEntries st₀.mem src (n + 1) = userEntries st₀.mem src n := by
    rw [userEntries_succ, if_neg hno, List.append_nil]
  have hdf : dirFrames st₀.mem src (n + 1) = dirFrames st₀.mem src n := by
    rw [dirFrames_succ, if_neg hno, List.append_nil]
  have hother : ∀ i, i ≠ n → word st'.mem (pd + 4 * i) = word st.mem (pd + 4 * i) := fun i hi =>
    word_congr fun x hx hx' => hmem x (by omega)
  have hout : ∀ x, x < pd ∨ pd + pageSize ≤ x → st'.mem x = st.mem x := by
    intro x hx
    refine hmem x ?_
    unfold pageSize at hx
    unfold pteCount at hn
    omega
  refine ⟨?_, ?_, ?_, ?_, ?_, hmax.trans h.max, ?_, fun hcalm => hue ▸ h.calm (hpan ▸ hcalm)⟩
  · rw [hue, hfree]
    exact h.free
  · intro x hx hx'
    rw [hue] at hx'
    rw [hout x hx]
    exact h.mem x hx hx'
  · intro i hi
    rw [hue]
    by_cases hin : i = n
    · subst hin
      have hmem' : i ∉ userEntries st₀.mem src i :=
        fun hm => by have := (mem_userEntries.mp hm).1; omega
      exact ⟨⟨fun hw => absurd hw hword, fun hm => absurd hm hmem'⟩, fun hm => absurd hm hmem'⟩
    · unfold tableOf
      rw [hother i hin]
      exact h.dir i (by omega)
  · intro i hi hi'
    rw [hother i (by omega)]
    exact h.rest i (by omega) hi'
  · intro i hi
    rw [hue] at hi
    have hta := (hc.pool _ (h.pool.2.1 i hi)).1
    rw [tableFrames_same (same_of_outside hta (hc.pool _ h.pool.1).1 (h.apart hc hi).1 hout)]
    exact h.tables i hi
  · intro m
    rw [hue, hdf, hrefs]
    exact h.refs m

/-- A user table is copied: its frames are those of the old one, and each of them
has a reference more. -/
theorem copyTable_spec {old e : Nat} {st₁ : Phys} (halloc : st.allocFrame = (some t, st₁))
    (ht : t % pageSize = 0)
    (hpd : pd % pageSize = 0) (hold : old % pageSize = 0) (hne : pd ≠ t) (hot : old ≠ t)
    (hn : n < pteCount)
    (he : e < 2 ^ 32) (hcount : t / pageSize < st.maxFrameIdx)
    (hlimit : ∀ m < st.maxFrameIdx, (if m = t / pageSize then 1 else st.refs m) +
      tally st.maxFrameIdx (tableFrames st.mem old pteCount) m ≤ maxRefcount)
    (hst' : st' = protectEntries t pteCount (addRefs t pteCount
      (((st₁.checkPhysAddr old).copyFrame t old).setEntry pd n e))) :
    st.free = t :: st'.free ∧ st'.maxFrameIdx = st.maxFrameIdx ∧
      (∀ x, (x < pd + 4 * n ∨ pd + 4 * n + 4 ≤ x) → (x < t ∨ t + pageSize ≤ x) →
        st'.mem x = st.mem x) ∧
      word st'.mem (pd + 4 * n) = e ∧ tableFrames st'.mem t pteCount =
        tableFrames st.mem old pteCount ∧
      (∀ m, st'.refs m = (if m = t / pageSize then 1 else st.refs m) + tally st.maxFrameIdx
        (tableFrames st.mem old pteCount) m) ∧
      (st'.panicked = false → st.panicked = false ∧ SoundTable st.maxFrameIdx st.mem old) := by
  obtain ⟨hfree, hmem₁, hmax₁, hrefs₁, hpan₁⟩ := allocFrame_some halloc
  have hcheck := recounted_check st₁ old
  generalize h₂ : (st₁.checkPhysAddr old).copyFrame t old = st₂ at hst'
  generalize h₃ : st₂.setEntry pd n e = st₃ at hst'
  -- memory up to the new entry
  have hmem₂ : ∀ x, x < t ∨ t + pageSize ≤ x → st₂.mem x = st.mem x := by
    intro x hx
    have hcopy : st₂.mem x = (st₁.checkPhysAddr old).mem x := by
      rw [← h₂]
      exact if_neg (by omega)
    rw [hcopy, hcheck.mem, hmem₁, zeroFrame, if_neg (by omega)]
  have hword₂ : ∀ k < pteCount, word st₂.mem (t + 4 * k) = word st.mem (old + 4 * k) := by
    intro k hk
    have hsame : Same st.mem st₁.mem old := same_of_outside hold ht hot fun x hx => by
      rw [hmem₁, zeroFrame, if_neg (by omega)]
    rw [← h₂, copyFrame_word _ _ _ hk, hcheck.mem, hsame.word hk]
  have hmem₃ : ∀ x, x < pd + 4 * n ∨ pd + 4 * n + 4 ≤ x → st₃.mem x = st₂.mem x := by
    intro x hx
    rw [← h₃]
    exact setWord_of_ne _ hx
  have hword₃ : ∀ k < pteCount, word st₃.mem (t + 4 * k) = word st.mem (old + 4 * k) := by
    intro k hk
    rw [← hword₂ k hk, ← h₃]
    exact (same_setWord ht hpd hne.symm hn).word hk
  have htab₃ : tableFrames st₃.mem t pteCount = tableFrames st.mem old pteCount :=
    tableFrames_congr fun k hk => by rw [hword₃ k hk]; exact ⟨rfl, rfl⟩
  have hrefs₃ : ∀ m, st₃.refs m = if m = t / pageSize then 1 else st.refs m := by
    intro m
    rw [← hrefs₁ hcount m, ← hcheck.refs m, ← h₃, ← h₂]
    rfl
  have hmax₃ : st₃.maxFrameIdx = st.maxFrameIdx := by
    rw [← hmax₁, ← hcheck.max, ← h₃, ← h₂]
    rfl
  have hfree₃ : st₃.free = st₁.free := by
    rw [← hcheck.free, ← h₃, ← h₂]
    rfl
  -- the references and the write protection
  have hadd := @addRefs_recounted st₃ t pteCount fun m hm => by
    rw [hrefs₃, htab₃, hmax₃]
    exact hlimit m (hmax₃ ▸ hm)
  have hprot : Written t (addRefs t pteCount st₃) st' := hst' ▸ protectEntries_written t le_rfl
  refine ⟨?_, ?_, fun x hx hx' => ?_, ?_, ?_, fun m => ?_, fun hcalm => ?_⟩
  · rw [hfree, hprot.free, hadd.free, hfree₃]
  · rw [hprot.max, hadd.max, hmax₃]
  · rw [hprot.mem x hx', hadd.mem, hmem₃ x hx, hmem₂ x hx']
  · have hsame : Same (addRefs t pteCount st₃).mem st'.mem pd :=
      same_of_outside hpd ht hne hprot.mem
    rw [hsame.word hn, hadd.mem, ← h₃]
    exact word_setWord _ he
  · rw [← htab₃, ← hadd.mem, hst']
    refine tableFrames_congr fun k hk => ?_
    rw [protectEntries_word, if_pos hk]
    exact protect_same _
  · rw [hprot.refs, hadd.refs, hrefs₃, htab₃, hmax₃]
  · rw [hprot.panicked] at hcalm
    obtain ⟨hcalm₃, hframes⟩ := (addRefs_calm t pteCount).2.2 hcalm
    rw [htab₃, hmax₃] at hframes
    have hcalm₂ : (st₁.checkPhysAddr old).panicked = false := by
      rw [← hcalm₃, ← h₃, ← h₂]
      rfl
    rw [check_calm, hmax₁, hpan₁] at hcalm₂
    exact ⟨hcalm₂.1, hcalm₂.2, hframes⟩

/-- An entry of a user table. -/
theorem Cloning.step_user {st₁ : Phys} (hc : Cloneable src st₀) (h : Cloning st₀ src pd n tab st)
    (hn : n < pteCount)
    (hyes : present (word st₀.mem (src + 4 * n)) = true ∧ user (word st₀.mem (src + 4 * n)) = true)
    (halloc : st.allocFrame = (some t, st₁))
    (hst' : st' = protectEntries t pteCount
    (addRefs t pteCount (((st₁.checkPhysAddr (tableOf st₀.mem src n)).copyFrame t
      (tableOf st₀.mem src n)).setEntry pd n
        (mkEntry t (word st₀.mem (src + 4 * n) % pageSize))))) :
    Cloning st₀ src pd (n + 1) (Function.update tab n t) st' := by
  have hin : n ∈ userEntries st₀.mem src pteCount := mem_userEntries.mpr ⟨hn, hyes⟩
  have hnot : n ∉ userEntries st₀.mem src n := fun hm => by have := (mem_userEntries.mp hm).1; omega
  have hue : userEntries st₀.mem src (n + 1) = userEntries st₀.mem src n ++ [n] := by
    rw [userEntries_succ, if_pos hyes]
  have hdf : dirFrames st₀.mem src (n + 1) = dirFrames st₀.mem src n ++ tableFrames st₀.mem
      (tableOf st₀.mem src n) pteCount := by
    rw [dirFrames_succ, if_pos hyes]
  have htab : ∀ i ∈ userEntries st₀.mem src n, Function.update tab n t i = tab i := fun i hi =>
    Function.update_of_ne (fun heq : i = n => hnot (heq ▸ hi)) _ _
  have htf : t ∈ st.free := by simp [(allocFrame_some halloc).1]
  have ht₀ := h.pool.2.2 t htf
  obtain ⟨hta, -, htlt, htc, htr⟩ := hc.pool t ht₀
  obtain ⟨hpa, -, -, -, -⟩ := hc.pool pd h.pool.1
  have hpt : pd ≠ t := by
    rintro rfl
    have hnd := hc.nodup
    rw [h.free] at hnd
    exact (List.nodup_cons.mp hnd).1 (List.mem_append_right _ htf)
  have hold := hc.tab_used n hin
  have hframes : tableFrames st.mem (tableOf st₀.mem src n) pteCount =
      tableFrames st₀.mem (tableOf st₀.mem src n) pteCount :=
    tableFrames_same (h.same hc (addr_mod _) hold)
  have hfl : word st₀.mem (src + 4 * n) % pageSize < pageSize :=
    Nat.mod_lt _ (by unfold pageSize; omega)
  have htabs : (userEntries st₀.mem src (n + 1)).map (Function.update tab n t) =
      (userEntries st₀.mem src n).map tab ++ [t] := by
    rw [hue, List.map_append, List.map_singleton, Function.update_self, List.map_congr_left htab]
  have htaken : ∀ a ∈ pd :: (userEntries st₀.mem src (n + 1)).map (Function.update tab n t),
      a ∈ st₀.free := by
    rw [htabs, h.free]
    intro a ha
    simp only [List.mem_cons, List.mem_append, List.not_mem_nil, or_false] at ha ⊢
    rcases ha with ha | ha | ha
    · exact .inl ha
    · exact .inr (.inl ha)
    · exact .inr (.inr (ha ▸ htf))
  -- the counts stay below the limit
  have hrefs' : ∀ m, (if m = t / pageSize then 1 else st.refs m) + tally st.maxFrameIdx
    (tableFrames st.mem (tableOf st₀.mem src n) pteCount) m =
      (if m ∈ numbers (pd :: (userEntries st₀.mem src (n + 1)).map (Function.update tab n t)) then 1
        else st₀.refs m) +
        tally st₀.maxFrameIdx (dirFrames st₀.mem src (n + 1)) m := by
    intro m
    have hnum :
      m ∈ numbers (pd :: (userEntries st₀.mem src (n + 1)).map (Function.update tab n t)) ↔
        m = t / pageSize ∨ m ∈ numbers (pd :: (userEntries st₀.mem src n).map tab) := by
      rw [htabs]
      simp only [numbers, List.map_cons, List.map_append, List.mem_cons, List.mem_append,
        List.map_nil, List.not_mem_nil, or_false]
      rw [← or_assoc, or_comm]
    rw [hframes, h.max, hdf, tally_append, if_congr hnum rfl rfl]
    by_cases hm : m = t / pageSize
    · rw [if_pos hm, if_pos (.inl hm), hm, hc.tally_free (by omega) ht₀]
      omega
    · rw [if_neg hm, h.refs m]
      by_cases hm' : m ∈ numbers (pd :: (userEntries st₀.mem src n).map tab)
      · rw [if_pos hm', if_pos (.inr hm'), Nat.add_assoc]
      · rw [if_neg hm', if_neg (not_or.mpr ⟨hm, hm'⟩), Nat.add_assoc]
  have hlimit : ∀ m < st.maxFrameIdx, (if m = t / pageSize then 1 else st.refs m) +
      tally st.maxFrameIdx (tableFrames st.mem (tableOf st₀.mem src n) pteCount) m ≤
        maxRefcount := by
    intro m hm
    rw [hrefs' m]
    split
    · next hin =>
        obtain ⟨a, ha, rfl⟩ := List.mem_map.mp hin
        rw [hc.tally_free (by omega) (htaken a ha)]
        decide
    · have hmono :=
        tally_dirFrames_mono st₀.mem src st₀.maxFrameIdx m (show n + 1 ≤ pteCount by omega)
      have := hc.limit m (h.max ▸ hm)
      omega
  have hspec :=
    copyTable_spec halloc hta hpa (show tableOf st₀.mem src n % pageSize = 0 from addr_mod _) hpt
    (fun heq => hold (heq ▸ ht₀)) hn (mkEntry_lt htlt hfl) (h.max ▸ htc) hlimit hst'
  obtain ⟨hfree, hmax, hmem, hword, htabf, hrefs, hcalm⟩ := hspec
  have hother : ∀ i, i ≠ n → i < pteCount → word st'.mem (pd + 4 * i) =
      word st.mem (pd + 4 * i) := by
    intro i hi hlt
    refine word_congr fun x hx hx' => hmem x (by omega) ?_
    unfold pageSize pteCount at *
    omega
  refine ⟨?_, ?_, ?_, ?_, ?_, hmax.trans h.max, fun m => (hrefs m).trans (hrefs' m), fun hpan => ?_⟩
  · rw [h.free, hfree, htabs]
    simp
  · intro x hx hx'
    have hxt := hx' n (by simp [hue])
    rw [Function.update_self] at hxt
    rw [hmem x (by unfold pageSize at hx; unfold pteCount at hn; omega) hxt]
    exact h.mem x hx fun i hi => htab i hi ▸ hx' i (by simp [hue, hi])
  · intro i hi
    by_cases hni : i = n
    · subst hni
      have hmod : mkEntry t (word st₀.mem (src + 4 * i) % pageSize) % 8 =
          word st₀.mem (src + 4 * i) % 8 := by
        rw [mkEntry_mod, Nat.mod_mod_of_dvd _ (by decide)]
      unfold tableOf
      rw [hword, addr_mkEntry hfl, Function.update_self, addr_of_aligned hta, present_iff, user_iff,
        hmod, ← present_iff, ← user_iff]
      exact ⟨⟨fun _ => by simp [hue], fun _ => hyes⟩, fun _ => rfl⟩
    · have hmem' : i ∈ userEntries st₀.mem src (n + 1) ↔ i ∈ userEntries st₀.mem src n := by
        simp [hue, hni]
      unfold tableOf
      rw [hother i hni (by omega), hmem', Function.update_of_ne hni]
      exact h.dir i (by omega)
  · intro i hi hi'
    rw [hother i (by omega) hi']
    exact h.rest i (by omega) hi'
  · intro i hi
    rw [hue, List.mem_append, List.mem_singleton] at hi
    rcases hi with hi | rfl
    · have hti := hc.pool _ (h.pool.2.1 i hi)
      obtain ⟨hne, hnf, -⟩ := h.apart hc hi
      rw [htab i hi, tableFrames_same fun x hx hx' => hmem x ?_ ?_]
      · exact h.tables i hi
      · unfold pageSize pteCount at *
        omega
      · have htne : tab i ≠ t := fun heq => hnf (heq ▸ htf)
        unfold pageSize at *
        omega
    · rw [Function.update_self, htabf, hframes]
  · obtain ⟨hpan, hsound, hsound'⟩ := hcalm hpan
    obtain ⟨h₀, htabs⟩ := h.calm hpan
    refine ⟨h₀, fun i hi => ?_⟩
    rw [hue, List.mem_append, List.mem_singleton] at hi
    rcases hi with hi | rfl
    · exact htabs i hi
    · rw [h.max] at hsound hsound'
      exact ⟨hsound, hframes ▸ hsound'⟩

/-- One round of `clonePageDir` goes on, or finds no frame for a table and changes
nothing. -/
theorem cloneEntry_cloning (hc : Cloneable src st₀) (h : Cloning st₀ src pd n tab st)
    (hn : n < pteCount) :
    (∃ st' tab', st.cloneEntry src pd n = (true, st') ∧ Cloning st₀ src pd (n + 1) tab' st') ∨
      (st.cloneEntry src pd n = (false, st) ∧ st.free = [] ∧
        n ∈ userEntries st₀.mem src pteCount) := by
  have hsrc : st.entry src n = word st₀.mem (src + 4 * n) :=
    (h.same hc hc.src_aligned hc.src_used).word hn
  unfold Phys.cloneEntry
  rw [hsrc]
  dsimp only
  split
  · next habs =>
      refine .inl
        ⟨st, tab, rfl, h.step_skip hc hn (fun hp => habs hp.1) (fun _ _ => rfl) ?_ rfl rfl rfl rfl⟩
      rw [h.rest n le_rfl hn]
      decide
  · next hpres =>
      rw [not_not] at hpres
      split
      · next huser =>
          split
          · next st₁ halloc =>
              obtain ⟨rfl, hfree⟩ := allocFrame_none halloc
              exact .inr ⟨rfl, hfree, mem_userEntries.mpr ⟨hn, hpres, huser⟩⟩
          · next t st₁ halloc => exact .inl ⟨_, _, rfl, h.step_user hc hn ⟨hpres, huser⟩ halloc rfl⟩
      · next huser =>
          refine .inl ⟨_, tab, rfl, h.step_skip hc hn (fun hp => huser hp.2)
            (fun x hx => setWord_of_ne _ hx) ?_ rfl rfl rfl rfl⟩
          have hw : word (st.setEntry pd n (word st₀.mem (src + 4 * n))).mem (pd + 4 * n) =
              word st₀.mem (src + 4 * n) :=
            word_setWord _ (word_lt _ _)
          rw [hw]
          exact fun hp => huser hp.2

/-- The whole loop, or the part of it before the round that fails. -/
theorem cloneEntries_cloning (hc : Cloneable src st₀) (h : Cloning st₀ src pd 0 tab st)
    (hn : n ≤ pteCount) :
    (∃ st' tab', cloneEntries src pd n st = (none, st') ∧ Cloning st₀ src pd n tab' st') ∨
      ∃ i < n, ∃ st' tab', cloneEntries src pd n st = (some i, st') ∧
        Cloning st₀ src pd i tab' st' ∧ st'.free = [] ∧
        i ∈ userEntries st₀.mem src pteCount := by
  induction n with
  | zero => exact .inl ⟨st, tab, rfl, h⟩
  | succ n ih =>
      rw [cloneEntries]
      rcases ih (by omega) with ⟨st₁, tab₁, heq, h₁⟩ | ⟨i, hi, st₁, tab₁, heq, h₁⟩
      · rw [heq]
        rcases cloneEntry_cloning hc h₁ (by omega) with ⟨st₂, tab₂, heq₂, h₂⟩ | ⟨heq₂, hfail⟩
        · exact .inl ⟨st₂, tab₂, by simp [heq₂], h₂⟩
        · exact .inr ⟨n, by omega, st₁, tab₁, by simp [heq₂], h₁, hfail⟩
      · exact .inr ⟨i, by omega, st₁, tab₁, by simp [heq], h₁⟩

/-! ## giving a clone back -/

/-- The last reference puts the frame in front. -/
theorem freeFrame_last (ha : a ≠ 0) (hc : a / pageSize < st.maxFrameIdx)
    (hone : st.refs (a / pageSize) = 1) :
    (st.freeFrame a).free = a :: st.free ∧ (st.freeFrame a).maxFrameIdx = st.maxFrameIdx ∧
      (∀ x, x < a ∨ a + pageSize ≤ x → (st.freeFrame a).mem x = st.mem x) ∧
      (∀ m, (st.freeFrame a).refs m = if m = a / pageSize then 0 else st.refs m) ∧
        (st.freeFrame a).panicked = st.panicked := by
  have heq : st.freeFrame a =
      { st.setRef a 0 with free := a :: st.free, mem := setWord st.mem a (st.free.headD 0) } := by
    unfold Phys.freeFrame Phys.Counted
    rw [if_neg (by simp [ha, hc]), if_neg (by omega), hone]
    simp [Phys.setRef]
  rw [heq]
  exact ⟨rfl, rfl, fun x hx => setWord_outside _ hx, fun m => (setRef_recounted ..).refs m, rfl⟩

/-- `release` drops one reference for each present entry of a table; a count
keeps at least `c`. -/
def Releases (c : Nat) (release : Nat → Phys → Phys) : Prop :=
  ∀ st t, (∀ m, tally st.maxFrameIdx (tableFrames st.mem t pteCount) m = 0 ∨
      tally st.maxFrameIdx (tableFrames st.mem t pteCount) m + c ≤ st.refs m) →
    (Recounted st (release t st) fun m => st.refs m - tally st.maxFrameIdx
      (tableFrames st.mem t pteCount) m) ∧
      (SoundTable st.maxFrameIdx st.mem t → st.panicked = false → (release t st).panicked = false)

/-- What `rollback` does with a table. -/
theorem releases_rollback : Releases 0 fun t st => removeRefs t pteCount st := by
  intro st t h
  have hle : ∀ m, tally st.maxFrameIdx (tableFrames st.mem t pteCount) m ≤ st.refs m := by
    intro m
    rcases h m with hm | hm
    · rw [hm]
      exact Nat.zero_le _
    · rwa [Nat.add_zero] at hm
  exact ⟨removeRefs_recounted t pteCount hle,
    fun _ hcalm => (removeRefs_panicked t pteCount hle).trans hcalm⟩

/-- Dropping a table takes one reference of each frame. -/
theorem dropChecked_recounted (st : Phys) (t n : Nat)
    (h : ∀ m, tally st.maxFrameIdx (tableFrames st.mem t n) m = 0 ∨
      tally st.maxFrameIdx (tableFrames st.mem t n) m + 1 ≤ st.refs m) :
    (Recounted st (dropEntries t n (st.checkPhysAddr t)) fun m =>
      st.refs m - tally st.maxFrameIdx (tableFrames st.mem t n) m) ∧
      (Sound st.maxFrameIdx t → (∀ g ∈ tableFrames st.mem t n, Sound st.maxFrameIdx g) →
        st.panicked = false →
        (dropEntries t n (st.checkPhysAddr t)).panicked = false) := by
  have hc := recounted_check st t
  have hcond : ∀ m, tally (st.checkPhysAddr t).maxFrameIdx
    (tableFrames (st.checkPhysAddr t).mem t n) m = 0 ∨
      tally (st.checkPhysAddr t).maxFrameIdx (tableFrames (st.checkPhysAddr t).mem t n) m <
        (st.checkPhysAddr t).refs m := by
    intro m
    rw [hc.mem, hc.max, hc.refs]
    exact h m
  have hd := dropEntries_recounted t n hcond
  refine ⟨⟨hd.mem.trans hc.mem, hd.free.trans hc.free, hd.max.trans hc.max, fun m => ?_⟩,
    fun hst hsound hcalm => ?_⟩
  · rw [hd.refs, hc.refs, hc.mem, hc.max]
  · refine dropEntries_panicked t n hcond ?_ (check_calm.mpr ⟨hcalm, hst⟩)
    rwa [hc.mem, hc.max]

/-- What `freePageDirectory` does with a table. -/
theorem releases_free : Releases 1 fun t st => dropEntries t pteCount (st.checkPhysAddr t) := by
  intro st t h
  obtain ⟨hre, hpan⟩ := dropChecked_recounted st t pteCount h
  exact ⟨hre, fun hsound hcalm => hpan hsound.1 hsound.2 hcalm⟩

/-- The state after the first `j` entries of the clone were given back. -/
structure Released (st₀ : Phys) (src : Nat) (tab : Nat → Nat) (j : Nat) (st st' : Phys) : Prop where
  free : st'.free = ((userEntries st₀.mem src j).map tab).reverse ++ st.free
  max : st'.maxFrameIdx = st.maxFrameIdx
  mem : ∀ x, (∀ i ∈ userEntries st₀.mem src j, x < tab i ∨ tab i + pageSize ≤ x) →
    st'.mem x = st.mem x
  refs : ∀ m, st'.refs m + tally st₀.maxFrameIdx (dirFrames st₀.mem src j) m +
    (if m ∈ numbers ((userEntries st₀.mem src j).map tab) then 1 else 0) = st.refs m
  calm : st.panicked = false → st'.panicked = false

/-- The tables of the clone are different ones. -/
theorem Cloning.tab_inj (hc : Cloneable src st₀) (h : Cloning st₀ src pd n tab st)
    (hi : i ∈ userEntries st₀.mem src n)
    (hj : j ∈ userEntries st₀.mem src n) (heq : tab i = tab j) : i = j := by
  have hnd := hc.nodup
  rw [h.free] at hnd
  exact List.inj_on_of_nodup_map (List.nodup_append.mp (List.nodup_cons.mp hnd).2).1 hi hj heq

/-- A number that none of the frames has. -/
theorem notMem_numbers {l : List Nat} (h : ∀ a ∈ l, m ≠ a / pageSize) : m ∉ numbers l := by
  intro hin
  obtain ⟨a, ha, heq⟩ := List.mem_map.mp hin
  exact h a ha heq.symm

/-- The counts of the frames of the clone are one, those of other frames have
grown. -/
theorem Cloning.refs_table (hc : Cloneable src st₀) (h : Cloning st₀ src pd n tab st)
    (hn : n ≤ pteCount)
    (hi : i ∈ userEntries st₀.mem src n) : st.refs (tab i / pageSize) = 1 := by
  have hin : tab i / pageSize ∈ numbers (pd :: (userEntries st₀.mem src n).map tab) :=
    List.mem_map_of_mem (List.mem_cons_of_mem _ (List.mem_map_of_mem hi))
  rw [h.refs, if_pos hin, hc.tally_free hn (h.pool.2.1 i hi)]

/-- The counts of the frames that were not free. -/
theorem Cloning.refs_other (h : Cloning st₀ src pd n tab st)
    (hm : ∀ a ∈ st₀.free, m ≠ a / pageSize) :
    st.refs m = st₀.refs m + tally st₀.maxFrameIdx (dirFrames st₀.mem src n) m := by
  rw [h.refs, if_neg (notMem_numbers fun a ha => hm a ?_)]
  rw [h.free]
  rcases List.mem_cons.mp ha with rfl | ha
  · exact List.mem_cons_self
  · exact List.mem_cons_of_mem _ (List.mem_append_left _ ha)

/-- One more table is given back: its frames lose a reference, and it is freed. -/
theorem Released.step_user {c : Nat} {release : Nat → Phys → Phys} {st₁ : Phys}
    (hr : Released st₀ src tab j st st₁)
    (hrel : Releases c release) (hc : Cloneable src st₀) (h : Cloning st₀ src pd n tab st)
    (hn : n ≤ pteCount)
    (hmin : ∀ g ∈ dirFrames st₀.mem src n, g / pageSize < st₀.maxFrameIdx →
    c ≤ st₀.refs (g / pageSize))
    (hin : j ∈ userEntries st₀.mem src n) (hj : j + 1 ≤ n) :
    Released st₀ src tab (j + 1) st ((release (tab j) st₁).freeFrame (tab j)) := by
  have hyes := (mem_userEntries.mp hin).2
  have hue : userEntries st₀.mem src (j + 1) = userEntries st₀.mem src j ++ [j] := by
    rw [userEntries_succ, if_pos hyes]
  have hdf : dirFrames st₀.mem src (j + 1) = dirFrames st₀.mem src j ++ tableFrames st₀.mem
      (tableOf st₀.mem src j) pteCount := by
    rw [dirFrames_succ, if_pos hyes]
  have hsub : ∀ i ∈ userEntries st₀.mem src j, i ∈ userEntries st₀.mem src n ∧ i ≠ j :=
    fun i hi => by
    obtain ⟨hlt, hi⟩ := mem_userEntries.mp hi
    exact ⟨mem_userEntries.mpr ⟨by omega, hi⟩, by omega⟩
  obtain ⟨hta, htz, -, htc, -⟩ := hc.pool _ (h.pool.2.1 j hin)
  have hfree₀ := h.pool.2.1 j hin
  have htab : ∀ i ∈ userEntries st₀.mem src j, tab i % pageSize = 0 ∧ tab i ≠ tab j := fun i hi =>
    ⟨(hc.pool _ (h.pool.2.1 i (hsub i hi).1)).1,
      fun heq => (hsub i hi).2 (h.tab_inj hc (hsub i hi).1 hin heq)⟩
  -- the table is as the clone left it
  have hframes : tableFrames st₁.mem (tab j) pteCount =
      tableFrames st₀.mem (tableOf st₀.mem src j) pteCount := by
    rw [← h.tables j hin]
    refine tableFrames_same fun x hx hx' => hr.mem x fun i hi => ?_
    have := htab i hi
    unfold pageSize at *
    omega
  have hmax : st₁.maxFrameIdx = st₀.maxFrameIdx := hr.max.trans h.max
  -- a number that loses references is none of a frame of the clone
  have hmapped :
    ∀ m, tally st₀.maxFrameIdx (tableFrames st₀.mem (tableOf st₀.mem src j) pteCount) m ≠ 0 →
      (∀ a ∈ st₀.free, m ≠ a / pageSize) ∧ c ≤ st₀.refs m := by
    intro m hm
    obtain ⟨hlt, g, hg, rfl⟩ := tally_ne_zero hm
    have hgd : g ∈ dirFrames st₀.mem src n := List.mem_flatMap.mpr ⟨j, hin, hg⟩
    refine ⟨fun a ha heq => hc.frame_used g (dirFrames_mono hn hgd) ?_, hmin g hgd hlt⟩
    have haa := (hc.pool a ha).1
    have hga := tableFrames_aligned g hg
    rwa [show g = a by unfold pageSize at *; omega]
  have hsum : ∀ m, tally st₀.maxFrameIdx (dirFrames st₀.mem src (j + 1)) m =
    tally st₀.maxFrameIdx (dirFrames st₀.mem src j) m +
      tally st₀.maxFrameIdx (tableFrames st₀.mem (tableOf st₀.mem src j) pteCount) m :=
        fun m => by rw [hdf, tally_append]
  have hcond : ∀ m, tally st₁.maxFrameIdx (tableFrames st₁.mem (tab j) pteCount) m = 0 ∨
      tally st₁.maxFrameIdx (tableFrames st₁.mem (tab j) pteCount) m + c ≤ st₁.refs m := by
    intro m
    rw [hmax, hframes]
    by_cases hz : tally st₀.maxFrameIdx (tableFrames st₀.mem (tableOf st₀.mem src j) pteCount) m = 0
    · exact .inl hz
    · right
      obtain ⟨hfr, hcm⟩ := hmapped m hz
      have heq := hr.refs m
      have hnum : m ∉ numbers ((userEntries st₀.mem src j).map tab) := notMem_numbers fun a ha => by
        obtain ⟨i, hi, rfl⟩ := List.mem_map.mp ha
        exact hfr _ (h.pool.2.1 i (hsub i hi).1)
      rw [if_neg hnum, h.refs_other hfr] at heq
      have hmono := tally_dirFrames_mono st₀.mem src st₀.maxFrameIdx m hj
      have := hsum m
      omega
  obtain ⟨hre, hpan⟩ := hrel st₁ (tab j) hcond
  rw [hmax, hframes] at hre
  rw [hmax, hframes] at hcond
  have hself : tally st₀.maxFrameIdx (tableFrames st₀.mem (tableOf st₀.mem src j) pteCount)
      (tab j / pageSize) = 0 := by
    by_contra hz
    exact (hmapped _ hz).1 _ hfree₀ rfl
  have hnum : tab j / pageSize ∉ numbers ((userEntries st₀.mem src j).map tab) :=
    notMem_numbers fun a ha => by
    obtain ⟨i, hi, rfl⟩ := List.mem_map.mp ha
    have := htab i hi
    unfold pageSize at *
    omega
  have hone₁ : st₁.refs (tab j / pageSize) = 1 := by
    have heq := hr.refs (tab j / pageSize)
    rwa [if_neg hnum, hc.tally_free (by omega) hfree₀, h.refs_table hc hn hin] at heq
  have hone : (release (tab j) st₁).refs (tab j / pageSize) = 1 := by
    rw [hre.refs, hself, hone₁]
  obtain ⟨hfree, hmax', hmem, hrefs, hfpan⟩ :=
    freeFrame_last htz (by rw [hre.max, hmax]; exact htc) hone
  refine ⟨?_, ?_, ?_, ?_, fun hcalm => ?_⟩
  · rw [hfree, hre.free, hr.free, hue]
    simp
  · rw [hmax', hre.max, hr.max]
  · intro x hx
    rw [hmem x (hx j (by simp [hue])), hre.mem]
    exact hr.mem x fun i hi => hx i (by simp [hue, hi])
  · intro m
    have hmem' : m ∈ numbers ((userEntries st₀.mem src (j + 1)).map tab) ↔
        m = tab j / pageSize ∨ m ∈ numbers ((userEntries st₀.mem src j).map tab) := by
      rw [hue]
      simp only [numbers, List.map_append, List.map_cons, List.map_nil, List.mem_append,
        List.mem_singleton]
      exact or_comm
    have heq := hr.refs m
    rw [hrefs m, hsum m, if_congr hmem' rfl rfl]
    by_cases hm : m = tab j / pageSize
    · subst hm
      rw [if_pos rfl, if_pos (.inl rfl), hself, hc.tally_free (by omega) hfree₀,
        h.refs_table hc hn hin]
    · have hle := hcond m
      rw [if_neg hm, hre.refs]
      simp only [hm, false_or]
      omega
  · have hsound := ((h.calm hcalm).2 j hin)
    rw [hfpan]
    refine hpan ⟨?_, ?_⟩ (hr.calm hcalm)
    · rw [hmax]
      exact hsound.1.of_lt hc.frames htz hta htc
    · rw [hframes, hmax]
      exact hsound.2

/-- **The loop of a release**: the tables are freed, and the counts go back. -/
theorem releaseEntries_released {c : Nat} {release : Nat → Phys → Phys} (hrel : Releases c release)
    (hc : Cloneable src st₀)
    (h : Cloning st₀ src pd n tab st) (hn : n ≤ pteCount)
    (hmin : ∀ g ∈ dirFrames st₀.mem src n, g / pageSize < st₀.maxFrameIdx →
    c ≤ st₀.refs (g / pageSize)) (hj : j ≤ n) :
    Released st₀ src tab j st (releaseEntries release pd j st) := by
  induction j with
  | zero =>
      exact ⟨rfl, rfl, fun _ _ => rfl,
      fun m => by simp [userEntries, dirFrames, tally_nil, numbers, releaseEntries],
      fun h => h⟩
  | succ j ih =>
      have hr := ih (by omega)
      rw [releaseEntries]
      generalize releaseEntries release pd j st = st₁ at hr
      have hsub : ∀ i ∈ userEntries st₀.mem src j, i ∈ userEntries st₀.mem src n := fun i hi => by
        obtain ⟨hlt, hi⟩ := mem_userEntries.mp hi
        exact mem_userEntries.mpr ⟨by omega, hi⟩
      have hpd := (hc.pool _ h.pool.1).1
      -- the directory of the clone is still there
      have hentry : word st₁.mem (pd + 4 * j) = word st.mem (pd + 4 * j) := by
        refine Same.word (fun x hx hx' => hr.mem x fun i hi => ?_) (by omega)
        have hta := (hc.pool _ (h.pool.2.1 i (hsub i hi))).1
        have := (h.apart hc (hsub i hi)).1
        unfold pageSize at *
        omega
      have hdir := h.dir j (by omega)
      unfold tableOf at hdir
      rw [Phys.entry, hentry]
      have hiff : j ∈ userEntries st₀.mem src n ↔ present (word st₀.mem (src + 4 * j)) = true ∧
          user (word st₀.mem (src + 4 * j)) = true := by
        rw [mem_userEntries]
        exact ⟨fun h => h.2, fun h => ⟨by omega, h⟩⟩
      split
      · next hyes =>
          have hin := hdir.1.mp hyes
          rw [hdir.2 hin]
          exact hr.step_user hrel hc h hn hmin hin (by omega)
      · next hno =>
          have hnot : ¬ (present (word st₀.mem (src + 4 * j)) = true ∧
              user (word st₀.mem (src + 4 * j)) = true) := fun hp =>
            hno (hdir.1.mpr (hiff.mpr hp))
          have hue : userEntries st₀.mem src (j + 1) = userEntries st₀.mem src j := by
            rw [userEntries_succ, if_neg hnot, List.append_nil]
          have hdf : dirFrames st₀.mem src (j + 1) = dirFrames st₀.mem src j := by
            rw [dirFrames_succ, if_neg hnot, List.append_nil]
          exact ⟨hue ▸ hr.free, hr.max, hue ▸ hr.mem, hue ▸ hdf ▸ hr.refs, hr.calm⟩

/-- **No trace**: the counts, the set of free frames and the bytes of every frame
that was not free are as before. -/
structure Restored (st₀ st' : Phys) : Prop where
  refs : ∀ m, st'.refs m = st₀.refs m
  free : st'.free.Perm st₀.free
  mem : ∀ a, a % pageSize = 0 → a ∉ st₀.free → Same st₀.mem st'.mem a

/-- A clone of `n` entries that is given back leaves no trace. -/
theorem Cloning.restored {c : Nat} {release : Nat → Phys → Phys} (hrel : Releases c release)
    (hc : Cloneable src st₀)
    (h : Cloning st₀ src pd n tab st) (hn : n ≤ pteCount)
    (hmin : ∀ g ∈ dirFrames st₀.mem src n, g / pageSize < st₀.maxFrameIdx →
    c ≤ st₀.refs (g / pageSize)) :
    Restored st₀ ((releaseEntries release pd n st).freeFrame pd) ∧
      (st.panicked = false → ((releaseEntries release pd n st).freeFrame pd).panicked = false) := by
  have hr := releaseEntries_released hrel hc h hn hmin le_rfl
  generalize releaseEntries release pd n st = st₁ at hr
  obtain ⟨hpa, hpz, -, hpc, hpr⟩ := hc.pool pd h.pool.1
  have hnum : pd / pageSize ∉ numbers ((userEntries st₀.mem src n).map tab) :=
    notMem_numbers fun a ha => by
    obtain ⟨i, hi, rfl⟩ := List.mem_map.mp ha
    have := (h.apart hc hi).1
    have := (hc.pool _ (h.pool.2.1 i hi)).1
    unfold pageSize at *
    omega
  have hrefs₁ :
    ∀ m, st₁.refs m + (if m ∈ numbers ((userEntries st₀.mem src n).map tab) then 1 else 0) =
      if m ∈ numbers (pd :: (userEntries st₀.mem src n).map tab) then 1 else st₀.refs m := by
    intro m
    have h₁ := hr.refs m
    have h₂ := h.refs m
    omega
  have hin : pd / pageSize ∈ numbers (pd :: (userEntries st₀.mem src n).map tab) :=
    List.mem_map_of_mem List.mem_cons_self
  have hone : st₁.refs (pd / pageSize) = 1 := by
    have heq := hrefs₁ (pd / pageSize)
    rwa [if_neg hnum, if_pos hin] at heq
  obtain ⟨hfree, -, hmem, hrefs, hpan⟩ := freeFrame_last hpz (by rw [hr.max, h.max]; exact hpc) hone
  refine ⟨⟨fun m => ?_, ?_, fun a ha hnf x hx hx' => ?_⟩, fun hcalm => hpan.trans (hr.calm hcalm)⟩
  · rw [hrefs m]
    by_cases hm : m = pd / pageSize
    · rw [if_pos hm, hm, hpr]
    · rw [if_neg hm]
      have heq := hrefs₁ m
      by_cases hmt : m ∈ numbers ((userEntries st₀.mem src n).map tab)
      · obtain ⟨a, ha, rfl⟩ := List.mem_map.mp hmt
        obtain ⟨i, hi, rfl⟩ := List.mem_map.mp ha
        have hmp : tab i / pageSize ∈ numbers (pd :: (userEntries st₀.mem src n).map tab) :=
          List.mem_cons_of_mem _ hmt
        rw [if_pos hmt, if_pos hmp] at heq
        rw [(hc.pool _ (h.pool.2.1 i hi)).2.2.2.2]
        omega
      · have hmp : m ∉ numbers (pd :: (userEntries st₀.mem src n).map tab) := by
          intro hmem
          rcases List.mem_cons.mp hmem with hmem | hmem
          · exact hm hmem
          · exact hmt hmem
        rw [if_neg hmt, if_neg hmp] at heq
        omega
  · rw [hfree, hr.free, h.free]
    exact (List.Perm.append_right _ (List.reverse_perm _)).cons _
  · obtain ⟨hne, hnt⟩ := h.ne hnf
    rw [hmem x (by unfold pageSize at *; omega), hr.mem x fun i hi => ?_]
    · exact h.same hc ha hnf x hx hx'
    · have := hnt i hi
      have := (hc.pool _ (h.pool.2.1 i hi)).1
      unfold pageSize at *
      omega

/-- A clone takes one frame, and one for each user table. -/
theorem clonePageDir_succeeds (hc : Cloneable src st)
    (h : (userEntries st.mem src pteCount).length < st.free.length) :
    (st.clonePageDir src).1 ≠ 0 := by
  unfold Phys.clonePageDir
  split
  · next st₁ halloc =>
      rw [(allocFrame_none halloc).2] at h
      simp at h
  · next pd st₁ halloc =>
      have hstart := cloning_start hc halloc
      rcases cloneEntries_cloning hc hstart le_rfl with ⟨st₂, tab, heq, h₂⟩ |
        ⟨i, hi, st₂, tab, heq, h₂, hfree, hin⟩
      · rw [heq]
        exact (hc.pool pd hstart.pool.1).2.1
      · -- the entry that failed is one of the user tables and has no frame yet
        have hlt : (userEntries st.mem src i).length <
            (userEntries st.mem src pteCount).length := by
          have hsucc := userEntries_succ st.mem src i
          rw [if_pos (mem_userEntries.mp hin).2] at hsucc
          have hle : (userEntries st.mem src (i + 1)).length ≤
              (userEntries st.mem src pteCount).length :=
            ((List.range_sublist.mpr hi).filter _).length_le
          rw [hsucc, List.length_append, List.length_singleton] at hle
          omega
        rw [h₂.free, hfree] at h
        simp at h
        omega

/-- It takes no more than that. -/
theorem clonePageDir_length (hc : Cloneable src st) (h : (st.clonePageDir src).1 ≠ 0) :
    (st.clonePageDir src).2.free.length + ((userEntries st.mem src pteCount).length + 1) =
      st.free.length := by
  unfold Phys.clonePageDir at *
  split
  · next st₁ halloc =>
      rw [halloc] at h
      exact absurd rfl h
  · next pd st₁ halloc =>
      rcases cloneEntries_cloning hc (cloning_start hc halloc) le_rfl with ⟨st₂, tab, heq, h₂⟩ |
        ⟨i, hi, st₂, tab, heq, h₂⟩
      · rw [heq, h₂.free, List.length_cons, List.length_append, List.length_map]
        show st₂.free.length + _ = _
        omega
      · rw [halloc] at h
        simp only [heq] at h
        exact absurd rfl h

/-- **`clonePageDir` is all or nothing**. -/
theorem clonePageDir_fails (hc : Cloneable src st) (h : (st.clonePageDir src).1 = 0) :
    Restored st (st.clonePageDir src).2 := by
  unfold Phys.clonePageDir at *
  split
  · next st₁ halloc =>
      rw [(allocFrame_none halloc).1]
      exact ⟨fun _ => rfl, .refl _, fun _ _ _ _ _ _ => rfl⟩
  · next pd st₁ halloc =>
      have hstart := cloning_start hc halloc
      rcases cloneEntries_cloning hc hstart le_rfl with ⟨st₂, tab, heq, h₂⟩ |
        ⟨i, hi, st₂, tab, heq, h₂, -⟩
      · rw [halloc] at h
        simp only [heq] at h
        exact absurd h (hc.pool pd hstart.pool.1).2.1
      · rw [heq]
        exact (h₂.restored releases_rollback hc (by omega) fun _ _ _ => Nat.zero_le _).1

/-- **Clone, then free**. -/
theorem clonePageDir_free (hc : Cloneable src st)
    (hheld : ∀ g ∈ dirFrames st.mem src pteCount, g / pageSize < st.maxFrameIdx →
    1 ≤ st.refs (g / pageSize))
    (h : (st.clonePageDir src).1 ≠ 0) :
    Restored st (((st.clonePageDir src).2.freePageDirectory (st.clonePageDir src).1).freeFrame
      (st.clonePageDir src).1) ∧
      ((st.clonePageDir src).2.panicked = false →
        (((st.clonePageDir src).2.freePageDirectory (st.clonePageDir src).1).freeFrame
          (st.clonePageDir src).1).panicked = false) := by
  unfold Phys.clonePageDir at *
  split
  · next st₁ halloc =>
      rw [halloc] at h
      exact absurd rfl h
  · next pd st₁ halloc =>
      rcases cloneEntries_cloning hc (cloning_start hc halloc) le_rfl with ⟨st₂, tab, heq, h₂⟩ |
        ⟨i, hi, st₂, tab, heq, h₂⟩
      · rw [heq]
        exact h₂.restored releases_free hc le_rfl hheld
      · rw [halloc] at h
        simp only [heq] at h
        exact absurd rfl h

/-! ## a directory with one user page -/

/-- The directory in frame 1 has a user table in frame 2, which maps frame 3. -/
def onePage (free : List Nat) : Phys where
  mem := setWord (setWord (fun _ => 0) 0x1000 0x2007) 0x2000 0x3007
  free := free
  refs m := if m = 1 ∨ m = 2 ∨ m = 3 then 1 else 0
  maxFrameIdx := 16
  panicked := false

/-- The tables and frames of the example. -/
theorem onePage_frames : userEntries (onePage []).mem 0x1000 pteCount = [0] ∧
    tableOf (onePage []).mem 0x1000 0 = 0x2000 ∧
    dirFrames (onePage []).mem 0x1000 pteCount = [0x3000] := by decide +kernel

/-- The example can be cloned. -/
theorem onePage_cloneable (free : List Nat) (hnd : free.Nodup)
    (hfree : ∀ a ∈ free, a = 0x5000 ∨ a = 0x6000) :
    Cloneable 0x1000 (onePage free) := by
  obtain ⟨he, ht, hd⟩ := onePage_frames
  have hnot : ∀ a, a ≠ 0x5000 → a ≠ 0x6000 → a ∉ free := fun a h₁ h₂ hin => (hfree a hin).elim h₁ h₂
  refine ⟨hnd, fun a ha => ?_, rfl, hnot _ (by decide) (by decide), ?_, ?_, ?_, ?_⟩
  · show a % pageSize = 0 ∧ a ≠ 0 ∧ a < 2 ^ 32 ∧ a / pageSize < (onePage []).maxFrameIdx ∧
      (onePage []).refs (a / pageSize) = 0
    rcases hfree a ha with rfl | rfl
    · decide
    · decide
  · show ∀ i ∈ userEntries (onePage []).mem 0x1000 pteCount,
      tableOf (onePage []).mem 0x1000 i ∉ free
    rw [he]
    simp only [List.mem_singleton, forall_eq, ht]
    exact hnot _ (by decide) (by decide)
  · show ∀ g ∈ dirFrames (onePage []).mem 0x1000 pteCount, g ∉ free
    rw [hd]
    simp only [List.mem_singleton, forall_eq]
    exact hnot _ (by decide) (by decide)
  · show (onePage []).maxFrameIdx ≤ maxFrames
    decide
  · show ∀ m < 16, (onePage []).refs m + tally 16
      (dirFrames (onePage []).mem 0x1000 pteCount) m ≤ maxRefcount
    rw [hd]
    decide

/-- There is a frame for the directory and none for the table. -/
theorem clonePageDir_fails_onePage :
    ((onePage [0x5000]).clonePageDir 0x1000).1 = 0 ∧
      Restored (onePage [0x5000]) ((onePage [0x5000]).clonePageDir 0x1000).2 := by
  have hzero : ((onePage [0x5000]).clonePageDir 0x1000).1 = 0 := by decide +kernel
  exact ⟨hzero, clonePageDir_fails (onePage_cloneable _ (by decide) (by decide)) hzero⟩

/-- A directory with one page is cloned and freed. -/
theorem clonePageDir_free_onePage :
    let clone := (onePage [0x5000, 0x6000]).clonePageDir 0x1000
    clone.1 ≠ 0 ∧ Restored (onePage [0x5000, 0x6000])
      ((clone.2.freePageDirectory clone.1).freeFrame clone.1) := by
  obtain ⟨he, -, hd⟩ := onePage_frames
  have hc := onePage_cloneable [0x5000, 0x6000] (by decide) (by decide)
  have hpd :=
    clonePageDir_succeeds hc (show (userEntries (onePage []).mem 0x1000 pteCount).length <
    2 by rw [he]; decide)
  have hheld : ∀ g ∈ dirFrames (onePage []).mem 0x1000 pteCount, g / pageSize < 16 →
      1 ≤ (onePage []).refs (g / pageSize) := by
    rw [hd]
    decide
  exact ⟨hpd, (clonePageDir_free hc hheld hpd).1⟩

end Step

end Doors.Memory
