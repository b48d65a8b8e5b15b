import Mathlib.Data.List.Perm.Subperm
import Doors.Lib.Run
import Doors.Memory.Boot

/-!
# Doors.Memory.Stats

The counters of the frame allocator (`kernel/Pmm.cc`).

A run is any sequence of `allocFrame`, `freeFrame`, `addRef`, and `removeRef` with
`freeFrameFast` when it returns true.  `Usage` keeps beside the allocator the frames that
it ever handed out and the largest number in use.

The counters stay exact as long as the last reference to a frame is given back only while
the frame is in use (`Kept.step`).
-/

namespace Doors.Memory

open Run

namespace Pmm

variable (s : Pmm)

/-- `allocCount_ - freeTotalCount_`. -/
def inUse : Nat := (s.allocCount + 2 ^ 32 - s.freeTotalCount) % 2 ^ 32

/-- `Pmm::allocFrame`. -/
def allocFrame : Option Nat × Pmm :=
  match s.phys.allocFrame with
  | (none, _) => (none, s)
  | (some a, phys) =>
      let freeCount := (s.freeCount + 2 ^ 32 - 1) % 2 ^ 32
      let allocCount := (s.allocCount + 1) % 2 ^ 32
      let inUse := (allocCount + 2 ^ 32 - s.freeTotalCount) % 2 ^ 32
      let highWaterFrames := if inUse > s.highWaterFrames then inUse else s.highWaterFrames
      (some a, { s with phys, freeCount, allocCount, highWaterFrames })

/-- `Pmm::freeFrame`. -/
def freeFrame (a : Nat) : Pmm :=
  let s' := { s with phys := s.phys.freeFrame a }
  if a = 0 ∨ ¬ s.phys.Counted a ∨ s.phys.refs (a / pageSize) = 0 ∨
    s.phys.refs (a / pageSize) - 1 > 0 then s'
  else { s' with
    freeCount := (s.freeCount + 1) % 2 ^ 32, freeTotalCount := (s.freeTotalCount + 1) % 2 ^ 32 }

/-- `Pmm::addRef`. -/
def addRef (a : Nat) : Pmm := { s with phys := s.phys.addRef a }

/-- `Pmm::removeRef`. -/
def removeRef (a : Nat) : Bool × Pmm :=
  match s.phys.removeRef a with
  | (true, phys) => (true, { s with phys, freeTotalCount := (s.freeTotalCount + 1) % 2 ^ 32 })
  | (false, phys) => (false, { s with phys })

/-- `if (Pmm::removeRef(frame)) Pmm::freeFrameFast(frame)`. -/
def dropRef (a : Nat) : Pmm :=
  match s.removeRef a with
  | (true, s) => s.freeFrameFast a
  | (false, s) => s

end Pmm

/-- The allocator with the history of its users. -/
structure Usage where
  pmm : Pmm
  /-- The frames that `allocFrame` ever handed out. -/
  handed : List Nat
  /-- The largest `allocCount_ - freeTotalCount_` so far. -/
  peak : Nat

inductive FrameOp where
  | alloc
  | free (a : Nat)
  | addRef (a : Nat)
  | drop (a : Nat)
  deriving Repr, DecidableEq

namespace Usage

variable (u : Usage)

/-- The frames handed out that are not free. -/
def used : List Nat := u.handed.filter (· ∉ u.pmm.phys.free)

/-- The users' books after the allocator has gone on to `pmm`. -/
def note (handed : List Nat) (pmm : Pmm) : Usage := { pmm, handed, peak := max u.peak pmm.inUse }

/-- One step; a panic ends the run. -/
def step : FrameOp → Except Unit Usage
  | .alloc =>
      match u.pmm.allocFrame with
      | (none, pmm) => .ok (u.note u.handed pmm)
      | (some a, pmm) => .ok (u.note (u.handed.insert a) pmm)
  | .free a => if (u.pmm.freeFrame a).phys.panicked then .error ()
      else .ok (u.note u.handed (u.pmm.freeFrame a))
  | .addRef a => .ok (u.note u.handed (u.pmm.addRef a))
  | .drop a => if (u.pmm.dropRef a).phys.panicked then .error ()
      else .ok (u.note u.handed (u.pmm.dropRef a))

/-- **The counters are exact**. -/
structure Exact : Prop where
  free : u.pmm.freeCount = u.pmm.phys.free.length
  used : u.pmm.inUse = u.used.length
  peak : u.pmm.highWaterFrames = u.peak

end Usage

/-- The frame that a step is about. -/
def FrameOp.frame : FrameOp → Option Nat
  | .alloc => none
  | .free a | .addRef a | .drop a => some a

/-- The frame has an entry in `refCounts_`. -/
def OnCounted (u : Usage) (op : FrameOp) : Prop := ∀ a ∈ op.frame, u.pmm.phys.Counted a

/-- The frame has an entry in `refCounts_`, and the last reference to it is given back only
while it is in use. -/
def OnUsed (u : Usage) : FrameOp → Prop
  | .alloc => True
  | .addRef a => u.pmm.phys.Counted a
  | .free a | .drop a => u.pmm.phys.Counted a ∧ (u.pmm.phys.refs (a / pageSize) = 1 → a ∈ u.used)

instance (u : Usage) (op : FrameOp) : Decidable (OnCounted u op) := by
  apply @FrameOp.casesOn _ op <;> intros <;> unfold OnCounted FrameOp.frame <;> infer_instance

instance (u : Usage) (op : FrameOp) : Decidable (OnUsed u op) := by
  apply @FrameOp.casesOn _ op <;> intros <;> unfold OnUsed <;> infer_instance

variable {u u' : Usage} {s : Pmm} {a kernelEnd : Nat} {mem : Nat → BitVec 8} {mbi : Mbi}
  {ms : List ModuleRange} {tr : List FrameOp}

/-! ## the books -/

/-- What the counters, the free list and the books have in common in every state. -/
structure Kept (u : Usage) : Prop where
  nodup : u.pmm.phys.free.Nodup
  frames : ∀ a ∈ u.pmm.phys.free, 0 < a ∧ a < 2 ^ 32
  handed : u.handed.Nodup
  handedFrames : ∀ a ∈ u.handed, 0 < a ∧ a < 2 ^ 32
  freeCount : u.pmm.freeCount = u.pmm.phys.free.length
  inUse : u.pmm.inUse = u.used.length
  highWater : u.pmm.highWaterFrames = u.peak
  above : u.pmm.inUse ≤ u.peak
  allocLt : u.pmm.allocCount < 2 ^ 32
  freeLt : u.pmm.freeTotalCount < 2 ^ 32

/-- **The figures are exact** while the counters are kept. -/
theorem Kept.exact (hk : Kept u) : u.Exact := ⟨hk.freeCount, hk.inUse, hk.highWater⟩

/-- There are fewer frames than addresses. -/
theorem length_lt_of_nodup {l : List Nat} (hnodup : l.Nodup) (hl : ∀ a ∈ l, 0 < a ∧ a < 2 ^ 32) :
    l.length < 2 ^ 32 := by
  have hcons : (0 :: l).Nodup :=
    List.nodup_cons.mpr ⟨fun hin => Nat.lt_irrefl 0 (hl 0 hin).1, hnodup⟩
  have hsub : 0 :: l ⊆ List.range (2 ^ 32) := by
    intro a ha
    rw [List.mem_range]
    rcases List.mem_cons.mp ha with rfl | ha
    · exact Nat.two_pow_pos 32
    · exact (hl a ha).2
  have hle := (List.subperm_of_subset hcons hsub).length_le
  rw [List.length_range] at hle
  exact hle

/-- A frame in use was handed out and is not free. -/
theorem mem_used : a ∈ u.used ↔ a ∈ u.handed ∧ a ∉ u.pmm.phys.free := by simp [Usage.used]

/-- No frame is in use twice. -/
theorem Kept.used_nodup (hk : Kept u) : u.used.Nodup := hk.handed.filter _

/-- The frames in use can be counted. -/
theorem Kept.used_lt (hk : Kept u) : u.used.length < 2 ^ 32 :=
  length_lt_of_nodup hk.used_nodup fun a ha => hk.handedFrames a (mem_used.mp ha).1

/-- **A frame leaves the free list** and is in use. -/
theorem Kept.alloc (hk : Kept u) {rest : List Nat} {s' : Pmm} (hfree : u.pmm.phys.free = a :: rest)
    (hfree' : s'.phys.free = rest)
    (hcount : s'.freeCount = (u.pmm.freeCount + 2 ^ 32 - 1) % 2 ^ 32)
    (halloc : s'.allocCount = (u.pmm.allocCount + 1) % 2 ^ 32)
    (htotal : s'.freeTotalCount = u.pmm.freeTotalCount) {n : Nat} (hn : s'.inUse = n)
    (hhigh : s'.highWaterFrames = if n > u.pmm.highWaterFrames then n else u.pmm.highWaterFrames) :
    Kept (u.note (u.handed.insert a) s') := by
  have hframes := hk.frames
  have hnodup := hk.nodup
  rw [hfree] at hframes hnodup
  obtain ⟨ha, hnodup⟩ := List.nodup_cons.mp hnodup
  obtain ⟨haframe, hrest⟩ := List.forall_mem_cons.mp hframes
  have hhanded : (u.handed.insert a).Nodup := hk.handed.insert
  have hhandedFrames : ∀ b ∈ u.handed.insert a, 0 < b ∧ b < 2 ^ 32 := by
    intro b hb
    rcases List.mem_insert_iff.mp hb with rfl | hb
    · exact haframe
    · exact hk.handedFrames b hb
  have hused : (u.note (u.handed.insert a) s').used.Nodup := hhanded.filter _
  have hperm : (u.note (u.handed.insert a) s').used.Perm (a :: u.used) := by
    rw [List.perm_ext_iff_of_nodup hused (List.nodup_cons.mpr ⟨fun hin => ?_, hk.used_nodup⟩)]
    · intro b
      rw [List.mem_cons, mem_used, mem_used, hfree]
      simp only [Usage.note, hfree', List.mem_insert_iff, List.mem_cons]
      by_cases hb : b = a
      · simp [hb, ha]
      · simp [hb]
    · exact (mem_used.mp hin).2 (by simp [hfree])
  have hlen := hperm.length_eq
  have hlt : (u.note (u.handed.insert a) s').used.length < 2 ^ 32 :=
    length_lt_of_nodup hused fun b hb => hhandedFrames b (mem_used.mp hb).1
  have hinUse : s'.inUse = u.used.length + 1 := by
    have hold := hk.inUse
    have h₁ := hk.allocLt
    have h₂ := hk.freeLt
    rw [hlen, List.length_cons] at hlt
    unfold Pmm.inUse at *
    rw [halloc, htotal]
    omega
  have hpeak : s'.highWaterFrames = max u.peak s'.inUse := by
    rw [hhigh, hk.highWater, hn]
    split
    · omega
    · omega
  refine ⟨?_, ?_, hhanded, hhandedFrames, ?_, ?_, hpeak, Nat.le_max_right .., ?_, ?_⟩
  · show s'.phys.free.Nodup
    rwa [hfree']
  · show ∀ b ∈ s'.phys.free, _
    rwa [hfree']
  · show s'.freeCount = s'.phys.free.length
    have hrestlt := length_lt_of_nodup hnodup hrest
    rw [hcount, hk.freeCount, hfree, hfree', List.length_cons]
    omega
  · show s'.inUse = _
    rw [hlen, hinUse, List.length_cons]
  · show s'.allocCount < _
    rw [halloc]
    exact Nat.mod_lt _ (Nat.two_pow_pos 32)
  · show s'.freeTotalCount < _
    rw [htotal]
    exact hk.freeLt

/-- **A frame in use goes back** to the free list. -/
theorem Kept.push (hk : Kept u) (ha : a ∈ u.used) {s' : Pmm}
    (hfree : s'.phys.free = a :: u.pmm.phys.free)
    (hcount : s'.freeCount = (u.pmm.freeCount + 1) % 2 ^ 32)
    (halloc : s'.allocCount = u.pmm.allocCount)
    (htotal : s'.freeTotalCount = (u.pmm.freeTotalCount + 1) % 2 ^ 32)
    (hhigh : s'.highWaterFrames = u.pmm.highWaterFrames) :
    Kept (u.note u.handed s') := by
  obtain ⟨hahanded, hafree⟩ := mem_used.mp ha
  have hnodup : s'.phys.free.Nodup := by
    rw [hfree]
    exact List.nodup_cons.mpr ⟨hafree, hk.nodup⟩
  have hframes : ∀ b ∈ s'.phys.free, 0 < b ∧ b < 2 ^ 32 := by
    rw [hfree]
    exact List.forall_mem_cons.mpr ⟨hk.handedFrames a hahanded, hk.frames⟩
  have hused : (u.note u.handed s').used.Nodup := hk.handed.filter _
  have hperm : u.used.Perm (a :: (u.note u.handed s').used) := by
    rw [List.perm_ext_iff_of_nodup hk.used_nodup (List.nodup_cons.mpr ⟨fun hin => ?_, hused⟩)]
    · intro b
      rw [List.mem_cons, mem_used, mem_used]
      simp only [Usage.note, hfree, List.mem_cons]
      by_cases hb : b = a
      · simp [hb, hahanded, hafree]
      · simp [hb]
    · exact (mem_used.mp hin).2 (by simp [Usage.note, hfree])
  have hlen := hperm.length_eq
  rw [List.length_cons] at hlen
  have hinUse : s'.inUse = (u.note u.handed s').used.length := by
    have hold := hk.inUse
    have h₁ := hk.allocLt
    have h₂ := hk.freeLt
    have h₃ := hk.used_lt
    unfold Pmm.inUse at *
    rw [halloc, htotal]
    omega
  have hpeak : (u.note u.handed s').peak = u.peak := by
    have habove := hk.above
    have hold := hk.inUse
    show max u.peak s'.inUse = u.peak
    omega
  refine ⟨hnodup, hframes, hk.handed, hk.handedFrames, ?_, hinUse, ?_, Nat.le_max_right .., ?_, ?_⟩
  · show s'.freeCount = s'.phys.free.length
    have hlt := length_lt_of_nodup hnodup hframes
    rw [hfree, List.length_cons] at hlt
    rw [hcount, hk.freeCount, hfree, List.length_cons, Nat.mod_eq_of_lt hlt]
  · show s'.highWaterFrames = _
    rw [hpeak, hhigh, hk.highWater]
  · show s'.allocCount < _
    rw [halloc]
    exact hk.allocLt
  · show s'.freeTotalCount < _
    rw [htotal]
    exact Nat.mod_lt _ (Nat.two_pow_pos 32)

/-- A step that touches neither the free list nor the counters. -/
theorem Kept.same (hk : Kept u) {s' : Pmm} (hfree : s'.phys.free = u.pmm.phys.free)
    (hcount : s'.freeCount = u.pmm.freeCount)
    (halloc : s'.allocCount = u.pmm.allocCount) (htotal : s'.freeTotalCount = u.pmm.freeTotalCount)
    (hhigh : s'.highWaterFrames = u.pmm.highWaterFrames) : Kept (u.note u.handed s') := by
  have hinUse : s'.inUse = u.pmm.inUse := by rw [Pmm.inUse, Pmm.inUse, halloc, htotal]
  have hused : (u.note u.handed s').used = u.used := by
    rw [Usage.used, Usage.used, Usage.note, hfree]
  have hpeak : (u.note u.handed s').peak = u.peak := by
    show max u.peak s'.inUse = u.peak
    rw [hinUse, Nat.max_eq_left hk.above]
  constructor
  · show s'.phys.free.Nodup
    rw [hfree]
    exact hk.nodup
  · show ∀ a ∈ s'.phys.free, _
    rw [hfree]
    exact hk.frames
  · exact hk.handed
  · exact hk.handedFrames
  · show s'.freeCount = s'.phys.free.length
    rw [hcount, hfree, hk.freeCount]
  · show s'.inUse = _
    rw [hused, hinUse, hk.inUse]
  · show s'.highWaterFrames = _
    rw [hpeak, hhigh, hk.highWater]
  · show s'.inUse ≤ _
    rw [hpeak, hinUse]
    exact hk.above
  · show s'.allocCount < _
    rw [halloc]
    exact hk.allocLt
  · show s'.freeTotalCount < _
    rw [htotal]
    exact hk.freeLt

/-! ## every step keeps the books -/

/-- Where `freeFrame` frees nothing. -/
theorem phys_freeFrame_same (st : Phys) (a : Nat)
    (h : a = 0 ∨ ¬ st.Counted a ∨ st.refs (a / pageSize) = 0 ∨ st.refs (a / pageSize) - 1 > 0) :
    (st.freeFrame a).free = st.free := by
  unfold Phys.freeFrame
  split
  · rfl
  · next hin =>
      split
      · rfl
      · next hzero =>
          have hmore : st.refs (a / pageSize) - 1 > 0 := by tauto
          simp only [Phys.setRef, Function.update_self]
          rw [if_pos hmore]

/-- Where `freeFrame` frees the frame. -/
theorem phys_freeFrame_push (st : Phys) (a : Nat)
    (h : ¬ (a = 0 ∨ ¬ st.Counted a ∨ st.refs (a / pageSize) = 0 ∨ st.refs (a / pageSize) - 1 > 0)) :
    (st.freeFrame a).free = a :: st.free := by
  push Not at h
  obtain ⟨hne, hcounted, hpos, hlast⟩ := h
  unfold Phys.freeFrame
  rw [if_neg (by tauto), if_neg hpos]
  simp only [Phys.setRef, Function.update_self]
  rw [if_neg (by omega)]

/-- A frame is pushed with its last reference. -/
theorem last_of_push {st : Phys}
    (h : ¬ (a = 0 ∨ ¬ st.Counted a ∨ st.refs (a / pageSize) = 0 ∨ st.refs (a / pageSize) - 1 > 0)) :
    st.refs (a / pageSize) = 1 := by
  push Not at h
  omega

/-- The last reference. -/
theorem removeRef_last (st : Phys) (a : Nat) (h : (st.removeRef a).1 = true) :
    st.refs (a / pageSize) = 1 := by
  unfold Phys.removeRef at h
  split at h
  · simp at h
  · split at h
    · simp at h
    · simp only [Phys.setRef, Function.update_self, decide_eq_true_eq] at h
      omega

/-- A call of `freeFrame`. -/
theorem Kept.free (hk : Kept u) (ha : u.pmm.phys.refs (a / pageSize) = 1 → a ∈ u.used) :
    Kept (u.note u.handed (u.pmm.freeFrame a)) := by
  by_cases hkeep : a = 0 ∨ ¬ u.pmm.phys.Counted a ∨ u.pmm.phys.refs (a / pageSize) = 0 ∨
    u.pmm.phys.refs (a / pageSize) - 1 > 0
  · have heq : u.pmm.freeFrame a = { u.pmm with phys := u.pmm.phys.freeFrame a } := if_pos hkeep
    rw [heq]
    exact hk.same (phys_freeFrame_same _ _ hkeep) rfl rfl rfl rfl
  · unfold Pmm.freeFrame
    rw [if_neg hkeep]
    exact hk.push (ha (last_of_push hkeep)) (phys_freeFrame_push _ _ hkeep) rfl rfl rfl rfl

/-- A call of `removeRef` that frees with the last reference. -/
theorem Kept.drop (hk : Kept u) (ha : u.pmm.phys.refs (a / pageSize) = 1 → a ∈ u.used) :
    Kept (u.note u.handed (u.pmm.dropRef a)) := by
  have hfree := removeRef_free u.pmm.phys a
  have hlast := removeRef_last u.pmm.phys a
  unfold Pmm.dropRef Pmm.removeRef
  rcases hrm : u.pmm.phys.removeRef a with ⟨gone, phys⟩
  rw [hrm] at hfree hlast
  dsimp only at hfree
  cases gone with
  | true =>
      have hin := ha (hlast rfl)
      have hne : a ≠ 0 := Nat.ne_of_gt (hk.handedFrames a (mem_used.mp hin).1).1
      apply hk.push hin <;> simp [Pmm.freeFrameFast, Phys.freeFrameFast, hne, hfree]
  | false => exact hk.same hfree rfl rfl rfl rfl

/-- A call of `addRef`. -/
theorem Kept.addRef (hk : Kept u) (a : Nat) : Kept (u.note u.handed (u.pmm.addRef a)) := by
  refine hk.same ?_ rfl rfl rfl rfl
  show (u.pmm.phys.addRef a).free = _
  unfold Phys.addRef
  split
  · rfl
  · rfl

/-- A call of `allocFrame` that finds a frame. -/
theorem Kept.take (hk : Kept u) {phys : Phys} (halloc : u.pmm.phys.allocFrame = (some a, phys)) :
    Kept (u.note (u.handed.insert a) u.pmm.allocFrame.2) := by
  have hfree := (allocFrame_some halloc).1
  unfold Pmm.allocFrame
  rw [halloc]
  dsimp only
  apply hk.alloc hfree
  · rfl
  · rfl
  · rfl
  · rfl
  · rfl
  · rfl

/-- **Every step** that gives no last reference to another's frame back keeps the books. -/
theorem Kept.step {op : FrameOp} (hk : Kept u) (hop : OnUsed u op) (hstep : u.step op = .ok u') :
    Kept u' := by
  cases op with
  | alloc =>
      rcases halloc : u.pmm.phys.allocFrame with ⟨a | a, phys⟩
      · have hsame : u.pmm.allocFrame = (none, u.pmm) := by rw [Pmm.allocFrame, halloc]
        rw [Usage.step, hsame] at hstep
        obtain rfl := Except.ok.inj hstep
        exact hk.same rfl rfl rfl rfl rfl
      · have htake : u.pmm.allocFrame = (some a, u.pmm.allocFrame.2) := by
          rw [Pmm.allocFrame, halloc]
        rw [Usage.step, htake] at hstep
        obtain rfl := Except.ok.inj hstep
        exact hk.take halloc
  | free a =>
      rw [Usage.step] at hstep
      split at hstep
      · simp at hstep
      · obtain rfl := Except.ok.inj hstep
        exact hk.free hop.2
  | addRef a =>
      obtain rfl := Except.ok.inj hstep
      exact hk.addRef a
  | drop a =>
      rw [Usage.step] at hstep
      split at hstep
      · simp at hstep
      · obtain rfl := Except.ok.inj hstep
        exact hk.drop hop.2

end Doors.Memory
