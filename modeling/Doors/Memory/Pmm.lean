import Mathlib.Algebra.Group.Nat.Defs
import Mathlib.Logic.Function.Basic
import Mathlib.Data.List.Basic

/-!
# Doors.Memory.Pmm

Physical memory and the frame allocator (`kernel/Pmm.cc`).

Memory is a function from physical addresses to bytes; the kernel reaches all of
it through the higher half.  The free list is the list of its frames, head
first; the links that `freeFrame` writes into the frames are written too.  A
panic is a flag of the state.
-/

namespace Doors.Memory

def pageSize : Nat := 4096
def maxFrames : Nat := 1048576
def maxRefcount : Nat := 255

/-! ## words -/

/-- The little-endian word at `a`. -/
def word (mem : Nat → BitVec 8) (a : Nat) : Nat :=
  (mem a).toNat + 256 * (mem (a + 1)).toNat + 65536 * (mem (a + 2)).toNat + 16777216 *
    (mem (a + 3)).toNat

/-- `mem` with the word `v` at `a`. -/
def setWord (mem : Nat → BitVec 8) (a v : Nat) (x : Nat) : BitVec 8 :=
  if a ≤ x ∧ x < a + 4 then BitVec.ofNat 8 (v / 256 ^ (x - a)) else mem x

/-- `mem` with the bytes `bs` at `a`. -/
def setBytes (mem : Nat → BitVec 8) (a : Nat) (bs : List (BitVec 8)) (x : Nat) : BitVec 8 :=
  if a ≤ x ∧ x < a + bs.length then bs.getD (x - a) 0 else mem x

/-- `mem` with the frame at `a` filled with zeros. -/
def zeroFrame (mem : Nat → BitVec 8) (a x : Nat) : BitVec 8 :=
  if a ≤ x ∧ x < a + pageSize then 0 else mem x

/-- A word is its four bytes. -/
theorem word_congr {mem mem' : Nat → BitVec 8} {a : Nat}
    (h : ∀ x, a ≤ x → x < a + 4 → mem x = mem' x) :
    word mem a = word mem' a := by
  simp only [word, h a (by omega) (by omega), h (a + 1) (by omega) (by omega),
    h (a + 2) (by omega) (by omega),
    h (a + 3) (by omega) (by omega)]

/-- Four bytes make 32 bits. -/
theorem word_lt (mem : Nat → BitVec 8) (a : Nat) : word mem a < 2 ^ 32 := by
  have h₀ := (mem a).isLt
  have h₁ := (mem (a + 1)).isLt
  have h₂ := (mem (a + 2)).isLt
  have h₃ := (mem (a + 3)).isLt
  unfold word
  omega

/-- A word that was written is read back. -/
theorem word_setWord {a v : Nat} (mem : Nat → BitVec 8) (hv : v < 2 ^ 32) :
    word (setWord mem a v) a = v := by
  have h : ∀ k < 4, setWord mem a v (a + k) = BitVec.ofNat 8 (v / 256 ^ k) := by
    intro k hk
    rw [setWord, if_pos ⟨by omega, by omega⟩, Nat.add_sub_cancel_left]
  have h₀ := h 0 (by decide)
  simp only [Nat.add_zero] at h₀
  rw [word, h₀, h 1 (by decide), h 2 (by decide), h 3 (by decide)]
  simp only [BitVec.toNat_ofNat]
  omega

/-- A write changes its four bytes only. -/
theorem setWord_of_ne {a v x : Nat} (mem : Nat → BitVec 8) (hx : x < a ∨ a + 4 ≤ x) :
    setWord mem a v x = mem x :=
  if_neg (by omega)

/-! ## frames -/

/-- `Pmm`, with the memory it hands out. -/
structure Phys where
  mem : Nat → BitVec 8
  free : List Nat
  refs : Nat → Nat
  maxFrameIdx : Nat
  panicked : Bool

namespace Phys

variable (st : Phys)

def panic : Phys := { st with panicked := true }

/-- The frame number of a physical address has an entry in `refCounts_`. -/
def Counted (a : Nat) : Prop := a / pageSize < st.maxFrameIdx

instance (a : Nat) : Decidable (st.Counted a) := inferInstanceAs (Decidable (_ < _))

/-- `*refCountEntry(a) = n`. -/
def setRef (a n : Nat) : Phys := { st with refs := Function.update st.refs (a / pageSize) n }

/-- `Pmm::allocFrame`. -/
def allocFrame : Option Nat × Phys :=
  match st.free with
  | [] => (none, st)
  | a :: rest =>
      let st := { st with free := rest, mem := zeroFrame st.mem a }
      (some a, if st.Counted a then st.setRef a 1 else st)

/-- `Pmm::freeFrameFast`. -/
def freeFrameFast (a : Nat) : Phys :=
  if a = 0 then st
  else { st with free := a :: st.free, mem := setWord st.mem a (st.free.headD 0) }

/-- `Pmm::removeRef`. -/
def removeRef (a : Nat) : Bool × Phys :=
  if ¬ st.Counted a then (false, st)
  else if st.refs (a / pageSize) = 0 then (false, st.panic)
  else
    let st := st.setRef a (st.refs (a / pageSize) - 1)
    (st.refs (a / pageSize) = 0, st)

/-- `if (Pmm::removeRef(frame)) Pmm::freeFrameFast(frame)`. -/
def dropRef (a : Nat) : Phys :=
  match st.removeRef a with
  | (true, st) => st.freeFrameFast a
  | (false, st) => st

/-- `Pmm::freeFrame`. -/
def freeFrame (a : Nat) : Phys :=
  if a = 0 ∨ ¬ st.Counted a then st
  else if st.refs (a / pageSize) = 0 then st.panic
  else
    let st := st.setRef a (st.refs (a / pageSize) - 1)
    if st.refs (a / pageSize) > 0 then st
    else { st with free := a :: st.free, mem := setWord st.mem a (st.free.headD 0) }

/-- `Pmm::addRef`. -/
def addRef (a : Nat) : Phys :=
  if st.Counted a ∧ st.refs (a / pageSize) < maxRefcount
    then st.setRef a (st.refs (a / pageSize) + 1) else st

/-- `CHECK_PHYS_ADDR`; `maxPhysAddr()` is 32-bit. -/
def checkPhysAddr (a : Nat) : Phys :=
  if a = 0 ∨ a ≥ st.maxFrameIdx * pageSize % 2 ^ 32 then st.panic else st

end Phys

variable {a : Nat} {st st' : Phys}

/-- What `allocFrame` hands out. -/
theorem allocFrame_some (h : st.allocFrame = (some a, st')) :
    st.free = a :: st'.free ∧ st'.mem = zeroFrame st.mem a ∧ st'.maxFrameIdx = st.maxFrameIdx ∧
      (a / pageSize < st.maxFrameIdx → ∀ m, st'.refs m = if m = a / pageSize then 1
        else st.refs m) ∧
      st'.panicked = st.panicked := by
  unfold Phys.allocFrame at h
  split at h
  · simp at h
  · next a' rest hfree =>
      obtain ⟨ha, hst'⟩ := Prod.mk.inj h
      obtain rfl := Option.some.inj ha
      subst hst'
      split
      · exact ⟨hfree, rfl, rfl, fun _ m => Function.update_apply .., rfl⟩
      · next hc => exact ⟨hfree, rfl, rfl, fun hc' => absurd hc' hc, rfl⟩

/-- A frame behind the last counted one has no count to set. -/
theorem allocFrame_uncounted (h : st.allocFrame = (some a, st'))
    (hc : ¬ a / pageSize < st.maxFrameIdx) : st'.refs = st.refs := by
  unfold Phys.allocFrame at h
  split at h
  · simp at h
  · obtain ⟨ha, hst'⟩ := Prod.mk.inj h
    obtain rfl := Option.some.inj ha
    subst hst'
    split
    · next hc' => exact absurd hc' hc
    · rfl

/-- Without a free frame nothing changes. -/
theorem allocFrame_none (h : st.allocFrame = (none, st')) : st' = st ∧ st.free = [] := by
  unfold Phys.allocFrame at h
  split at h
  · next hfree => exact ⟨(Prod.mk.inj h).2.symm, hfree⟩
  · simp at h

/-- Counting down frees nothing. -/
theorem removeRef_free (st : Phys) (g : Nat) : (st.removeRef g).2.free = st.free := by
  unfold Phys.removeRef
  split
  · rfl
  · split
    · rfl
    · rfl

end Doors.Memory
