import Doors.Memory.Pmm

/-!
# Doors.Memory.Paging

Page directories and page tables (`arch/i386/Paging.cc`), in the frames of
`Pmm`.

A directory is the physical address of its frame.  An entry is the address of a
frame and its flags, which do not overlap since frames are page-aligned.
-/

namespace Doors.Memory

def pagePresent : Nat := 1
def pageRw : Nat := 2
def pageUser : Nat := 4
def pdeSize : Nat := 4194304
def pteCount : Nat := 1024

/-! ## entries -/

def present (e : Nat) : Bool := e % 2 = 1

def user (e : Nat) : Bool := e / pageUser % 2 = 1

/-- `e & PAGE_ADDR_MASK`. -/
def addr (e : Nat) : Nat := e / pageSize * pageSize

def mkEntry (a flags : Nat) : Nat := addr a + flags

def pdeIdx (v : Nat) : Nat := v / pdeSize
def pteIdx (v : Nat) : Nat := v % pdeSize / pageSize

namespace Phys

variable (st : Phys) (dir : Nat)

/-- Entry `k` of the directory or table in frame `t`. -/
def entry (t k : Nat) : Nat := word st.mem (t + 4 * k)

def setEntry (t k e : Nat) : Phys := { st with mem := setWord st.mem (t + 4 * k) e }

/-- `ensurePageTable`; `allocFrame` returns a frame of zeros. -/
def ensurePageTable (i flags : Nat) : Bool × Phys :=
  match st.allocFrame with
  | (none, st) => (false, st)
  | (some f, st) =>
      (true, st.setEntry dir i (mkEntry f (pagePresent + pageRw + flags / pageUser % 2 * pageUser)))

/-- Gives up the frame of a present entry. -/
def dropEntry (e : Nat) : Phys := if present e then (st.checkPhysAddr (addr e)).dropRef (addr e)
    else st

/-- `Paging::mapPage`; a table is checked as it is resolved, also a new one. -/
def mapPage (v phys flags : Nat) : Bool × Phys :=
  let found :=
    if present (st.entry dir (pdeIdx v)) then (true, st)
      else st.ensurePageTable dir (pdeIdx v) flags
  if found.1 then
    let st := found.2
    let pageTable := addr (st.entry dir (pdeIdx v))
    let st := st.checkPhysAddr pageTable
    let st := st.dropEntry (st.entry pageTable (pteIdx v))
    let st :=
      st.setEntry pageTable (pteIdx v) (mkEntry phys (pagePresent + flags / pageRw % 4 * pageRw))
    (true, if user flags ∧ ¬ user (st.entry dir (pdeIdx v)) then
        st.setEntry dir (pdeIdx v) (st.entry dir (pdeIdx v) + pageUser)
      else st)
  else (false, found.2)

/-- The loop of `clearPageTable` over the first `n` entries of the table `t`. -/
def dropEntries (t : Nat) : Nat → Phys → Phys
  | 0, st => st
  | n + 1, st => let st := dropEntries t n st; st.dropEntry (st.entry t n)

/-- `Paging::clearPageTable`. -/
def clearPageTable (v : Nat) : Phys :=
  if present (st.entry dir (pdeIdx v)) then
    let oldPt := addr (st.entry dir (pdeIdx v))
    match (st.checkPhysAddr oldPt).allocFrame with
    | (none, st) => st
    | (some f, st) =>
        let st := dropEntries oldPt pteCount st
        let st := st.setEntry dir (pdeIdx v) (mkEntry f (st.entry dir (pdeIdx v) % 8))
        st.freeFrame oldPt
  else st

/-- `tryFreePageTable`. -/
def tryFreePageTable (i : Nat) : Phys :=
  let t := addr (st.entry dir i)
  let st := st.checkPhysAddr t
  if (List.range pteCount).all fun k => st.entry t k = 0 then (st.setEntry dir i 0).freeFrame t
    else st

/-- `Paging::unmapPage`. -/
def unmapPage (v : Nat) : Phys :=
  if present (st.entry dir (pdeIdx v)) then
    let t := addr (st.entry dir (pdeIdx v))
    let st := st.checkPhysAddr t
    let st := st.dropEntry (st.entry t (pteIdx v))
    let st := st.setEntry t (pteIdx v) 0
    st.tryFreePageTable dir (pdeIdx v)
  else st

/-- The frame that `dir` maps at `v`. -/
def lookup (v : Nat) : Option Nat :=
  if present (st.entry dir (pdeIdx v)) ∧ present
    (st.entry (addr (st.entry dir (pdeIdx v))) (pteIdx v)) then
    some (addr (st.entry (addr (st.entry dir (pdeIdx v))) (pteIdx v)))
  else none

end Phys

/-! ## arithmetic of entries -/

/-- The address of an entry is that of a frame. -/
theorem addr_mod (e : Nat) : addr e % pageSize = 0 := Nat.mul_mod_left _ _

/-- The address of a frame has no flags. -/
theorem addr_of_aligned {a : Nat} (h : a % pageSize = 0) : addr a = a :=
  Nat.div_mul_cancel (Nat.dvd_of_mod_eq_zero h)

/-- An entry leads to the frame it was made from. -/
theorem addr_mkEntry {a flags : Nat} (hf : flags < pageSize) : addr (mkEntry a flags) = addr a := by
  unfold mkEntry addr pageSize at *
  omega

/-- An entry has the flags it was made from. -/
theorem mkEntry_mod (a flags : Nat) : mkEntry a flags % 8 = flags % 8 := by
  unfold mkEntry addr pageSize
  omega

/-- An entry is a word. -/
theorem mkEntry_lt {a flags : Nat} (ha : a < 2 ^ 32) (hf : flags < pageSize) :
    mkEntry a flags < 2 ^ 32 := by
  unfold mkEntry addr pageSize at *
  omega

/-- Bit 0 of an entry. -/
theorem present_iff {e : Nat} : present e = true ↔ e % 8 % 2 = 1 := by
  simp only [present, decide_eq_true_eq]
  omega

/-- Bit 2 of an entry. -/
theorem user_iff {e : Nat} : user e = true ↔ e % 8 / 4 = 1 := by
  unfold user pageUser
  rw [decide_eq_true_iff]
  omega

/-- An index into a page table. -/
theorem pteIdx_lt (v : Nat) : pteIdx v < pteCount := by
  unfold pteIdx pdeSize pageSize pteCount
  omega

/-- A page is known by its two indices. -/
theorem index_inj {v v' : Nat} (hv : v % pageSize = 0) (hv' : v' % pageSize = 0)
    (h₁ : pdeIdx v = pdeIdx v')
    (h₂ : pteIdx v = pteIdx v') : v = v' := by
  unfold pdeIdx pteIdx pdeSize pageSize at *
  omega

end Doors.Memory
