import Mathlib.Algebra.Group.Nat.Defs
import Mathlib.Logic.Function.Basic
import Doors.Lib.Linked

/-!
# Doors.Heap.Heap

The kernel heap (`kernel/Heap.cc`).

Memory is a function from addresses to 32-bit words.  A block starts with its
header: the size with the allocation flag, and the magic number; a free block
holds the link of the free list behind its header.  `init` wraps at 2^32 as the code
does; behind it the heap lies below 2^32, so that an address and a block size do not
wrap; the sizes that a caller asks for may.

The loops over the free list run on fuel; `none` is a loop that does not end.
-/

namespace Doors.Alloc

open Chain

def headerSize : Nat := 16
def blockAlign : Nat := 16
def minBlock : Nat := 32
def heapMagic : Nat := 0x48455041

/-- `static_cast<size_t>(-1)`. -/
def sizeMax : Nat := 2 ^ 32 - 1

/-- `alignUp`. -/
def alignUp (n a : Nat) : Nat := if n > sizeMax - (a - 1) then sizeMax else (n + (a - 1)) / a * a

def isAlloc (v : Nat) : Bool := v % 2 = 1

/-- `v & ~ALLOC_FLAG`. -/
def rawSize (v : Nat) : Nat := v / 2 * 2

/-- `v | ALLOC_FLAG`. -/
def setAlloc (v : Nat) : Nat := v / 2 * 2 + 1

/-- The statics of `Heap`, and the memory. -/
structure Heap where
  mem : Nat → Nat
  freeList : Nat
  heapStart : Nat
  heapEnd : Nat

namespace Heap

/-- A write of one word. -/
def store (h : Heap) (a v : Nat) : Heap := { h with mem := Function.update h.mem a v }

/-- `node->header.size`, `node->header.magic` and `node->next`. -/
def size (h : Heap) (node : Nat) : Nat := h.mem node
def magic (h : Heap) (node : Nat) : Nat := h.mem (node + 4)
def next (h : Heap) (node : Nat) : Nat := h.mem (node + 16)

def setSize (h : Heap) (node v : Nat) : Heap := h.store node v
def setMagic (h : Heap) (node v : Nat) : Heap := h.store (node + 4) v
def setNext (h : Heap) (node v : Nat) : Heap := h.store (node + 16) v

/-- More nodes than the free list can have. -/
def fuel (h : Heap) : Nat := (h.heapEnd - h.heapStart) / blockAlign + 2

/-- `Heap::init` on the span of `size` bytes at `data`. -/
def init (mem : Nat → Nat) (data size : Nat) : Heap :=
  let heapStart := alignUp data blockAlign
  let heapEnd := (heapStart + alignUp size blockAlign) % 2 ^ 32
  let h : Heap := { mem, freeList := 0, heapStart, heapEnd }
  let h := h.setSize heapStart ((heapEnd + 2 ^ 32 - heapStart) % 2 ^ 32)
  let h := h.setMagic heapStart 0
  let h := h.setNext heapStart 0
  { h with freeList := heapStart }

/-- `Heap::addToFreeList`. -/
def addToFreeList (h : Heap) (node : Nat) : Heap :=
  let h := h.setNext node h.freeList
  let h := h.setMagic node 0
  { h with freeList := node }

/-- `prev->next = target`, or the head of the list when there is no `prev`. -/
def link (h : Heap) (prev target : Nat) : Heap :=
  if prev ≠ 0 then h.setNext prev target else { h with freeList := target }

/-- `Heap::removeFromFreeList`. -/
def removeFromFreeList (h : Heap) (target prev : Nat) : Heap := h.link prev (h.next target)

/-- The search of `coalesce`: `found` is set at `target`, until then `prev` is
the last node passed. -/
def findStep (target : Nat) (acc : Nat × Bool) (curr : Nat) : (Nat × Bool) × Bool :=
  if curr = target then ((acc.1, true), true) else ((curr, false), false)

/-- `Heap::coalesce`. -/
def coalesce (h : Heap) (node : Nat) : Option Heap :=
  let nextAddr := node + h.size node
  if nextAddr ≥ h.heapEnd then some h
  else if h.size nextAddr = 0 ∨ isAlloc (h.size nextAddr) ∨ h.magic nextAddr ≠ 0 then some h
  else
    match walk h.next (findStep nextAddr) h.fuel h.freeList (0, false) with
    | none => none
    | some (prev, true) =>
        let h := h.removeFromFreeList nextAddr prev
        some (h.setSize node (h.size node + rawSize (h.size nextAddr)))
    | some (_, false) => some h

/-- `best`, `bestPrev` and `prev` of the best-fit search; 0 is null. -/
structure Search where
  best : Nat := 0
  bestPrev : Nat := 0
  prev : Nat := 0
  deriving Repr, DecidableEq

/-- One round of the best-fit search. -/
def bestStep (h : Heap) (needed : Nat) (acc : Search) (curr : Nat) : Search × Bool :=
  let freeSz := rawSize (h.size curr)
  if freeSz ≥ needed ∧ (acc.best = 0 ∨ freeSz < rawSize (h.size acc.best)) then
    (⟨curr, acc.prev, curr⟩, freeSz = needed)
  else ({ acc with prev := curr }, false)

/-- The end of `alloc`: the block `best` is split or handed over whole. -/
def take (h : Heap) (best bestPrev needed : Nat) : Heap :=
  let freeSz := rawSize (h.size best)
  let residual := freeSz - needed
  if residual ≥ minBlock then
    let remaining := best + needed
    let h := h.setSize remaining residual
    let h := h.setMagic remaining 0
    let h := h.setNext remaining (h.next best)
    let h := h.link bestPrev remaining
    let h := h.setSize best (setAlloc needed)
    h.setMagic best heapMagic
  else
    let h := h.link bestPrev (h.next best)
    let h := h.setSize best (setAlloc freeSz)
    h.setMagic best heapMagic

/-- The block size that `alloc` looks for; `none` when the sum does not fit. -/
def neededFor (size : Nat) : Option Nat :=
  let alignedSize := alignUp size 4
  if alignedSize = sizeMax ∨ alignedSize > sizeMax - headerSize then none
  else some (alignUp (max (headerSize + alignedSize) minBlock) blockAlign)

/-- `Heap::alloc`. -/
def alloc (h : Heap) (size : Nat) : Option (Nat × Heap) :=
  if size = 0 then some (0, h)
  else
    match neededFor size with
    | none => some (0, h)
    | some needed =>
        match walk h.next (h.bestStep needed) h.fuel h.freeList {} with
        | none => none
        | some found =>
            if found.best = 0 then some (0, h)
            else some (found.best + headerSize, h.take found.best found.bestPrev needed)

/-- The backward search of `free`: the free block that ends at `nodeAddr`. -/
def endsStep (h : Heap) (nodeAddr : Nat) (acc : Option Nat) (curr : Nat) : Option Nat × Bool :=
  if curr + rawSize (h.size curr) = nodeAddr then (some curr, true) else (acc, false)

/-- `Heap::free`. -/
def free (h : Heap) (ptr : Nat) : Option Heap :=
  if ptr = 0 then some h
  else
    let hdr := (ptr + 2 ^ 32 - headerSize) % 2 ^ 32
    if ¬ isAlloc (h.size hdr) ∨ h.magic hdr ≠ heapMagic then some h
    else
      let h := h.setSize hdr (rawSize (h.size hdr))
      let h := h.setMagic hdr 0
      match walk h.next (h.endsStep hdr) h.fuel h.freeList none with
      | none => none
      | some (some currBwd) => (h.setSize currBwd (h.size currBwd + h.size hdr)).coalesce currBwd
      | some none => (h.addToFreeList hdr).coalesce hdr

/-- One round of `Heap::freeMem`. -/
def sumStep (h : Heap) (total c : Nat) : Nat × Bool :=
  ((total + rawSize (h.size c)) % 2 ^ 32, false)

/-- `Heap::freeMem`. -/
def freeMem (h : Heap) : Option Nat := walk h.next h.sumStep h.fuel h.freeList 0

/-- `Heap::totalMem`. -/
def totalMem (h : Heap) : Nat := h.heapEnd - h.heapStart

end Heap

end Doors.Alloc
