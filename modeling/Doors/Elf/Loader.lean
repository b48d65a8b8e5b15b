import Mathlib.Algebra.Group.Nat.Defs
import Mathlib.Data.List.Basic
import Doors.Lib.Run

/-!
# Doors.Elf.Loader

The ELF loader (`kernel/ElfLoader.cc`).

`File` is the image in memory.  Every read of it is checked: a read that leaves
`[elf, elf + size)` is the outcome `outside`.  Offsets are 32-bit, and so are
the sums and products the loader computes from the header fields.

What the loader does to page tables and page frames goes through `Pages`, so
that the loader can be run over any allocator and any paging code.
-/

namespace Doors.Elf

/-- An image of `size` bytes at address `base`. -/
structure File where
  base : Nat
  size : Nat
  byte : Nat → BitVec 8
  fits : base + size ≤ 2 ^ 32

/-- A read outside the file. -/
inductive OutOfFile where
  | outside
  deriving DecidableEq, Repr

/-! ## constants -/

def elfMagic : Nat := 0x464C457F
def etExec : Nat := 2
def em386 : Nat := 3
def ptLoad : Nat := 1
def ehdrSize : Nat := 52
def elfMinAddr : Nat := 0x10000
def kernelVirtualBase : Nat := 0xC0000000
def pageSize : Nat := 4096
def maxElfPages : Nat := 64

/-- `uint32_t` and 32-bit `size_t` arithmetic. -/
def u32 (n : Nat) : Nat := n % 2 ^ 32

/-- The `n` bytes at offset `off` are in the file; offsets wrap with the
address. -/
def File.Inside (F : File) (off n : Nat) : Prop := ∀ k < n, u32 (off + k) < F.size

instance (F : File) (off n : Nat) : Decidable (F.Inside off n) :=
  inferInstanceAs (Decidable (∀ _ < _, _))

/-- The little-endian number of `n` bytes at `off`. -/
def File.value (F : File) (off : Nat) : Nat → Nat
  | 0 => 0
  | n + 1 => (F.byte (u32 off)).toNat + 256 * F.value (off + 1) n

/-- A checked read of a field of `n` bytes. -/
def File.read (F : File) (off n : Nat) : Except OutOfFile Nat :=
  if F.Inside off n then .ok (F.value off n) else .error .outside

/-- A checked read of the source of a `memcpy`. -/
def File.readBytes (F : File) (off n : Nat) : Except OutOfFile (List (BitVec 8)) :=
  if F.Inside off n then .ok ((List.range n).map fun k => F.byte (u32 (off + k)))
    else .error .outside

/-! ## the ELF header -/

/-- `ElfLoader::validate`. -/
def validate (F : File) : Except OutOfFile Bool :=
  if F.base = 0 ∨ F.size < ehdrSize then .ok false
  else do
    if (← F.read 0 4) ≠ elfMagic then return false
    if (← F.read 4 1) ≠ 1 then return false
    if (← F.read 5 1) ≠ 1 then return false
    if (← F.read 6 1) ≠ 1 then return false
    if (← F.read 16 2) ≠ etExec then return false
    if (← F.read 18 2) ≠ em386 then return false
    let phoff ← F.read 28 4
    let phnum ← F.read 44 2
    let phentsize ← F.read 42 2
    return u32 (phoff + u32 (phnum * phentsize)) ≤ F.size

/-- The offsets of the program headers. -/
def phdrs (phoff phnum phentsize : Nat) : List Nat :=
  (List.range phnum).map fun i => u32 (phoff + u32 (i * phentsize))

/-! ## the program headers -/

def pType (o : Nat) : Nat := o
def pOffset (o : Nat) : Nat := o + 4
def pVaddr (o : Nat) : Nat := o + 8
def pFilesz (o : Nat) : Nat := o + 16
def pMemsz (o : Nat) : Nat := o + 20

/-- `alignDown(val, PAGE_SIZE)`. -/
def alignDown (val : Nat) : Nat := val / pageSize * pageSize

/-- `alignUp(val, PAGE_SIZE)`; the sum wraps. -/
def alignUp (val : Nat) : Nat := u32 (val + (pageSize - 1)) / pageSize * pageSize

/-- `pageRange`: the part of `[rangeStart, rangeEnd)` on the page at `vaddr`,
as an offset and a length. -/
def pageRange (vaddr rangeStart rangeEnd : Nat) : Nat × Nat :=
  let s := max vaddr rangeStart
  let e := min (u32 (vaddr + pageSize)) rangeEnd
  if s < e then (s - vaddr, e - s) else (0, 0)

/-- `validateSegment` of a segment at `vaddr` with `memsz` bytes. -/
def validSegment (vaddr memsz : Nat) : Bool :=
  ¬ u32 (vaddr + memsz) < vaddr ∧ ¬ vaddr < elfMinAddr ∧ ¬ u32 (vaddr + memsz) > kernelVirtualBase

/-- The pages `mapSegmentRange` goes through. -/
def segmentPages (vaddr memsz : Nat) : List Nat :=
  let pageStart := alignDown vaddr
  let pageEnd := alignUp (u32 (vaddr + memsz))
  (List.range ((pageEnd - pageStart) / pageSize)).map fun k => pageStart + k * pageSize

/-- The file offset of byte `off` of the page at `page`, for a segment at
`vaddr`. -/
def fileOff (offset vaddr page off : Nat) : Nat := u32 (offset + (page + off - vaddr))

/-! ## pages -/

/-- `ElfLoader::MappedPage`. -/
structure MappedPage where
  vaddr : Nat
  phys : Nat
  deriving DecidableEq, Repr

/-- `ElfLoader::LoadResult`. -/
structure LoadResult where
  entry : Nat
  pages : List MappedPage
  deriving DecidableEq, Repr

/-- The calls of the loader into `Pmm` and `Paging`, for one page directory,
and its writes to page frames through the identity map. -/
structure Pages (σ : Type) where
  clearPageTable : σ → Nat → σ
  allocFrame : σ → Option Nat × σ
  mapPage : σ → Nat → Nat → Bool × σ
  freeFrame : σ → Nat → σ
  unmapPage : σ → Nat → σ
  store : σ → Nat → List (BitVec 8) → σ

section

variable {σ : Type} (P : Pages σ) (F : File)

/-- A frame for the page at `vaddr`: that of an earlier segment, or a new one
filled with zeros. -/
def framePage (vaddr : Nat) (mapped : List MappedPage) (st : σ) :
    Option (Nat × List MappedPage) × σ :=
  match mapped.find? (·.vaddr = vaddr) with
  | some m => (some (m.phys, mapped), st)
  | none =>
      match P.allocFrame st with
      | (none, st) => (none, st)
      | (some phys, st) =>
          match P.mapPage st vaddr phys with
          | (false, st) => (none, P.freeFrame st phys)
          | (true, st) =>
              (some (phys, mapped ++ [⟨vaddr, phys⟩]), P.store st phys (List.replicate pageSize 0))

/-- The file bytes and the zeros of one page of the segment at header `o`. -/
def fillPage (o vaddr phys : Nat) (st : σ) : Except OutOfFile σ := do
  let start ← F.read (pVaddr o) 4
  let filesz ← F.read (pFilesz o) 4
  let (off, len) := pageRange vaddr start (u32 (start + filesz))
  let st ← if len ≠ 0 then do
      let offset ← F.read (pOffset o) 4
      let bytes ← F.readBytes (fileOff offset start vaddr off) len
      pure (P.store st (phys + off) bytes)
    else pure st
  let memsz ← F.read (pMemsz o) 4
  let (bssOff, bssLen) := pageRange vaddr (u32 (start + filesz)) (u32 (start + memsz))
  return if bssLen ≠ 0 then P.store st (phys + bssOff) (List.replicate bssLen 0) else st

/-- The loop of `mapSegmentRange` over the pages `vaddrs`; the flag says that
it came to its end. -/
def mapPages (o : Nat) : List Nat → List MappedPage → σ →
    Except OutOfFile (Bool × List MappedPage × σ)
  | [], mapped, st => .ok (true, mapped, st)
  | vaddr :: vaddrs, mapped, st =>
      if mapped.length ≥ maxElfPages then .ok (false, mapped, st)
      else
        match framePage P vaddr mapped st with
        | (none, st) => .ok (false, mapped, st)
        | (some (phys, mapped), st) => do
            let st ← fillPage P F o vaddr phys st
            mapPages o vaddrs mapped st

/-- `mapSegmentRange`. -/
def mapSegmentRange (o : Nat) (mapped : List MappedPage) (st : σ) :
    Except OutOfFile (Bool × List MappedPage × σ) := do
  let vaddr ← F.read (pVaddr o) 4
  let memsz ← F.read (pMemsz o) 4
  mapPages P F o (segmentPages vaddr memsz) mapped st

/-- `rollbackMapped`. -/
def rollbackMapped (mapped : List MappedPage) (st : σ) : σ :=
  mapped.foldl (fun st m => P.unmapPage st m.vaddr) st

/-- `computeElfRange` over the headers `os`; `none` is the initial range. -/
def computeElfRange : List Nat → Option Nat → Except OutOfFile (Option Nat)
  | [], low => .ok low
  | o :: os, low => do
      if (← F.read (pType o) 4) ≠ ptLoad then computeElfRange os low
      else if (← F.read (pMemsz o) 4) = 0 then computeElfRange os low
      else do
        let vaddr ← F.read (pVaddr o) 4
        computeElfRange os (some (min vaddr (low.getD 0xFFFFFFFF)))

/-- The loop of `load` over the headers `os`. -/
def loadSegments : List Nat → List MappedPage → σ → Except OutOfFile (Bool × List MappedPage × σ)
  | [], mapped, st => .ok (true, mapped, st)
  | o :: os, mapped, st => do
      if (← F.read (pType o) 4) ≠ ptLoad then loadSegments os mapped st
      else if (← F.read (pMemsz o) 4) = 0 then loadSegments os mapped st
      else do
        let vaddr ← F.read (pVaddr o) 4
        let memsz ← F.read (pMemsz o) 4
        if ¬ validSegment vaddr memsz then .ok (false, mapped, st)
        else
          let (done, mapped, st) ← mapSegmentRange P F o mapped st
          if done then loadSegments os mapped st else .ok (false, mapped, st)

/-- `ElfLoader::load`. -/
def load (st : σ) : Except OutOfFile (Option LoadResult × σ) := do
  if ¬ (← validate F) then return (none, st)
  let phoff ← F.read 28 4
  let phnum ← F.read 44 2
  let phentsize ← F.read 42 2
  let os := phdrs phoff phnum phentsize
  let low ← computeElfRange F os none
  let st := match low with
    | some low => if low ≠ 0xFFFFFFFF then P.clearPageTable st (alignDown low) else st
    | none => st
  let (done, mapped, st) ← loadSegments P F os [] st
  if done then do
    let entry ← F.read 24 4
    return (some ⟨entry, mapped⟩, st)
  else return (none, rollbackMapped P mapped st)

end

end Doors.Elf
