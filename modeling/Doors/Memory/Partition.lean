import Doors.Heap.Heap
import Doors.Memory.PagingInit
import Doors.Memory.Scan

/-!
# Doors.Memory.Partition

Who gets which memory at boot: `kmain` from `Pmm::init` to `Heap::init`
(`kernel/Kernel.cc`), with `Mem::init` and `Mem::availableAbove` (`kernel/Mem.cc`).

The heap gets what lies above the kernel image in its region of the memory map.
`Paging::init` has taken its frames before that from the end of the map, and the boot
loader has put the modules wherever it liked.

* `kmain_listed` — `kmain` does what it does with the map in a list, when nothing that it
  still reads is written over;
* `free_iff`, `handed_iff`, `modules_iff` — who the heap spares;
* `partitioned_iff` — it spares all of them exactly when the modules and the frames that
  `Paging::init` takes are not in its region above the image;
* `heap_over_directory` — when there is only one region, they are.
-/

namespace Doors.Memory

open Alloc (Heap blockAlign alignUp)
open Chain

def upperMemory : Nat := 1048576
def memMax : Nat := 255

/-! ## the model -/

/-- `Mem::init` takes the entry; `pae` is the answer of `Cpu::hasPae`. -/
def isChunk (pae : Bool) (e : MmapEntry) : Bool :=
  e.type = 1 && upperMemory ≤ e.addr && (e.addr < 2 ^ 32 || pae)

/-- The loop of `Mem::init`, with the pointers that it has taken.  `none` when the fuel does
not suffice. -/
def memMapFrom (pae : Bool) (mem : Nat → BitVec 8) (stop : Nat) :
    Nat → Nat → List Nat → Option (List Nat)
  | 0, _, _ => none
  | k + 1, mmap, chunks =>
      if mmap < stop then
        let chunks := if isChunk pae (entryAt mem mmap) then chunks ++ [mmap] else chunks
        if chunks.length = memMax then some chunks
        else memMapFrom pae mem stop k (nextEntry mem mmap) chunks
      else some chunks

/-- `memMap` after `Mem::init`. -/
def memMap (fuel : Nat) (pae : Bool) (mem : Nat → BitVec 8) (info : Nat) : Option (List Nat) :=
  memMapFrom pae mem (mapEnd mem info) fuel (mapStart mem info) []

/-- `addr` and `len` of the chunk at `p`. -/
def chunkAt (mem : Nat → BitVec 8) (p : Nat) : Nat × Nat := (dword mem (p + 4), dword mem (p + 12))

/-- `Mem::availableAbove`. -/
def availableAbove (chunks : List (Nat × Nat)) (start : Nat) : Nat :=
  match chunks.find? fun c => c.1 ≤ start && start < (c.1 + c.2) % 2 ^ 64 with
  | some c => (c.1 + c.2 + 2 ^ 64 - start) % 2 ^ 32
  | none => 0

/-- What `kmain` has set up; there is no heap when there is no memory for it. -/
structure Booted where
  phys : Phys
  /-- The frame of the page directory, the first that `Paging::init` gets. -/
  pageDir : Nat
  heap : Option Heap

/-- `identityMapEnd` of `kmain`, for a heap of `heapSize` bytes. -/
def identityMapEnd (kernelEnd heapSize : Nat) : Nat := max ((kernelEnd + heapSize) % 2 ^ 32) pdeSize

/-- `kmain` from `Paging::init` to `Heap::init`; `words` is the memory as the heap sees it. -/
def setUp (words : Nat → Nat) (kernelEnd heapSize : Nat) (st : Phys) : Booted :=
  let pageDir := st.free.headD 0
  let st := st.pagingInit (identityMapEnd kernelEnd heapSize)
  if heapSize > 0 then
    { phys := st.reserveRegion kernelEnd ((kernelEnd + heapSize) % 2 ^ 32)
      pageDir
      heap := some (Heap.init words kernelEnd heapSize) }
  else { phys := st, pageDir, heap := none }

/-- The frames of the list from `p` on.  `none` when the fuel does not suffice. -/
def Raw.framesFrom (s : Raw) : Nat → Nat → Option (List Nat)
  | 0, _ => none
  | k + 1, p => if p = 0 then some [] else (framesFrom s k (s.next p)).map (p :: ·)

/-- `kmain` to `Heap::init`.  `none` when the fuel does not suffice, which it never does for a
free list without an end, and when `Arch::init` gives up because there is no chunk. -/
def kmain (fuel : Nat) (mem : Nat → BitVec 8) (words : Nat → Nat) (pae : Bool)
    (kernelEnd info : Nat) : Option Booted :=
  (memMap fuel pae mem info).bind fun chunks =>
    if chunks = [] then none
    else
      (Raw.init fuel mem kernelEnd info).bind fun s =>
        (s.framesFrom fuel s.freeList).map fun free =>
          -- the chunks are read again, after `Pmm::init` has written its links
          let heapSize := availableAbove (chunks.map (chunkAt s.mem)) kernelEnd
          setUp words kernelEnd heapSize (s.statics free).phys

/-- The chunks of a map that stays as it is. -/
def Mbi.chunks (pae : Bool) (mbi : Mbi) : List (Nat × Nat) :=
  ((mbi.mmap.filter (isChunk pae)).take memMax).map fun e => (e.addr, e.len)

/-- `kmain` with a listed map. -/
def kmainListed (mem : Nat → BitVec 8) (words : Nat → Nat) (pae : Bool) (kernelEnd : Nat)
    (mbi : Mbi) : Booted :=
  setUp words kernelEnd (availableAbove (mbi.chunks pae) kernelEnd)
    (Pmm.initListed mem kernelEnd mbi).phys

/-- **Nothing that is still read is written over**: neither in the scan nor, after it, `addr`
and `len` of a chunk. -/
structure BootImage.Preserved (b : BootImage) (pae : Bool) (kernelEnd : Nat) : Prop
    extends b.Undisturbed kernelEnd where
  chunks : ∀ c ∈ b.entries, isChunk pae (entryAt b.mem c) = true →
    ∀ e ∈ b.entries, ∀ a, Reads kernelEnd b.mbi (entryAt b.mem e) a → Clear a (c + 4) (c + 20)

namespace Booted

/-- The byte belongs to the heap. -/
def InHeap (b : Booted) (x : Nat) : Prop := ∃ h ∈ b.heap, h.heapStart ≤ x ∧ x < h.heapEnd

/-- The heap has nothing of the frame at `a`. -/
def Spares (b : Booted) (a : Nat) : Prop := ∀ x, a ≤ x → x < a + pageSize → ¬ b.InHeap x

/-- **Partitioned**: the heap is apart from the modules, from the frames that were handed
out, which have a count, and from the free frames. -/
structure Partitioned (mbi : Mbi) (b : Booted) : Prop where
  modules : ∀ m ∈ mbi.modules, ∀ x, m.modStart ≤ x → x < m.modEnd → ¬ b.InHeap x
  handed : ∀ a, a % pageSize = 0 → b.phys.refs (a / pageSize) ≠ 0 → b.Spares a
  free : ∀ a ∈ b.phys.free, b.Spares a

end Booted

/-- The bytes `lo .. hi - 1` lie in an available region. -/
def Available (mbi : Mbi) (lo hi : Nat) : Prop :=
  ∃ e ∈ mbi.mmap, e.type = 1 ∧ e.addr ≤ lo ∧ hi ≤ e.addr + e.len

/-- **A map that the kernel can work with**: the scan reads no frame twice, `maxFrameIdx_` does
not wrap around, and the tables of the identity map fit into one directory.  `Linker.ld`
aligns the end of the image. -/
structure Regular (pae : Bool) (kernelEnd : Nat) (mbi : Mbi) : Prop where
  image : kernelStart ≤ kernelEnd ∧ kernelEnd % blockAlign = 0
  once : mbi.mmap.Pairwise fun e e' =>
    ∀ a, ¬ (Reads kernelEnd mbi e a ∧ Reads kernelEnd mbi e' a)
  ends : ∀ e ∈ mbi.mmap, e.type = 1 → e.end32 ≤ 0xFFFFF000
  heap : kernelEnd + availableAbove (mbi.chunks pae) kernelEnd ≤ 2 ^ 30

variable {pae : Bool} {kernelEnd a n addr size x p k stop info fuel : Nat} {mem : Nat → BitVec 8}
  {words : Nat → Nat} {mbi : Mbi} {e : MmapEntry} {ms : List ModuleRange} {s : Pmm} {r : Raw}
  {es chunks l : List Nat} {b : BootImage} {booted : Booted}

/-- A map that is read as it is: the available regions do not overlap and end below the last
page of the address space. -/
theorem Regular.of_apart (image : kernelStart ≤ kernelEnd ∧ kernelEnd % blockAlign = 0)
    (regions : ∀ e ∈ mbi.mmap, e.type = 1 → e.addr + e.len ≤ 0xFFFFF000)
    (disjoint : mbi.mmap.Pairwise fun e e' =>
      e.type = 1 → e'.type = 1 → e.addr + e.len ≤ e'.addr ∨ e'.addr + e'.len ≤ e.addr)
    (heap : kernelEnd + availableAbove (mbi.chunks pae) kernelEnd ≤ 2 ^ 30) :
    Regular pae kernelEnd mbi where
  image := image
  once := by
    refine once_of_disjoint (fun e he a h => ?_) disjoint
    have hend := regions e he h.1
    have hwithin := h.within (by omega) (by omega)
    exact ⟨hwithin.1, hwithin.2.1⟩
  ends := by
    intro e he htype
    have := regions e he htype
    unfold MmapEntry.end32
    omega
  heap := heap

/-! ## `kmain` with the map in memory -/

/-- The memory map that `Mem` collects. -/
theorem memMapFrom_eq (h : Follows mem stop p es) (hlen : chunks.length < memMax)
    (hk : memMapFrom pae mem stop k p chunks = some l) :
    l = (chunks ++ es.filter fun e => isChunk pae (entryAt mem e)).take memMax := by
  induction k generalizing p es chunks with
  | zero => simp [memMapFrom] at hk
  | succ k ih =>
      rw [memMapFrom] at hk
      cases es with
      | nil =>
          have hge : stop ≤ p := h
          rw [if_neg (by omega)] at hk
          rw [← Option.some.inj hk, List.filter_nil, List.append_nil,
            List.take_of_length_le (Nat.le_of_lt hlen)]
      | cons e es =>
          obtain ⟨rfl, hlt, h⟩ := h
          rw [if_pos hlt] at hk
          dsimp only at hk
          cases hchunk : isChunk pae (entryAt mem p) with
          | false =>
              rw [hchunk, if_neg Bool.false_ne_true, if_neg (by omega)] at hk
              rw [ih h hlen hk, List.filter_cons_of_neg (by simp [hchunk])]
          | true =>
              rw [hchunk, if_pos rfl] at hk
              rw [List.filter_cons_of_pos (by simp [hchunk]), List.append_cons]
              split at hk
              · next hfull =>
                  rw [← Option.some.inj hk, List.take_append_of_le_length (by omega),
                    List.take_of_length_le (by omega)]
              · next hroom =>
                  refine ih h ?_ hk
                  rw [List.length_append, List.length_singleton] at hroom ⊢
                  omega

/-- `Mem` comes to the end of the map. -/
theorem memMapFrom_some (pae : Bool) (chunks : List Nat) (h : Follows mem stop p es)
    (hk : es.length < k) :
    ∃ l, memMapFrom pae mem stop k p chunks = some l := by
  induction k generalizing p es chunks with
  | zero => omega
  | succ k ih =>
      rw [memMapFrom]
      cases es with
      | nil =>
          have hge : stop ≤ p := h
          rw [if_neg (by omega)]
          exact ⟨_, rfl⟩
      | cons e es =>
          obtain ⟨rfl, hlt, h⟩ := h
          rw [if_pos hlt]
          generalize (if isChunk pae (entryAt mem p) = true then chunks ++ [p] else chunks) =
            chunks'
          dsimp only
          split
          · exact ⟨_, rfl⟩
          · exact ih _ h (by simpa using hk)

/-- Frames that are read off memory are linked. -/
theorem framesFrom_linked (h : r.framesFrom k p = some l) : Linked r.next p l := by
  induction k generalizing p l with
  | zero => simp [Raw.framesFrom] at h
  | succ k ih =>
      rw [Raw.framesFrom] at h
      split at h
      · next hnull =>
          obtain rfl := Option.some.inj h
          exact hnull
      · next hne =>
          obtain ⟨rest, hrest, rfl⟩ := Option.map_eq_some_iff.mp h
          exact ⟨rfl, hne, ih hrest⟩

/-- A linked list is read off. -/
theorem framesFrom_some (h : Linked r.next p l) (hk : l.length < k) :
    r.framesFrom k p = some l := by
  induction k generalizing p l with
  | zero => omega
  | succ k ih =>
      rw [Raw.framesFrom]
      cases l with
      | nil => exact if_pos h
      | cons a l =>
          obtain ⟨rfl, hne, h⟩ := h
          rw [if_neg hne, ih h (by simpa using hk)]
          rfl

/-- `reserveFrame` writes a link of a free frame only. -/
theorem reserveFrame_outside (s : Pmm) (v : Nat)
    (h : ∀ a ∈ s.phys.free, x < a ∨ a + 4 ≤ x) : (s.reserveFrame v).phys.mem x = s.phys.mem x := by
  unfold Pmm.reserveFrame
  split
  · rfl
  · dsimp only
    rw [apply_ite Phys.mem]
    simp only [Phys.setRef, ite_self]
    split
    · rfl
    · next prev hprev =>
        have hin := List.mem_of_getLast? hprev
        exact setWord_of_ne _ (h prev ((List.takeWhile_sublist _).subset hin))

/-- `init` writes the links of the frames that it reads. -/
theorem init_outside (h : ∀ a ∈ scanned kernelEnd mbi, x < a ∨ a + 4 ≤ x) :
    (Pmm.initListed mem kernelEnd mbi).phys.mem x = mem x := by
  have hpush := foldl_raw kernelEnd mbi.ranges mbi.mmap (Pmm.zero mem, 0)
  have hmem := push_mem (x := x) (scanned kernelEnd mbi) (Pmm.zero mem).raw h
  unfold Pmm.initListed
  rw [reserveFrame_outside]
  · exact (congrFun (congrArg Raw.mem hpush) x).trans hmem
  · intro a ha
    rw [addListedPages_free] at ha
    exact h a (List.mem_reverse.mp ha)

/-- Adding a region does not panic. -/
theorem addFrames_calm (kernelEnd : Nat) (ms : List ModuleRange) (n addr : Nat) (s : Pmm) :
    (Pmm.addFrames kernelEnd ms n addr s).phys.panicked = s.phys.panicked := by
  induction n generalizing addr s with
  | zero => rfl
  | succ n ih =>
      rw [Pmm.addFrames, ih]
      split
      · rfl
      · unfold Pmm.freeFrameFast Phys.freeFrameFast
        split
        · rfl
        · simp [*]

/-- The scan does not panic. -/
theorem scan_calm (kernelEnd : Nat) (ms : List ModuleRange) (mmap : List MmapEntry)
    (acc : Pmm × Nat) :
    (mmap.foldl (Pmm.addEntry kernelEnd ms) acc).1.phys.panicked = acc.1.phys.panicked := by
  induction mmap generalizing acc with
  | nil => rfl
  | cons e mmap ih =>
      rw [List.foldl_cons, ih]
      unfold Pmm.addEntry
      split
      · exact addFrames_calm ..
      · rfl

/-- `init` does not panic. -/
theorem init_calm (mem : Nat → BitVec 8) (kernelEnd : Nat) (mbi : Mbi) :
    (Pmm.initListed mem kernelEnd mbi).phys.panicked = false := by
  have hreserve : ∀ (s : Pmm) (a : Nat), (s.reserveFrame a).phys.panicked = s.phys.panicked := by
    intro s a
    unfold Pmm.reserveFrame Phys.setRef
    grind
  unfold Pmm.initListed
  rw [hreserve]
  unfold Pmm.addListedPages
  dsimp only
  rw [scan_calm]
  rfl

/-- The list read off memory is the one the model keeps. -/
theorem statics_listed (mem : Nat → BitVec 8) (kernelEnd : Nat) (mbi : Mbi) :
    ((Pmm.initListed mem kernelEnd mbi).raw.statics
      (Pmm.initListed mem kernelEnd mbi).phys.free).phys =
        (Pmm.initListed mem kernelEnd mbi).phys := by
  have hcalm := init_calm mem kernelEnd mbi
  unfold Raw.statics Pmm.raw
  dsimp only
  generalize (Pmm.initListed mem kernelEnd mbi).phys = st at hcalm ⊢
  rw [← hcalm]

namespace BootImage

/-- `Mem` finds the chunks of the map. -/
theorem chunks_read (hb : b.Preserved pae kernelEnd) :
    (((b.entries.filter fun e => isChunk pae (entryAt b.mem e)).take memMax).map
      (chunkAt (Pmm.initListed b.mem kernelEnd b.mbi).phys.mem)) = b.mbi.chunks pae := by
  unfold Mbi.chunks
  rw [show b.mbi.mmap = b.entries.map (entryAt b.mem) from rfl, List.filter_map, ← List.map_take,
    List.map_map]
  refine List.map_congr_left fun c hc => ?_
  obtain ⟨hin, hchunk⟩ := List.mem_filter.mp (List.mem_of_mem_take hc)
  have hsame : ∀ x, c + 4 ≤ x → x < c + 20 →
      (Pmm.initListed b.mem kernelEnd b.mbi).phys.mem x = b.mem x := by
    refine fun x hlo hhi => init_outside fun a ha => ?_
    obtain ⟨e, he, hr⟩ := mem_scanned.mp ha
    obtain ⟨q, hq, rfl⟩ := List.mem_map.mp he
    have := hb.chunks c hin hchunk q hq a hr
    unfold Clear at this
    omega
  show chunkAt _ c = (dword b.mem (c + 4), dword b.mem (c + 12))
  unfold chunkAt
  rw [dword_congr fun x hlo hhi => hsame x hlo (by omega),
    dword_congr fun x hlo hhi => hsame x (by omega) (by omega)]

/-- **`kmain`** does what it does with the listed map. -/
theorem kmain_listed (hb : b.Preserved pae kernelEnd) (hr : Regular pae kernelEnd b.mbi)
    (hk : kmain fuel b.mem words pae kernelEnd b.info = some booted) :
    booted = kmainListed b.mem words pae kernelEnd b.mbi := by
  obtain ⟨chunks, hchunks, hrest⟩ := Option.bind_eq_some_iff.mp hk
  split at hrest
  · simp at hrest
  · obtain ⟨r, hinit, hrest⟩ := Option.bind_eq_some_iff.mp hrest
    obtain ⟨free, hfree, rfl⟩ := Option.map_eq_some_iff.mp hrest
    have hleaves : Leaves b.mem kernelEnd b.info r free := ⟨⟨fuel, hinit⟩, framesFrom_linked hfree⟩
    obtain ⟨rfl, rfl⟩ := hleaves.unique (hb.once (scanned_nodup.mpr hr.once))
    rw [memMapFrom_eq b.follows (by decide) hchunks, List.nil_append, statics_listed]
    show setUp words kernelEnd (availableAbove (List.map (chunkAt
      (Pmm.initListed b.mem kernelEnd b.mbi).phys.mem) _) kernelEnd) _ = _
    rw [chunks_read hb]
    rfl

/-- With a chunk in the map, `kmain` gets to the end. -/
theorem kmain_some (hb : b.Preserved pae kernelEnd) (hr : Regular pae kernelEnd b.mbi)
    (hchunk : ∃ e ∈ b.entries, isChunk pae (entryAt b.mem e) = true) (words : Nat → Nat) :
    ∃ fuel, kmain fuel b.mem words pae kernelEnd b.info =
      some (kmainListed b.mem words pae kernelEnd b.mbi) := by
  obtain ⟨⟨k, hinit⟩, hlinked⟩ := hb.once (scanned_nodup.mpr hr.once)
  refine ⟨b.entries.length + (k + (Pmm.initListed b.mem kernelEnd b.mbi).phys.free.length) + 1, ?_⟩
  obtain ⟨chunks, hchunks⟩ := memMapFrom_some pae [] b.follows
    (show b.entries.length < b.entries.length +
      (k + (Pmm.initListed b.mem kernelEnd b.mbi).phys.free.length) + 1 by omega)
  have hne : chunks ≠ [] := by
    obtain ⟨e, he, hc⟩ := hchunk
    rw [memMapFrom_eq b.follows (by decide) hchunks, List.nil_append]
    have hin : e ∈ b.entries.filter fun e => isChunk pae (entryAt b.mem e) :=
      List.mem_filter.mpr ⟨he, hc⟩
    intro hnil
    rcases List.take_eq_nil_iff.mp hnil with hmax | hempty
    · exact absurd hmax (by decide)
    · rw [hempty] at hin
      simp at hin
  have hsome : kmain (b.entries.length +
      (k + (Pmm.initListed b.mem kernelEnd b.mbi).phys.free.length) + 1) b.mem words pae kernelEnd
      b.info = some (setUp words kernelEnd (availableAbove (chunks.map (chunkAt
        (Pmm.initListed b.mem kernelEnd b.mbi).raw.mem)) kernelEnd)
        ((Pmm.initListed b.mem kernelEnd b.mbi).raw.statics
          (Pmm.initListed b.mem kernelEnd b.mbi).phys.free).phys) := by
    unfold kmain memMap
    rw [hchunks, Option.bind_some, if_neg hne, init_mono hinit (by omega), Option.bind_some,
      framesFrom_some hlinked (by omega), Option.map_some]
  rw [hsome, kmain_listed hb hr hsome]

end BootImage

/-- The start of the kernel, with a heap. -/
theorem kmain_heap (mem : Nat → BitVec 8) (words : Nat → Nat)
    (hsize : availableAbove (mbi.chunks pae) kernelEnd = size) (hpos : 0 < size) :
    kmainListed mem words pae kernelEnd mbi =
      { phys := ((Pmm.initListed mem kernelEnd mbi).phys.pagingInit
          (identityMapEnd kernelEnd size)).reserveRegion kernelEnd ((kernelEnd + size) % 2 ^ 32)
        pageDir := (Pmm.initListed mem kernelEnd mbi).phys.free.headD 0
        heap := some (Heap.init words kernelEnd size) } := by
  unfold kmainListed setUp
  rw [hsize]
  dsimp only
  rw [if_pos hpos]

/-- The page directory is the first frame. -/
theorem kmain_pageDir (mem : Nat → BitVec 8) (words : Nat → Nat) (pae : Bool) (kernelEnd : Nat)
    (mbi : Mbi) : (kmainListed mem words pae kernelEnd mbi).pageDir =
      (Pmm.initListed mem kernelEnd mbi).phys.free.headD 0 := by
  unfold kmainListed setUp
  dsimp only
  split <;> rfl

/-- The bytes of the heap. -/
theorem inHeap_iff (hr : Regular pae kernelEnd mbi)
    (hsize : availableAbove (mbi.chunks pae) kernelEnd = size) (hpos : 0 < size) :
    (kmainListed mem words pae kernelEnd mbi).InHeap x ↔
      kernelEnd ≤ x ∧ x < kernelEnd + alignUp size blockAlign := by
  have hend := hr.heap
  have halign := hr.image.2
  rw [hsize] at hend
  unfold blockAlign at halign
  have hstart : alignUp kernelEnd blockAlign = kernelEnd := by
    unfold alignUp Alloc.sizeMax blockAlign
    rw [if_neg (by omega)]
    omega
  have hsmall : kernelEnd + alignUp size blockAlign < 2 ^ 32 := by
    unfold alignUp Alloc.sizeMax blockAlign
    rw [if_neg (by omega)]
    omega
  unfold Booted.InHeap
  rw [kmain_heap mem words hsize hpos]
  simp only [Option.mem_some_iff, exists_eq_left']
  show alignUp kernelEnd blockAlign ≤ x ∧
    x < (alignUp kernelEnd blockAlign + alignUp size blockAlign) % 2 ^ 32 ↔ _
  rw [hstart, Nat.mod_eq_of_lt hsmall]

/-- A frame that the scan reads is not half in the image. -/
theorem Reads.below (h : Reads kernelEnd mbi e a) (hstart : kernelStart ≤ kernelEnd)
    (hlt : a < kernelEnd) : a + pageSize ≤ kernelEnd := by
  have hnot := h.kernel (Nat.le_refl a) (Nat.lt_add_of_pos_right (by decide))
  have hmod := h.2.1
  unfold kernelStart pageSize at *
  omega

/-- The heap spares the frames of the map that are not in its region above the image. -/
theorem spares_iff (hr : Regular pae kernelEnd mbi)
    (hsize : availableAbove (mbi.chunks pae) kernelEnd = size) (hpos : 0 < size)
    (h : Reads kernelEnd mbi e a) :
    (kmainListed mem words pae kernelEnd mbi).Spares a ↔
      a + pageSize ≤ kernelEnd ∨ kernelEnd + size ≤ a := by
  have hbelow := h.below hr.image.1
  have hend := hr.heap
  have halign := hr.image.2
  have hmod := h.2.1
  rw [hsize] at hend
  unfold Booted.Spares
  simp only [inHeap_iff hr hsize hpos]
  unfold alignUp Alloc.sizeMax
  unfold blockAlign at *
  rw [if_neg (by omega)]
  constructor
  · intro hall
    have := hall a (Nat.le_refl a) (Nat.lt_add_of_pos_right (by decide))
    omega
  · intro hout x hlo hhi
    unfold pageSize at *
    omega

/-! ## the allocator after `Pmm::init` -/

/-- Adding a region counts nothing. -/
theorem addFrames_refs (n addr : Nat) (s : Pmm) :
    (Pmm.addFrames kernelEnd ms n addr s).phys.refs = s.phys.refs := by
  induction n generalizing addr s with
  | zero => rfl
  | succ n ih =>
      rw [Pmm.addFrames, ih]
      unfold Pmm.freeFrameFast Phys.freeFrameFast
      grind

/-- The scan counts nothing. -/
theorem scan_refs (mmap : List MmapEntry) (acc : Pmm × Nat) :
    (mmap.foldl (Pmm.addEntry kernelEnd ms) acc).1.phys.refs = acc.1.phys.refs := by
  induction mmap generalizing acc with
  | nil => rfl
  | cons e mmap ih =>
      rw [List.foldl_cons, ih]
      unfold Pmm.addEntry
      split
      · exact addFrames_refs ..
      · rfl

/-- `highestPhysAddr` is the end of an available region, and no end is above it. -/
theorem scan_highest (kernelEnd : Nat) (ms : List ModuleRange) (mmap : List MmapEntry)
    (acc : Pmm × Nat)
    {top : Nat} (htop : ∀ e ∈ mmap, e.type = 1 → e.end32 ≤ top) (hacc : acc.2 ≤ top) :
    acc.2 ≤ (mmap.foldl (Pmm.addEntry kernelEnd ms) acc).2 ∧
      (mmap.foldl (Pmm.addEntry kernelEnd ms) acc).2 ≤ top ∧
      ∀ e ∈ mmap, e.type = 1 → e.end32 ≤ (mmap.foldl (Pmm.addEntry kernelEnd ms) acc).2 := by
  induction mmap generalizing acc with
  | nil => exact ⟨Nat.le_refl _, hacc, by simp⟩
  | cons e mmap ih =>
      have he := htop e List.mem_cons_self
      have hstep : acc.2 ≤ (Pmm.addEntry kernelEnd ms acc e).2 ∧
        (Pmm.addEntry kernelEnd ms acc e).2 ≤ top ∧
          (e.type = 1 → e.end32 ≤ (Pmm.addEntry kernelEnd ms acc e).2) := by
        unfold Pmm.addEntry
        grind
      obtain ⟨hge, hle, hall⟩ := ih (Pmm.addEntry kernelEnd ms acc e)
        (fun e he => htop e (List.mem_cons_of_mem _ he)) hstep.2.1
      refine ⟨hstep.1.trans hge, hle, fun e' he' htype => ?_⟩
      rcases List.mem_cons.mp he' with rfl | he'
      · exact (hstep.2.2 htype).trans hge
      · exact hall e' he' htype

/-- Reserving a frame keeps the bound of the counts. -/
theorem reserveFrame_max (s : Pmm) (a : Nat) :
    (s.reserveFrame a).phys.maxFrameIdx = s.phys.maxFrameIdx := by
  unfold Pmm.reserveFrame Phys.setRef
  grind

/-- Reserving a frame keeps the other counts. -/
theorem reserveFrame_refs (s : Pmm) (a k : Nat) (hk : k ≠ a / pageSize) :
    (s.reserveFrame a).phys.refs k = s.phys.refs k := by
  unfold Pmm.reserveFrame
  split
  · rfl
  · dsimp only
    rw [apply_ite Phys.refs]
    unfold Phys.setRef
    grind [Function.update_of_ne]

/-- Only the VGA frame has a count after `init`. -/
theorem init_refs (mem : Nat → BitVec 8) (kernelEnd : Nat) (mbi : Mbi) {k : Nat}
    (hk : k ≠ vgaFrame / pageSize) :
    (Pmm.initListed mem kernelEnd mbi).phys.refs k = 0 := by
  unfold Pmm.initListed
  rw [reserveFrame_refs _ _ _ hk]
  unfold Pmm.addListedPages
  dsimp only
  rw [scan_refs]
  exact ite_self 0

/-- The frames of the map have a place among the counts. -/
theorem init_counted (hends : ∀ e ∈ mbi.mmap, e.type = 1 → e.end32 ≤ 0xFFFFF000)
    (he : e ∈ mbi.mmap) (h : Reads kernelEnd mbi e a) :
    (Pmm.initListed mem kernelEnd mbi).phys.Counted a := by
  have hlt : a < e.end32 := by
    have hstop := h.2.2.2.1
    unfold MmapEntry.stop pageDown at hstop
    have := Nat.div_mul_le_self e.end32 pageSize
    omega
  unfold Phys.Counted Pmm.initListed
  rw [reserveFrame_max]
  unfold Pmm.addListedPages
  dsimp only
  obtain ⟨-, hle, hall⟩ := scan_highest kernelEnd mbi.ranges mbi.mmap (Pmm.zero mem, 0) hends
    (Nat.zero_le _)
  have hge := hall e he h.1
  unfold frameLimit pageSize maxFrames
  omega

/-- No frame is scanned twice. -/
theorem Regular.order_nodup (hr : Regular pae kernelEnd mbi) :
    (scanned kernelEnd mbi).reverse.Nodup :=
  List.nodup_reverse.mpr (scanned_nodup.mpr hr.once)

/-- A free frame after `init` is in a region and not the text screen. -/
theorem mem_init (hr : Regular pae kernelEnd mbi)
    (ha : a ∈ (Pmm.initListed mem kernelEnd mbi).phys.free) :
    a ≠ vgaFrame ∧ ∃ e ∈ mbi.mmap, Reads kernelEnd mbi e a := by
  rw [init_free] at ha
  obtain ⟨hne, hin⟩ := hr.order_nodup.mem_erase_iff.mp ha
  exact ⟨hne, mem_scanned.mp (List.mem_reverse.mp hin)⟩

/-- After `init` paging can be set up. -/
theorem init_ready (mem : Nat → BitVec 8) (hr : Regular pae kernelEnd mbi) :
    Ready (Pmm.initListed mem kernelEnd mbi).phys where
  nodup := by
    rw [init_free]
    exact hr.order_nodup.erase vgaFrame
  frame a ha := by
    obtain ⟨-, e, he, h⟩ := mem_init hr ha
    exact ⟨h.2.1, h.frame.1, h.frame.2, init_counted hr.ends he h⟩
  idle a ha := by
    obtain ⟨hne, e, he, h⟩ := mem_init hr ha
    exact init_refs mem kernelEnd mbi (pfn_ne h.2.1 (by decide) hne)

/-! ## who has the heap's memory -/

/-- The frames that `Paging::init` takes from the map. -/
def taken (pae : Bool) (kernelEnd : Nat) (mbi : Mbi) : List Nat :=
  let stop := pageUp (identityMapEnd kernelEnd (availableAbove (mbi.chunks pae) kernelEnd))
  takes ((scanned kernelEnd mbi).reverse.erase vgaFrame) (calcNumPageTables stop) stop

/-- A gigabyte needs 256 tables. -/
theorem calcNumPageTables_le (n : Nat) (hn : n ≤ 2 ^ 30) : calcNumPageTables (pageUp n) ≤ 256 := by
  have hup : pageUp n ≤ 2 ^ 30 := by
    unfold pageUp pageSize
    omega
  unfold calcNumPageTables pdeSize
  omega

/-- `Paging::init` takes `taken`, and the others below the end of the identity map stay free. -/
theorem pagingInit_taken (mem : Nat → BitVec 8) (hr : Regular pae kernelEnd mbi) :
    let stop := identityMapEnd kernelEnd (availableAbove (mbi.chunks pae) kernelEnd)
    let st := (Pmm.initListed mem kernelEnd mbi).phys.pagingInit stop
    Holds (Pmm.initListed mem kernelEnd mbi).phys (taken pae kernelEnd mbi) st ∧
      ∀ a ∈ (Pmm.initListed mem kernelEnd mbi).phys.free, a < pageUp stop →
        a ∈ taken pae kernelEnd mbi ++ st.free := by
  have hend := hr.heap
  have htop : identityMapEnd kernelEnd (availableAbove (mbi.chunks pae) kernelEnd) ≤ 2 ^ 30 := by
    unfold identityMapEnd pdeSize
    omega
  have htakes := pagingInit_takes (init_ready mem hr) (calcNumPageTables_le _ htop)
  rw [init_free] at htakes ⊢
  exact htakes

/-- Where the heap ends inside a page, the scan does not read that page. -/
def EdgeUnread (kernelEnd heapEnd : Nat) (mbi : Mbi) : Prop :=
  heapEnd % pageSize ≠ 0 → ∀ e ∈ mbi.mmap, ¬ Reads kernelEnd mbi e (pageDown heapEnd)

/-- A frame that `reserveRegion` leaves is the heap's only at its very end. -/
theorem reserved_edge (hr : Regular pae kernelEnd mbi) (hend : kernelEnd + size ≤ 2 ^ 30)
    (h : Reads kernelEnd mbi e a)
    (hleft : ¬ (pageUp kernelEnd ≤ a ∧ a < pageDown ((kernelEnd + size) % 2 ^ 32))) :
    (a + pageSize ≤ kernelEnd ∨ kernelEnd + size ≤ a) ∨
      (kernelEnd + size) % pageSize ≠ 0 ∧ a = pageDown (kernelEnd + size) := by
  have hbelow := h.below hr.image.1
  have hmod := h.2.1
  rw [pageUp_of_le (by omega), Nat.mod_eq_of_lt (by omega)] at hleft
  unfold pageDown pageSize at *
  omega

/-- **The free frames** are not the heap's, when the one at its end is not read and
`Paging::init` takes none of its region. -/
theorem free_spared (mem : Nat → BitVec 8) (words : Nat → Nat) (hr : Regular pae kernelEnd mbi)
    (hsize : availableAbove (mbi.chunks pae) kernelEnd = size) (hpos : 0 < size)
    (hedge : EdgeUnread kernelEnd (kernelEnd + size) mbi) :
    ∀ a ∈ (kmainListed mem words pae kernelEnd mbi).phys.free,
      (kmainListed mem words pae kernelEnd mbi).Spares a := by
  intro a ha
  have hholds := (pagingInit_taken mem hr).1
  have hend := hr.heap
  rw [hsize] at hholds hend
  rw [kmain_heap mem words hsize hpos] at ha
  obtain ⟨hin, hout⟩ := List.mem_filter.mp ha
  obtain ⟨-, e, he, h⟩ := mem_init hr (hholds.sub a (List.mem_append_right _ hin))
  refine (spares_iff hr hsize hpos h).mpr ?_
  simp only [Bool.not_eq_true', Bool.and_eq_false_iff, decide_eq_false_iff_not] at hout
  rcases reserved_edge hr hend h (by tauto) with hspared | ⟨hne, rfl⟩
  · exact hspared
  · exact absurd h (hedge hne e he)

/-- A page at the end of the heap that is read is handed out or stays free. -/
theorem edge_unread (mem : Nat → BitVec 8) (words : Nat → Nat) (hr : Regular pae kernelEnd mbi)
    (hsize : availableAbove (mbi.chunks pae) kernelEnd = size) (hpos : 0 < size)
    (hp : (kmainListed mem words pae kernelEnd mbi).Partitioned mbi) :
    EdgeUnread kernelEnd (kernelEnd + size) mbi := by
  intro hne e he h
  have hstart := hr.image.1
  have hend := hr.heap
  obtain ⟨hholds, hkept⟩ := pagingInit_taken mem hr
  rw [hsize] at hholds hkept hend
  have hbelow := h.below hstart
  have hinside : ¬ (kmainListed mem words pae kernelEnd mbi).Spares
      (pageDown (kernelEnd + size)) := by
    rw [spares_iff hr hsize hpos h]
    unfold pageDown pageSize at *
    omega
  have hnotvga : pageDown (kernelEnd + size) ≠ vgaFrame := by
    unfold vgaFrame kernelStart pageDown pageSize at *
    omega
  have hfree : pageDown (kernelEnd + size) ∈ (Pmm.initListed mem kernelEnd mbi).phys.free := by
    rw [init_free]
    exact (List.mem_erase_of_ne hnotvga).mpr (List.mem_reverse.mpr (mem_scanned.mpr ⟨e, he, h⟩))
  have hlow : pageDown (kernelEnd + size) < pageUp (identityMapEnd kernelEnd size) := by
    have hle : pageDown (kernelEnd + size) < identityMapEnd kernelEnd size := by
      unfold identityMapEnd pageDown pageSize at *
      omega
    have hmax : identityMapEnd kernelEnd size ≤ 2 ^ 30 := by
      unfold identityMapEnd pdeSize
      omega
    rw [pageUp_of_le (by omega)]
    omega
  rcases List.mem_append.mp (hkept _ hfree hlow) with htaken | hstays
  · refine hinside (hp.handed _ h.2.1 ?_)
    rw [kmain_heap mem words hsize hpos]
    show ((Pmm.initListed mem kernelEnd mbi).phys.pagingInit _).refs _ ≠ 0
    rw [hholds.refs _ h.2.1, if_pos htaken]
    exact Nat.one_ne_zero
  · refine hinside (hp.free _ ?_)
    rw [kmain_heap mem words hsize hpos]
    refine List.mem_filter.mpr ⟨hstays, ?_⟩
    rw [Nat.mod_eq_of_lt (by omega)]
    simp

/-- **The frames that were handed out** are not the heap's when `Paging::init` takes none of
its region. -/
theorem handed_iff (mem : Nat → BitVec 8) (words : Nat → Nat) (hr : Regular pae kernelEnd mbi)
    (hsize : availableAbove (mbi.chunks pae) kernelEnd = size) (hpos : 0 < size) :
    (∀ a, a % pageSize = 0 → (kmainListed mem words pae kernelEnd mbi).phys.refs
      (a / pageSize) ≠ 0 →
      (kmainListed mem words pae kernelEnd mbi).Spares a) ↔
    ∀ a ∈ taken pae kernelEnd mbi, a + pageSize ≤ kernelEnd ∨ kernelEnd + size ≤ a := by
  have hholds := (pagingInit_taken mem hr).1
  rw [hsize] at hholds
  have hrefs : (kmainListed mem words pae kernelEnd mbi).phys.refs =
      ((Pmm.initListed mem kernelEnd mbi).phys.pagingInit
        (identityMapEnd kernelEnd size)).refs := by
    rw [kmain_heap mem words hsize hpos]
    rfl
  have hread : ∀ a ∈ taken pae kernelEnd mbi, ∃ e ∈ mbi.mmap, Reads kernelEnd mbi e a := fun a ha =>
    (mem_init hr (hholds.sub a (List.mem_append_left _ ha))).2
  rw [hrefs]
  constructor
  · intro hall a ha
    obtain ⟨e, -, h⟩ := hread a ha
    have hone := hholds.refs a h.2.1
    rw [if_pos ha] at hone
    exact (spares_iff hr hsize hpos h).mp (hall a h.2.1 (by omega))
  · intro hout a hmod hcount
    rw [hholds.refs a hmod] at hcount
    by_cases ha : a ∈ taken pae kernelEnd mbi
    · obtain ⟨e, -, h⟩ := hread a ha
      exact (spares_iff hr hsize hpos h).mpr (hout a ha)
    · -- the VGA frame lies below the kernel
      rw [if_neg ha] at hcount
      have hvga : a = vgaFrame := by
        by_contra hne
        exact hcount (init_refs mem kernelEnd mbi (pfn_ne hmod (by decide) hne))
      intro x hlo hhi hin
      have hkernel := ((inHeap_iff hr hsize hpos).mp hin).1
      have hstart := hr.image.1
      unfold vgaFrame kernelStart pageSize at *
      omega

/-- **The heap's region is left to the heap**: above the image there is no module,
`Paging::init` takes no frame, and no other region names the page in which the heap ends. -/
structure LeftToHeap (pae : Bool) (kernelEnd : Nat) (mbi : Mbi) : Prop where
  modules : ∀ m ∈ mbi.modules, m.modStart < m.modEnd → m.modEnd ≤ kernelEnd ∨
    kernelEnd + alignUp (availableAbove (mbi.chunks pae) kernelEnd) blockAlign ≤ m.modStart
  frames : ∀ a ∈ taken pae kernelEnd mbi,
    a + pageSize ≤ kernelEnd ∨ kernelEnd + availableAbove (mbi.chunks pae) kernelEnd ≤ a
  edge : EdgeUnread kernelEnd (kernelEnd + availableAbove (mbi.chunks pae) kernelEnd) mbi

/-- A module keeps its bytes exactly when the heap spares it. -/
theorem modules_iff (mem : Nat → BitVec 8) (words : Nat → Nat) (hr : Regular pae kernelEnd mbi)
    (hsize : availableAbove (mbi.chunks pae) kernelEnd = size) (hpos : 0 < size) (m : Module) :
    (∀ x, m.modStart ≤ x → x < m.modEnd → ¬ (kmainListed mem words pae kernelEnd mbi).InHeap x) ↔
      (m.modStart < m.modEnd →
        m.modEnd ≤ kernelEnd ∨ kernelEnd + alignUp size blockAlign ≤ m.modStart) := by
  have hup : 0 < alignUp size blockAlign := by
    unfold alignUp Alloc.sizeMax blockAlign
    split
    · decide
    · omega
  simp only [inHeap_iff hr hsize hpos]
  constructor
  · intro hall hlt
    by_contra hmeet
    -- the first byte that the module and the heap share
    exact hall (max m.modStart kernelEnd) (by omega) (by omega) (by omega)
  · intro hout x hlo hhi
    have := hout (by omega)
    omega

/-- **The partition**, on the map as a list. -/
theorem partitioned_listed (mem : Nat → BitVec 8) (words : Nat → Nat)
    (hr : Regular pae kernelEnd mbi) :
    (kmainListed mem words pae kernelEnd mbi).Partitioned mbi ↔
      availableAbove (mbi.chunks pae) kernelEnd = 0 ∨ LeftToHeap pae kernelEnd mbi := by
  rcases Nat.eq_zero_or_pos (availableAbove (mbi.chunks pae) kernelEnd) with hzero | hpos
  · have hnone : ∀ x, ¬ (kmainListed mem words pae kernelEnd mbi).InHeap x := by
      unfold kmainListed setUp Booted.InHeap
      rw [hzero]
      simp
    refine iff_of_true ?_ (.inl hzero)
    exact ⟨fun _ _ x _ _ => hnone x, fun _ _ _ x _ _ => hnone x, fun _ _ x _ _ => hnone x⟩
  · constructor
    · intro hp
      exact .inr ⟨fun m hm => (modules_iff mem words hr rfl hpos m).mp (hp.modules m hm),
        (handed_iff mem words hr rfl hpos).mp hp.handed, edge_unread mem words hr rfl hpos hp⟩
    · rintro (hzero | hleft)
      · omega
      · exact ⟨fun m hm => (modules_iff mem words hr rfl hpos m).mpr (hleft.modules m hm),
          (handed_iff mem words hr rfl hpos).mpr hleft.frames,
          free_spared mem words hr rfl hpos hleft.edge⟩

/-- **Boot memory is partitioned** exactly when there is no heap or its region is left to it. -/
theorem partitioned_iff (hb : b.Preserved pae kernelEnd) (hr : Regular pae kernelEnd b.mbi)
    (hk : kmain fuel b.mem words pae kernelEnd b.info = some booted) :
    booted.Partitioned b.mbi ↔
      availableAbove (b.mbi.chunks pae) kernelEnd = 0 ∨ LeftToHeap pae kernelEnd b.mbi := by
  rw [BootImage.kmain_listed hb hr hk]
  exact partitioned_listed b.mem words hr

/-- The structures lie below `lo`, and the frames do not. -/
theorem BootImage.Preserved.of_low {lo : Nat} (hinfo : b.info + 52 ≤ lo)
    (hmap : ∀ e ∈ b.entries, e + 24 ≤ lo ∧ lo ≤ (entryAt b.mem e).start) :
    b.Preserved pae kernelEnd where
  toUndisturbed := .of_low hinfo hmap
  chunks c hc _ e he a hr := by
    have hlow := (hmap c hc).1
    have hstart := (hmap e he).2
    have hread := hr.2.2.1
    unfold Clear
    omega

/-- No frame lies over the map. -/
theorem twoImage_preserved (pae : Bool) (kernelEnd : Nat) : twoImage.Preserved pae kernelEnd :=
  .of_low (show twoImage.info + 52 ≤ 0x100000 by decide) (by decide)

/-- The regions are below 4 GiB and apart. -/
theorem twoImage_regular : Regular false 0x108000 twoImage.mbi := by
  rw [twoImage_mbi]
  exact .of_apart (by decide) (by decide) (by decide) (by decide)

/-- The heap is left to itself. -/
theorem twoImage_left : LeftToHeap false 0x108000 twoImage.mbi := by
  rw [twoImage_mbi]
  exact ⟨by decide, by decide, fun hne => absurd (by decide) hne⟩

/-- The start of the kernel ends. -/
theorem twoImage_kmain (words : Nat → Nat) :
    ∃ fuel, kmain fuel twoImage.mem words false 0x108000 twoImage.info =
      some (kmainListed twoImage.mem words false 0x108000 twoImage.mbi) :=
  BootImage.kmain_some (twoImage_preserved _ _) twoImage_regular (by decide) words

/-- Memory is partitioned. -/
theorem twoImage_partitioned :
    ∃ fuel booted, kmain fuel twoImage.mem (fun _ => 0) false 0x108000 twoImage.info = some booted ∧
      booted.Partitioned twoImage.mbi := by
  obtain ⟨fuel, hk⟩ := twoImage_kmain fun _ => 0
  exact ⟨fuel, _, hk,
    (partitioned_iff (twoImage_preserved _ _) twoImage_regular hk).mpr (.inr twoImage_left)⟩

/-- 128 KiB at 1 MiB, half of them the kernel. -/
def oneImage : BootImage where
  mem := loaded [⟨0x100000, 0x20000, 1⟩]
  info := 0x500
  entries := [0x600]
  follows := by decide

/-- The map that is stored in the image. -/
theorem oneImage_mbi :
    oneImage.mbi = { flags := 0x40, mods := [], mmap := [⟨0x100000, 0x20000, 1⟩] } := by decide

/-- The region is below 4 GiB. -/
theorem oneImage_regular : Regular false 0x110000 oneImage.mbi := by
  rw [oneImage_mbi]
  exact .of_apart (by decide) (by decide) (by decide) (by decide)

/-- The page directory is the last page of the heap. -/
theorem heap_over_directory :
    ¬ ∀ (b : BootImage) (words : Nat → Nat) (pae : Bool) (kernelEnd fuel : Nat) (booted : Booted),
      kernelStart ≤ kernelEnd ∧ kernelEnd % blockAlign = 0 → Available b.mbi kernelStart kernelEnd →
        (∀ m ∈ b.mbi.modules, Available b.mbi m.modStart m.modEnd) →
          kmain fuel b.mem words pae kernelEnd b.info = some booted → booted.Partitioned b.mbi := by
  intro hall
  have hpreserved : oneImage.Preserved false 0x110000 :=
    .of_low (show oneImage.info + 52 ≤ 0x100000 by decide) (by decide)
  obtain ⟨fuel, hk⟩ := BootImage.kmain_some hpreserved oneImage_regular (by decide) fun _ => 0
  have havailable : Available oneImage.mbi kernelStart 0x110000 := by
    rw [oneImage_mbi]
    exact ⟨_, List.mem_singleton_self _, by decide⟩
  have hp := hall oneImage (fun _ => 0) false 0x110000 fuel _ (by decide) havailable
    (by rw [oneImage_mbi]; simp [Mbi.modules]) hk
  have hsize : 0 < availableAbove (oneImage.mbi.chunks false) 0x110000 := by
    rw [oneImage_mbi]
    decide
  have hout := (handed_iff _ _ oneImage_regular rfl hsize).mp hp.handed
  rw [oneImage_mbi] at hout
  exact absurd (hout 0x11F000 (by decide)) (by decide)

end Doors.Memory
