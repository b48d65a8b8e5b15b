import Mathlib.Data.List.Nodup
import Doors.Memory.Pmm

/-!
# Doors.Memory.Boot

The frame allocator at boot (`Pmm::init`, `kernel/Pmm.cc`), with its counters, for a
memory map that is given as a list and stays as it is.  `Doors.Memory.Scan` reads the map
out of the memory into which the scan writes, and says when that comes to the same.

Addresses and lengths of the map have 64 bits; the scan narrows them to the 32 bits of
`uintptr_t` before it rounds and counts.

`listed_usable_iff` says when the free list comes out right, and
`readsRight_of_below` that every map below 4 GiB is such a case.
-/

namespace Doors.Memory

def kernelStart : Nat := 0x100000
def vgaFrame : Nat := 0xB8000
def maxModuleRanges : Nat := 16

/-! ## what the boot loader passes -/

/-- `multiboot_module_t`. -/
structure Module where
  modStart : Nat
  modEnd : Nat
  deriving Repr, DecidableEq

/-- `multiboot_memory_map_t`. -/
structure MmapEntry where
  addr : Nat
  len : Nat
  type : Nat
  deriving Repr, DecidableEq

/-- `multiboot_info`. -/
structure Mbi where
  flags : Nat
  mods : List Module
  mmap : List MmapEntry
  deriving Repr, DecidableEq

/-- `Pmm::ModuleRange`; `stop` is its `end`. -/
structure ModuleRange where
  start : Nat
  stop : Nat
  deriving Repr, DecidableEq

/-- The statics of `Pmm`. -/
structure Pmm where
  phys : Phys
  freeCount : Nat
  allocCount : Nat
  highWaterFrames : Nat
  freeTotalCount : Nat

/-- `(n + PAGE_SIZE - 1) & ~(PAGE_SIZE - 1)` on 32 bits. -/
def pageUp (n : Nat) : Nat := (n + (pageSize - 1)) % 2 ^ 32 / pageSize * pageSize

/-- `n & ~(PAGE_SIZE - 1)`. -/
def pageDown (n : Nat) : Nat := n / pageSize * pageSize

/-- `maxFrameIdx_` for a `highestPhysAddr`. -/
def frameLimit (highest : Nat) : Nat :=
  min ((highest + (pageSize - 1)) % 2 ^ 32 / pageSize) maxFrames

namespace MmapEntry

variable (e : MmapEntry)

/-- `start` of the scan. -/
def start : Nat := pageUp (e.addr % 2 ^ 32)

/-- `static_cast<uint32_t>(mmap->addr + mmap->len)`. -/
def end32 : Nat := (e.addr + e.len) % 2 ^ 64 % 2 ^ 32

/-- `end` of the scan. -/
def stop : Nat := pageDown e.end32

end MmapEntry

/-! ## the modules -/

/-- What `cacheModuleInfo` keeps of a descriptor. -/
def Module.cached (m : Module) : Nat × Nat :=
  (m.modStart, (m.modEnd + 2 ^ 32 - m.modStart) % 2 ^ 32)

/-- How many descriptors `cacheModuleInfo` keeps of `n`; the count is a signed number. -/
def cachedCount (n : Nat) : Nat := (min (Int.bmod n (2 ^ 32)) maxModuleRanges).toNat

/-- `Pmm::collectModuleRanges`, with the first `moduleCount_` entries of `modulePhysStart_`
and `modulePhysSize_`. -/
def collectModuleRanges (modulePhys : List (Nat × Nat)) : List ModuleRange :=
  modulePhys.map fun m => { start := pageDown m.1, stop := pageUp ((m.1 + m.2) % 2 ^ 32) }

namespace Mbi

variable (mbi : Mbi)

/-- The modules that the boot loader announces. -/
def modules : List Module := if mbi.flags / 8 % 2 = 0 then [] else mbi.mods

/-- The ranges of the modules, as the scan gets them. -/
def ranges : List ModuleRange :=
  collectModuleRanges ((mbi.modules.take (cachedCount mbi.mods.length)).map Module.cached)

end Mbi

/-! ## the scan of a list -/

namespace Pmm

variable (s : Pmm)

/-- The statics at power on. -/
def zero (mem : Nat → BitVec 8) : Pmm :=
  { phys := { mem, free := [], refs := fun _ => 0, maxFrameIdx := 0, panicked := false },
    freeCount := 0, allocCount := 0,
    highWaterFrames := 0, freeTotalCount := 0 }

/-- `Pmm::freeFrameFast`. -/
def freeFrameFast (a : Nat) : Pmm :=
  if a = 0 then s
    else { s with phys := s.phys.freeFrameFast a, freeCount := (s.freeCount + 1) % 2 ^ 32 }

/-- The frames that the scan passes over. -/
def skips (kernelEnd : Nat) (modules : List ModuleRange) (addr : Nat) : Bool :=
  (kernelStart ≤ addr && addr < kernelEnd) || modules.any fun m => m.start ≤ addr && addr < m.stop

/-- The `for` loop over the frames of one entry: `n` rounds from `addr` on. -/
def addFrames (kernelEnd : Nat) (modules : List ModuleRange) : Nat → Nat → Pmm → Pmm
  | 0, _, s => s
  | n + 1, addr, s =>
      addFrames kernelEnd modules n (addr + pageSize)
        (if skips kernelEnd modules addr then s else s.freeFrameFast addr)

/-- One round of the scan; the second component is `highestPhysAddr`. -/
def addEntry (kernelEnd : Nat) (modules : List ModuleRange) (acc : Pmm × Nat) (e : MmapEntry) :
    Pmm × Nat :=
  if e.type = 1 then
    (addFrames kernelEnd modules ((e.stop - e.start) / pageSize) e.start acc.1,
      if e.end32 > acc.2 then e.end32 else acc.2)
  else acc

/-- `Pmm::addMemoryMapPages` over the entries of a list. -/
def addListedPages (kernelEnd : Nat) (modules : List ModuleRange) (mmap : List MmapEntry) : Pmm :=
  let acc := mmap.foldl (addEntry kernelEnd modules) (s, 0)
  let maxFrameIdx := frameLimit acc.2
  let refs := fun i => if i < maxFrameIdx then 0 else acc.1.phys.refs i
  { acc.1 with phys := { acc.1.phys with maxFrameIdx, refs } }

/-- `Pmm::reserveFrame`: the frame is unlinked from the one before it. -/
def reserveFrame (a : Nat) : Pmm :=
  if a = 0 ∨ a ∉ s.phys.free then s
  else
    let rest := (s.phys.free.dropWhile (· ≠ a)).tail
    let mem :=
      match (s.phys.free.takeWhile (· ≠ a)).getLast? with
      | none => s.phys.mem
      | some prev => setWord s.phys.mem prev (rest.headD 0)
    let phys := { s.phys with mem, free := s.phys.free.erase a }
    { s with
      phys := if phys.Counted a then phys.setRef a 1 else phys,
      freeCount := (s.freeCount + 2 ^ 32 - 1) % 2 ^ 32 }

/-- `Pmm::init` with a listed map; `kernelEnd` is the address of `_kernel_end`. -/
def initListed (mem : Nat → BitVec 8) (kernelEnd : Nat) (mbi : Mbi) : Pmm :=
  ((zero mem).addListedPages kernelEnd mbi.ranges mbi.mmap).reserveFrame vgaFrame

end Pmm

/-! ## what the free list is for -/

/-- The address belongs to the kernel image, a module, address 0 or the VGA frame. -/
def Taken (kernelEnd : Nat) (mbi : Mbi) (x : Nat) : Prop :=
  x = 0 ∨ (kernelStart ≤ x ∧ x < kernelEnd) ∨ (∃ m ∈ mbi.modules, m.modStart ≤ x ∧ x < m.modEnd) ∨
    (vgaFrame ≤ x ∧ x < vgaFrame + pageSize)

/-- The frame at `a` lies in available memory below 4 GiB. -/
def InMemory (mbi : Mbi) (a : Nat) : Prop :=
  ∃ e ∈ mbi.mmap, e.type = 1 ∧ e.addr ≤ a ∧ a + pageSize ≤ e.addr + e.len ∧ a + pageSize ≤ 2 ^ 32

/-- **The free list holds usable frames**: each once, in available memory below
4 GiB, with no byte that is taken. -/
structure Usable (kernelEnd : Nat) (mbi : Mbi) (free : List Nat) : Prop where
  nodup : free.Nodup
  memory : ∀ a ∈ free, InMemory mbi a
  apart : ∀ a ∈ free, ∀ x, a ≤ x → x < a + pageSize → ¬ Taken kernelEnd mbi x

/-! ## how the map is read -/

/-- The narrowed range of `e` has the frame `a`, and the scan does not pass over it. -/
def Reads (kernelEnd : Nat) (mbi : Mbi) (e : MmapEntry) (a : Nat) : Prop :=
  e.type = 1 ∧ a % pageSize = 0 ∧ e.start ≤ a ∧ a < e.stop ∧ a ≠ 0 ∧
    Pmm.skips kernelEnd mbi.ranges a = false

/-- **The narrowed ranges are right**: no two have a frame in common, and except for
the VGA frame they have available memory only and nothing of a module. -/
structure ReadsRight (kernelEnd : Nat) (mbi : Mbi) : Prop where
  once : mbi.mmap.Pairwise fun e e' => ∀ a, ¬ (Reads kernelEnd mbi e a ∧ Reads kernelEnd mbi e' a)
  memory : ∀ e ∈ mbi.mmap, ∀ a, Reads kernelEnd mbi e a → a ≠ vgaFrame → InMemory mbi a
  modules : ∀ e ∈ mbi.mmap, ∀ a, Reads kernelEnd mbi e a → a ≠ vgaFrame →
    ∀ m ∈ mbi.modules, a + pageSize ≤ m.modStart ∨ m.modEnd ≤ a ∨ m.modEnd ≤ m.modStart

variable {kernelEnd a n addr : Nat} {mem : Nat → BitVec 8} {mbi : Mbi} {e : MmapEntry}
  {ms : List ModuleRange} {s : Pmm}

/-! ## the scan as a list of frames -/

/-- The frames that `addFrames` pushes, first to last. -/
def framesFrom (kernelEnd : Nat) (modules : List ModuleRange) : Nat → Nat → List Nat
  | 0, _ => []
  | n + 1, addr =>
      if Pmm.skips kernelEnd modules addr || addr = 0
        then framesFrom kernelEnd modules n (addr + pageSize)
      else addr :: framesFrom kernelEnd modules n (addr + pageSize)

/-- The frames that the scan pushes for one entry. -/
def entryFrames (kernelEnd : Nat) (modules : List ModuleRange) (e : MmapEntry) : List Nat :=
  if e.type = 1 then framesFrom kernelEnd modules ((e.stop - e.start) / pageSize) e.start else []

/-- The frames that the whole scan pushes. -/
def scanned (kernelEnd : Nat) (mbi : Mbi) : List Nat :=
  mbi.mmap.flatMap (entryFrames kernelEnd mbi.ranges)

/-- The frames of a region come in front, the last one first. -/
theorem addFrames_free (n addr : Nat) (s : Pmm) :
    (Pmm.addFrames kernelEnd ms n addr s).phys.free =
      (framesFrom kernelEnd ms n addr).reverse ++ s.phys.free := by
  induction n generalizing addr s with
  | zero => rfl
  | succ n ih =>
      rw [Pmm.addFrames, framesFrom, ih]
      cases hskip : Pmm.skips kernelEnd ms addr with
      | true => simp
      | false =>
          by_cases hzero : addr = 0
          · simp [Pmm.freeFrameFast, hzero]
          · simp [Pmm.freeFrameFast, Phys.freeFrameFast, hzero]

/-- The frames of the map come in front, the last one first. -/
theorem scan_free (mmap : List MmapEntry) (acc : Pmm × Nat) :
    (mmap.foldl (Pmm.addEntry kernelEnd ms) acc).1.phys.free =
      (mmap.flatMap (entryFrames kernelEnd ms)).reverse ++ acc.1.phys.free := by
  induction mmap generalizing acc with
  | nil => rfl
  | cons e mmap ih =>
      rw [List.foldl_cons, ih, List.flatMap_cons, List.reverse_append, List.append_assoc]
      congr 1
      unfold Pmm.addEntry entryFrames
      split
      · exact addFrames_free ..
      · rfl

/-- A reserved frame leaves the list. -/
theorem reserveFrame_free (ha : a ≠ 0) : (s.reserveFrame a).phys.free = s.phys.free.erase a := by
  unfold Pmm.reserveFrame
  split
  · next h => exact (List.erase_of_not_mem (h.resolve_left ha)).symm
  · dsimp only
    rw [apply_ite Phys.free]
    simp [Phys.setRef]

/-- The free list before the VGA frame is reserved. -/
theorem addListedPages_free (mem : Nat → BitVec 8) (kernelEnd : Nat) (mbi : Mbi) :
    ((Pmm.zero mem).addListedPages kernelEnd mbi.ranges mbi.mmap).phys.free =
      (scanned kernelEnd mbi).reverse := by
  simp only [Pmm.addListedPages, scan_free, Pmm.zero, List.append_nil, scanned]

/-- The free list after `init`. -/
theorem init_free (mem : Nat → BitVec 8) (kernelEnd : Nat) (mbi : Mbi) :
    (Pmm.initListed mem kernelEnd mbi).phys.free =
      (scanned kernelEnd mbi).reverse.erase vgaFrame := by
  rw [Pmm.initListed, reserveFrame_free (by decide), addListedPages_free]

/-- The frames of a region. -/
theorem mem_framesFrom : a ∈ framesFrom kernelEnd ms n addr ↔
    a % pageSize = addr % pageSize ∧ addr ≤ a ∧ a < addr + n * pageSize ∧ a ≠ 0 ∧
      Pmm.skips kernelEnd ms a = false := by
  induction n generalizing addr with
  | zero => simp [framesFrom]; omega
  | succ n ih =>
      have hstep : a % pageSize = addr % pageSize → addr ≤ a → a ≠ addr → addr + pageSize ≤ a := by
        unfold pageSize
        omega
      have hmod : (addr + pageSize) % pageSize = addr % pageSize := Nat.add_mod_right ..
      rw [framesFrom, Nat.succ_mul]
      split
      · next hskip =>
          have hne : a ≠ 0 → Pmm.skips kernelEnd ms a = false → a ≠ addr := by
            rintro ha hs rfl
            simp [hs, ha] at hskip
          rw [ih, hmod]
          constructor
          · rintro ⟨h₁, h₂, h₃, h₄, h₅⟩
            exact ⟨h₁, by omega, by omega, h₄, h₅⟩
          · rintro ⟨h₁, h₂, h₃, h₄, h₅⟩
            exact ⟨h₁, hstep h₁ h₂ (hne h₄ h₅), by omega, h₄, h₅⟩
      · next hskip =>
          have hpush : addr ≠ 0 ∧ Pmm.skips kernelEnd ms addr = false := by
            simpa [and_comm] using hskip
          have hpage : 0 < pageSize := by decide
          rw [List.mem_cons, ih, hmod]
          constructor
          · rintro (rfl | ⟨h₁, h₂, h₃, h₄, h₅⟩)
            · exact ⟨rfl, Nat.le_refl _, by omega, hpush⟩
            · exact ⟨h₁, by omega, by omega, h₄, h₅⟩
          · rintro ⟨h₁, h₂, h₃, h₄, h₅⟩
            by_cases heq : a = addr
            · exact .inl heq
            · exact .inr ⟨h₁, hstep h₁ h₂ heq, by omega, h₄, h₅⟩

/-- No frame of a region comes twice. -/
theorem framesFrom_nodup (n addr : Nat) : (framesFrom kernelEnd ms n addr).Nodup := by
  induction n generalizing addr with
  | zero => exact List.nodup_nil
  | succ n ih =>
      rw [framesFrom]
      split
      · exact ih _
      · refine List.nodup_cons.mpr ⟨fun hin => ?_, ih _⟩
        have hlo := (mem_framesFrom.mp hin).2.1
        unfold pageSize at hlo
        omega

/-- A region begins at a frame. -/
theorem start_mod (e : MmapEntry) : e.start % pageSize = 0 := Nat.mul_mod_left ..

/-- A region ends at a frame. -/
theorem stop_mod (e : MmapEntry) : e.stop % pageSize = 0 := Nat.mul_mod_left ..

/-- The frames of an entry. -/
theorem mem_entryFrames : a ∈ entryFrames kernelEnd mbi.ranges e ↔ Reads kernelEnd mbi e a := by
  have hstart := start_mod e
  have hstop := stop_mod e
  unfold entryFrames Reads
  split
  · next htype =>
      rw [mem_framesFrom, hstart]
      have hspan : e.start ≤ e.stop → e.start + (e.stop - e.start) / pageSize * pageSize =
          e.stop := by
        unfold pageSize at *
        omega
      have hnone : ¬ e.start ≤ e.stop → (e.stop - e.start) / pageSize * pageSize = 0 := by
        intro hlt
        rw [Nat.sub_eq_zero_of_le (by omega)]
        simp
      by_cases hle : e.start ≤ e.stop
      · simp [htype, hspan hle]
      · simp only [hnone hle, htype, true_and]
        omega
  · next htype => simp [htype]

/-- The frames of the map. -/
theorem mem_scanned : a ∈ scanned kernelEnd mbi ↔ ∃ e ∈ mbi.mmap, Reads kernelEnd mbi e a := by
  simp [scanned, mem_entryFrames]

/-- A frame that is read is not at 0 and below 4 GiB. -/
theorem Reads.frame (hr : Reads kernelEnd mbi e a) : 0 < a ∧ a < 2 ^ 32 := by
  obtain ⟨-, -, -, hhi, hne, -⟩ := hr
  unfold MmapEntry.stop pageDown MmapEntry.end32 pageSize at hhi
  omega

/-- The scan pushes every frame once when no two narrowed ranges share one. -/
theorem scanned_nodup :
    (scanned kernelEnd mbi).Nodup ↔ mbi.mmap.Pairwise fun e e' =>
      ∀ a, ¬ (Reads kernelEnd mbi e a ∧ Reads kernelEnd mbi e' a) := by
  rw [scanned, List.nodup_flatMap]
  constructor
  · rintro ⟨-, hpair⟩
    refine hpair.imp fun hd a ⟨ha, ha'⟩ => ?_
    exact hd (mem_entryFrames.mpr ha) (mem_entryFrames.mpr ha')
  · intro hpair
    refine ⟨fun e _ => ?_, hpair.imp fun hd a ha ha' =>
      hd a ⟨mem_entryFrames.mp ha, mem_entryFrames.mp ha'⟩⟩
    unfold entryFrames
    split
    · exact framesFrom_nodup ..
    · exact List.nodup_nil

/-! ## when the free list is right -/

/-- Removing one VGA frame leaves none exactly when each frame was there once. -/
theorem nodup_of_erase {l : List Nat} {v : Nat} (hnodup : (l.erase v).Nodup) (hv : v ∉ l.erase v) :
    l.Nodup := by
  rw [List.nodup_iff_count_le_one] at hnodup ⊢
  intro a
  have hcount := hnodup a
  rw [List.count_erase] at hcount
  by_cases heq : v = a
  · subst heq
    have hzero := List.count_eq_zero.mpr hv
    rw [List.count_erase] at hzero
    simp at hzero
    omega
  · simpa [heq] using hcount

/-- A frame that the scan pushes has nothing of the kernel image. -/
theorem Reads.kernel {x : Nat} (hr : Reads kernelEnd mbi e a) (hlo : a ≤ x)
    (hhi : x < a + pageSize) :
    ¬ (kernelStart ≤ x ∧ x < kernelEnd) := by
  obtain ⟨-, hmod, -, -, -, hskip⟩ := hr
  simp only [Pmm.skips, Bool.or_eq_false_iff, Bool.and_eq_false_iff,
    decide_eq_false_iff_not] at hskip
  have hskip := hskip.1
  unfold kernelStart pageSize at *
  omega

/-- **The initial free list** is right exactly when the narrowed ranges are. -/
theorem listed_usable_iff (mem : Nat → BitVec 8) (kernelEnd : Nat) (mbi : Mbi) :
    Usable kernelEnd mbi (Pmm.initListed mem kernelEnd mbi).phys.free ↔
      ReadsRight kernelEnd mbi := by
  constructor
  · intro hu
    have hvga : vgaFrame ∉ (Pmm.initListed mem kernelEnd mbi).phys.free := fun hin =>
      hu.apart _ hin vgaFrame (Nat.le_refl _) (by decide)
        (.inr (.inr (.inr ⟨Nat.le_refl _, by decide⟩)))
    have hfree : ∀ e ∈ mbi.mmap, ∀ a, Reads kernelEnd mbi e a → a ≠ vgaFrame →
        a ∈ (Pmm.initListed mem kernelEnd mbi).phys.free := by
      intro e he a hr ha
      rw [init_free]
      exact (List.mem_erase_of_ne ha).mpr (List.mem_reverse.mpr (mem_scanned.mpr ⟨e, he, hr⟩))
    refine ⟨scanned_nodup.mp ?_, fun e he a hr ha => hu.memory a (hfree e he a hr ha),
      fun e he a hr ha m hm => ?_⟩
    · have hnodup := hu.nodup
      rw [init_free] at hnodup hvga
      exact List.nodup_reverse.mp (nodup_of_erase hnodup hvga)
    · by_contra hmeets
      push Not at hmeets
      have hpage : 0 < pageSize := by decide
      -- the first byte that the frame and the module share
      have hx := hu.apart a (hfree e he a hr ha) (max a m.modStart) (by omega) (by omega)
      exact hx (.inr (.inr (.inl ⟨m, hm, by omega, by omega⟩)))
  · intro hr
    have hnodup : (scanned kernelEnd mbi).reverse.Nodup :=
      List.nodup_reverse.mpr (scanned_nodup.mpr hr.once)
    have hmem : ∀ a ∈ (Pmm.initListed mem kernelEnd mbi).phys.free, a ≠ vgaFrame ∧ ∃ e ∈ mbi.mmap,
        Reads kernelEnd mbi e a := by
      intro a ha
      rw [init_free] at ha
      obtain ⟨hne, hin⟩ := hnodup.mem_erase_iff.mp ha
      exact ⟨hne, mem_scanned.mp (List.mem_reverse.mp hin)⟩
    constructor
    · rw [init_free]
      exact hnodup.erase _
    · intro a ha
      obtain ⟨hne, e, he, hread⟩ := hmem a ha
      exact hr.memory e he a hread hne
    · intro a ha x hlo hhi htaken
      obtain ⟨hne, e, he, hread⟩ := hmem a ha
      rcases htaken with hzero | hkernel | ⟨m, hm, hm₁, hm₂⟩ | hvga
      · have := hread.2.2.2.2.1
        omega
      · exact hread.kernel hlo hhi hkernel
      · have := hr.modules e he a hread hne m hm
        omega
      · have hmod := hread.2.1
        unfold vgaFrame pageSize at *
        omega

/-! ## maps below 4 GiB -/

/-- The available regions end below 4 GiB, start before its last page and do not
overlap; the modules end before the last page and have room in the table. -/
structure Below (mbi : Mbi) : Prop where
  regions : ∀ e ∈ mbi.mmap, e.type = 1 → e.addr + e.len < 2 ^ 32 ∧ e.addr ≤ 0xFFFFF000
  disjoint : mbi.mmap.Pairwise fun e e' => e.type = 1 → e'.type = 1 →
    e.addr + e.len ≤ e'.addr ∨ e'.addr + e'.len ≤ e.addr
  modules : ∀ m ∈ mbi.modules, m.modStart < m.modEnd → m.modEnd ≤ 0xFFFFF000
  room : mbi.mods.length ≤ maxModuleRanges

/-- Rounding that does not wrap. -/
theorem pageUp_of_le {k : Nat} (hk : k ≤ 0xFFFFF000) : pageUp k = (k + 4095) / 4096 * 4096 := by
  unfold pageUp pageSize
  rw [Nat.mod_eq_of_lt (by omega)]

/-- A region that ends below 4 GiB and starts before its last page is read as it is. -/
theorem Reads.within (hr : Reads kernelEnd mbi e a) (hend : e.addr + e.len < 2 ^ 32)
    (hstart : e.addr ≤ 0xFFFFF000) :
    e.addr ≤ a ∧ a + pageSize ≤ e.addr + e.len ∧ a + pageSize ≤ 2 ^ 32 := by
  obtain ⟨-, hmod, hlo, hhi, -⟩ := hr
  have h32 : e.end32 = e.addr + e.len := by
    unfold MmapEntry.end32
    omega
  unfold MmapEntry.start at hlo
  rw [Nat.mod_eq_of_lt (by omega), pageUp_of_le hstart] at hlo
  unfold MmapEntry.stop pageDown at hhi
  rw [h32] at hhi
  unfold pageSize at *
  omega

/-- A frame lies in its region when no region reaches 4 GiB. -/
theorem Below.reads (hb : Below mbi) (he : e ∈ mbi.mmap) (hr : Reads kernelEnd mbi e a) :
    e.addr ≤ a ∧ a + pageSize ≤ e.addr + e.len ∧ a + pageSize ≤ 2 ^ 32 := by
  obtain ⟨hend, hstart⟩ := hb.regions e he hr.1
  exact hr.within hend hstart

/-- Regions that do not overlap have no frame in common. -/
theorem once_of_disjoint (hreads : ∀ e ∈ mbi.mmap, ∀ a, Reads kernelEnd mbi e a →
    e.addr ≤ a ∧ a + pageSize ≤ e.addr + e.len)
    (hdisj : mbi.mmap.Pairwise fun e e' => e.type = 1 → e'.type = 1 →
    e.addr + e.len ≤ e'.addr ∨ e'.addr + e'.len ≤ e.addr) :
    mbi.mmap.Pairwise fun e e' => ∀ a, ¬ (Reads kernelEnd mbi e a ∧ Reads kernelEnd mbi e' a) := by
  refine hdisj.imp_of_mem fun {e e'} he he' hd a ⟨hr, hr'⟩ => ?_
  have h₁ := hreads e he a hr
  have h₂ := hreads e' he' a hr'
  have hpage : 0 < pageSize := by decide
  have := hd hr.1 hr'.1
  omega

/-- A module that is not empty is a range. -/
theorem Below.ranges (hb : Below mbi) {m : Module} (hm : m ∈ mbi.modules)
    (hlt : m.modStart < m.modEnd) :
    ⟨pageDown m.modStart, pageUp m.modEnd⟩ ∈ mbi.ranges := by
  have hend := hb.modules m hm hlt
  have hroom := hb.room
  unfold maxModuleRanges at hroom
  unfold Mbi.modules at hm
  split at hm
  · simp at hm
  · next hflag =>
      have hcount : cachedCount mbi.mods.length = mbi.mods.length := by
        unfold cachedCount maxModuleRanges
        rw [Int.bmod_eq_of_le (by omega) (by omega)]
        omega
      have hsum : (m.modStart + (m.modEnd + 2 ^ 32 - m.modStart) % 2 ^ 32) % 2 ^ 32 = m.modEnd := by
        omega
      simp only [Mbi.ranges, Mbi.modules, if_neg hflag, collectModuleRanges, hcount,
        List.take_length, List.map_map, List.mem_map]
      refine ⟨m, hm, ?_⟩
      show ModuleRange.mk _
        (pageUp ((m.modStart + (m.modEnd + 2 ^ 32 - m.modStart) % 2 ^ 32) % 2 ^ 32)) = _
      rw [hsum]
      rfl

/-- **A map below 4 GiB** is read right. -/
theorem readsRight_of_below (kernelEnd : Nat) (hb : Below mbi) : ReadsRight kernelEnd mbi := by
  constructor
  · refine once_of_disjoint (fun e he a hr => ?_) hb.disjoint
    have hwithin := hb.reads he hr
    exact ⟨hwithin.1, hwithin.2.1⟩
  · intro e he a hr _
    exact ⟨e, he, hr.1, hb.reads he hr⟩
  · intro e he a hr _ m hm
    by_cases hlt : m.modStart < m.modEnd
    · have hin := hb.ranges hm hlt
      have hend := hb.modules m hm hlt
      obtain ⟨-, hmod, -, -, -, hskip⟩ := hr
      simp only [Pmm.skips, Bool.or_eq_false_iff, List.any_eq_false] at hskip
      have hout := hskip.2 _ hin
      simp only [Bool.and_eq_true, decide_eq_true_eq] at hout
      rw [pageUp_of_le hend, pageDown] at hout
      unfold pageSize at *
      omega
    · exact .inr (.inr (by omega))

end Doors.Memory
