import Mathlib.Data.Set.Insert
import Doors.Memory.Threaded

/-!
# Doors.Memory.Scan

`Pmm::init` (`kernel/Pmm.cc`) as it is: the boot loader's structures lie in the memory into
which the scan writes the links of the free frames, and every field is read when the code
reads it.

`Raw.init` runs on `Raw`, which has memory and the head of the list.  A frame that is
pushed twice closes the links to a circle.

* `Leaves.list` — the free list that `init` leaves, when there is one, has whole frames and
  is counted;
* `init_once`, `init_twice` — on a map that the scan does not write over, there is one
  exactly when no frame is read twice, and it is that of `Pmm.initListed`;
* `init_usable_iff` — when it is right;
* `stats_exact`, `threaded_run` — the counters and the links in every run from there on.
-/

namespace Doors.Memory

open Chain Run

/-! ## the structures of the boot loader -/

/-- The little-endian word of 64 bits at `a`. -/
def dword (mem : Nat → BitVec 8) (a : Nat) : Nat := word mem a + 2 ^ 32 * word mem (a + 4)

/-- The `multiboot_memory_map_t` at `p`; its `size` is the word at `p` itself. -/
def entryAt (mem : Nat → BitVec 8) (p : Nat) : MmapEntry :=
  { addr := dword mem (p + 4), len := dword mem (p + 12), type := word mem (p + 20) }

/-- `mmap + mmap->size + sizeof(uint32_t)`. -/
def nextEntry (mem : Nat → BitVec 8) (p : Nat) : Nat := (p + word mem p + 4) % 2 ^ 32

/-- `mbi->mmap_addr`, for the `multiboot_info` at `info`. -/
def mapStart (mem : Nat → BitVec 8) (info : Nat) : Nat := word mem (info + 48)

/-- `mbi->mmap_addr + mbi->mmap_length`. -/
def mapEnd (mem : Nat → BitVec 8) (info : Nat) : Nat :=
  (word mem (info + 48) + word mem (info + 44)) % 2 ^ 32

/-- `mods[i]`. -/
def moduleAt (mem : Nat → BitVec 8) (info i : Nat) : Module :=
  let p := (word mem (info + 24) + 16 * i) % 2 ^ 32
  { modStart := word mem p, modEnd := word mem (p + 4) }

/-- `Pmm::cacheModuleInfo`. -/
def cacheModuleInfo (mem : Nat → BitVec 8) (info : Nat) : List (Nat × Nat) :=
  if word mem info / 8 % 2 = 0 then []
  else
    (List.range (cachedCount (word mem (info + 20)))).map fun i => (moduleAt mem info i).cached

/-! ## the scan -/

namespace Raw

variable (s : Raw)

/-- The statics at power on. -/
def zero (mem : Nat → BitVec 8) : Raw :=
  { mem, freeList := 0, freeCount := 0, refs := fun _ => 0, maxFrameIdx := 0 }

/-- `Pmm::freeFrameFast`. -/
def freeFrameFast (a : Nat) : Raw :=
  if a = 0 then s
  else
    { s with
      mem := setWord s.mem a s.freeList
      freeList := a
      freeCount := (s.freeCount + 1) % 2 ^ 32 }

/-- The `for` loop over the frames of one entry: `n` rounds from `addr` on. -/
def addFrames (kernelEnd : Nat) (modules : List ModuleRange) : Nat → Nat → Raw → Raw
  | 0, _, s => s
  | n + 1, addr, s =>
      addFrames kernelEnd modules n (addr + pageSize)
        (if Pmm.skips kernelEnd modules addr then s else s.freeFrameFast addr)

/-- One round of the scan; the second component is `highestPhysAddr`. -/
def addEntry (kernelEnd : Nat) (modules : List ModuleRange) (acc : Raw × Nat) (mmap : Nat) :
    Raw × Nat :=
  let e := entryAt acc.1.mem mmap
  if e.type = 1 then
    let s := addFrames kernelEnd modules ((e.stop - e.start) / pageSize) e.start acc.1
    -- `addr` and `len` are read again
    let end32 := (entryAt s.mem mmap).end32
    (s, if end32 > acc.2 then end32 else acc.2)
  else acc

/-- The `while` loop over the map.  `none` when the fuel does not suffice. -/
def scanMap (kernelEnd : Nat) (modules : List ModuleRange) (info : Nat) :
    Nat → Nat → Raw × Nat → Option (Raw × Nat)
  | 0, _, _ => none
  | k + 1, mmap, acc =>
      if mmap < mapEnd acc.1.mem info then
        let acc := addEntry kernelEnd modules acc mmap
        scanMap kernelEnd modules info k (nextEntry acc.1.mem mmap) acc
      else some acc

/-- The counts for the frames below the highest address. -/
def limit (acc : Raw × Nat) : Raw :=
  let maxFrameIdx := frameLimit acc.2
  { acc.1 with maxFrameIdx, refs := fun i => if i < maxFrameIdx then 0 else acc.1.refs i }

/-- `Pmm::addMemoryMapPages`. -/
def addMemoryMapPages (fuel kernelEnd : Nat) (modules : List ModuleRange) (info : Nat) :
    Option Raw :=
  (scanMap kernelEnd modules info fuel (mapStart s.mem info) (s, 0)).map limit

/-- `Pmm::init`; `kernelEnd` is the address of `_kernel_end`, and `info` that of `*mbi`. -/
def init (fuel : Nat) (mem : Nat → BitVec 8) (kernelEnd info : Nat) : Option Raw :=
  let modules := collectModuleRanges (cacheModuleInfo mem info)
  ((zero mem).addMemoryMapPages fuel kernelEnd modules info).bind
    fun s => s.reserveFrame fuel vgaFrame

end Raw

/-- **`Pmm::init` returns** and leaves the free list `l`. -/
def Leaves (mem : Nat → BitVec 8) (kernelEnd info : Nat) (s : Raw) (l : List Nat) : Prop :=
  (∃ fuel, Raw.init fuel mem kernelEnd info = some s) ∧ Linked s.next s.freeList l

variable {mem : Nat → BitVec 8} {kernelEnd info a k n p stop addr : Nat} {ms : List ModuleRange}
  {s s' : Raw} {acc acc' : Raw × Nat} {l frames : List Nat} {S : Set Nat}

/-! ## more fuel -/

/-- More fuel does not change the scan. -/
theorem scanMap_mono {k' : Nat} (h : Raw.scanMap kernelEnd ms info k p acc = some acc')
    (hk : k ≤ k') : Raw.scanMap kernelEnd ms info k' p acc = some acc' := by
  induction k generalizing k' p acc with
  | zero => simp [Raw.scanMap] at h
  | succ k ih =>
      obtain ⟨k', rfl⟩ := Nat.exists_eq_add_of_lt hk
      rw [Raw.scanMap] at h ⊢
      split at h
      · next hlt =>
          rw [if_pos hlt]
          exact ih h (by omega)
      · next hge => rwa [if_neg hge]

/-- More fuel does not change the removal. -/
theorem take_mono {k' : Nat} {slot : Slot} (h : take a k slot p s = some s') (hk : k ≤ k') :
    take a k' slot p s = some s' := by
  induction k generalizing k' p s slot with
  | zero => simp [take] at h
  | succ k ih =>
      obtain ⟨k', rfl⟩ := Nat.exists_eq_add_of_lt hk
      rw [take] at h ⊢
      split at h
      · next hnull => rwa [if_pos hnull]
      · next hnull =>
          rw [if_neg hnull]
          split at h
          · next hfound => rwa [if_pos hfound]
          · next hfound =>
              rw [if_neg hfound]
              exact ih h (by omega)

/-- More fuel does not change `reserveFrame`. -/
theorem reserveFrame_mono {k' : Nat} (h : s.reserveFrame k a = some s') (hk : k ≤ k') :
    s.reserveFrame k' a = some s' := by
  unfold Raw.reserveFrame at *
  split at h
  · next hzero => rwa [if_pos hzero]
  · next hzero =>
      rw [if_neg hzero]
      exact take_mono h hk

/-- More fuel does not change `init`. -/
theorem init_mono {k' : Nat} (h : Raw.init k mem kernelEnd info = some s) (hk : k ≤ k') :
    Raw.init k' mem kernelEnd info = some s := by
  unfold Raw.init Raw.addMemoryMapPages at *
  obtain ⟨s₁, hscan, hres⟩ := Option.bind_eq_some_iff.mp h
  obtain ⟨acc, hacc, rfl⟩ := Option.map_eq_some_iff.mp hscan
  dsimp only
  rw [scanMap_mono hacc hk]
  exact reserveFrame_mono hres hk

/-- `init` leaves one state and one list. -/
theorem Leaves.unique {s' : Raw} {l' : List Nat} (h : Leaves mem kernelEnd info s l)
    (h' : Leaves mem kernelEnd info s' l') : s = s' ∧ l = l' := by
  obtain ⟨⟨k, hk⟩, hl⟩ := h
  obtain ⟨⟨k', hk'⟩, hl'⟩ := h'
  have heq := (init_mono hk (Nat.le_max_left k k')).symm.trans
    (init_mono hk' (Nat.le_max_right k k'))
  obtain rfl := Option.some.inj heq
  exact ⟨rfl, hl.unique hl'⟩

/-! ## the scan as pushes -/

/-- What can be pushed: the address of a frame. -/
def IsFrame (a : Nat) : Prop := a % pageSize = 0 ∧ 0 < a ∧ a < 2 ^ 32

/-- The frames, pushed in this order. -/
def Raw.push (s : Raw) (frames : List Nat) : Raw := frames.foldl Raw.freeFrameFast s

/-- A region pushes its frames one by one. -/
theorem addFrames_push (n addr : Nat) (s : Raw) :
    Raw.addFrames kernelEnd ms n addr s = s.push (framesFrom kernelEnd ms n addr) := by
  induction n generalizing addr s with
  | zero => rfl
  | succ n ih =>
      rw [Raw.addFrames, framesFrom, ih]
      cases hskip : Pmm.skips kernelEnd ms addr with
      | true => simp
      | false =>
          by_cases hzero : addr = 0
          · simp [Raw.freeFrameFast, hzero]
          · simp [Raw.push, hzero]

/-- A region is cut into frames. -/
theorem isFrame_framesFrom (hmod : addr % pageSize = 0) (hlt : addr + n * pageSize ≤ 2 ^ 32) :
    ∀ a ∈ framesFrom kernelEnd ms n addr, IsFrame a := by
  intro a ha
  obtain ⟨hpage, -, hhi, hne, -⟩ := mem_framesFrom.mp ha
  exact ⟨hpage.trans hmod, Nat.pos_of_ne_zero hne, by omega⟩

/-- One round pushes the frames of the entry as it was read. -/
theorem addEntry_push (acc : Raw × Nat) (p : Nat) :
    (Raw.addEntry kernelEnd ms acc p).1 =
      acc.1.push (entryFrames kernelEnd ms (entryAt acc.1.mem p)) := by
  unfold Raw.addEntry entryFrames
  dsimp only
  split
  · exact addFrames_push ..
  · rfl

/-- What an entry adds are frames. -/
theorem isFrame_entryFrames (e : MmapEntry) : ∀ a ∈ entryFrames kernelEnd ms e, IsFrame a := by
  unfold entryFrames
  split
  · refine isFrame_framesFrom (start_mod e) ?_
    have hstart := start_lt e
    have hstop := stop_lt e
    unfold pageSize
    omega
  · simp

/-- **The scan** pushes frames and does nothing else. -/
theorem scanMap_push (h : Raw.scanMap kernelEnd ms info k p acc = some acc') :
    ∃ frames, (∀ a ∈ frames, IsFrame a) ∧ acc'.1 = acc.1.push frames := by
  induction k generalizing p acc with
  | zero => simp [Raw.scanMap] at h
  | succ k ih =>
      rw [Raw.scanMap] at h
      split at h
      · obtain ⟨frames, hframes, heq⟩ := ih h
        refine ⟨entryFrames kernelEnd ms (entryAt acc.1.mem p) ++ frames, fun a ha => ?_, ?_⟩
        · exact (List.mem_append.mp ha).elim (isFrame_entryFrames _ a) (hframes a)
        · rw [heq, addEntry_push, Raw.push, Raw.push, Raw.push, List.foldl_append]
      · obtain rfl := Option.some.inj h
        exact ⟨[], by simp, rfl⟩

/-! ## a list or a circle -/

/-- **The links never end**: from the head on they stay among the frames `S`. -/
structure Endless (s : Raw) (S : Set Nat) : Prop where
  frame : ∀ a ∈ S, IsFrame a
  head : s.freeList ∈ S
  next : ∀ a ∈ S, s.next a ∈ S

/-- An endless list is no list. -/
theorem Endless.not_linked (h : Endless s S) : ¬ Linked s.next s.freeList l :=
  not_linked_of_closed h.head fun a ha => ⟨Nat.ne_of_gt (h.frame a ha).2.1, h.next a ha⟩

/-- The link of the pushed frame is the old head; the others stay. -/
theorem next_freeFrameFast (hc : IsFrame n) (ha : a % pageSize = 0) (hhead : s.freeList < 2 ^ 32) :
    (s.freeFrameFast n).next a = if a = n then s.freeList else s.next a := by
  rw [Raw.freeFrameFast, if_neg (Nat.ne_of_gt hc.2.1)]
  split
  · next heq =>
      rw [heq]
      exact word_setWord s.mem hhead
  · next hne => exact next_setWord ha hc.1 hne s.mem

/-- A frame pushed onto an endless list leaves it endless. -/
theorem Endless.push (h : Endless s S) (ha : IsFrame a) :
    Endless (s.freeFrameFast a) (insert a S) := by
  have hnext := fun b hb => next_freeFrameFast (a := b) ha hb (h.frame _ h.head).2.2
  refine ⟨?_, ?_, fun b hb => ?_⟩
  · rintro b (rfl | hb)
    · exact ha
    · exact h.frame b hb
  · rw [Raw.freeFrameFast, if_neg (Nat.ne_of_gt ha.2.1)]
    exact Set.mem_insert a S
  · have hframe : IsFrame b := hb.elim (fun heq => heq ▸ ha) (h.frame b)
    rw [hnext b hframe.1]
    split
    · exact Set.mem_insert_of_mem a h.head
    · next hne => exact Set.mem_insert_of_mem a (h.next b (hb.resolve_left hne))

/-- A frame of the list that is pushed again closes a circle: from it the links go to the
former head and come back. -/
theorem FreeList.circle (h : FreeList s l) (hl : ∀ b ∈ l, IsFrame b) (ha : a ∈ l) :
    ∃ S, Endless (s.freeFrameFast a) S := by
  obtain ⟨pre, post, rfl⟩ := List.append_of_mem ha
  have hnodup := h.linked.nodup
  have hhead : s.freeList = (pre ++ [a]).headD 0 := by
    rw [h.linked.head]
    cases pre <;> rfl
  have hin : s.freeList ∈ pre ++ [a] := by
    rw [hhead]
    cases pre <;> simp
  have hsub : ∀ b ∈ pre ++ [a], b ∈ pre ++ a :: post := by simp; grind
  have hnext := fun b hb => next_freeFrameFast (a := b) (hl a ha) hb (hl _ (hsub _ hin)).2.2
  refine ⟨{b | b ∈ pre ++ [a]}, fun b hb => hl b (hsub b hb), ?_, fun b hb => ?_⟩
  · rw [Raw.freeFrameFast, if_neg (Nat.ne_of_gt (hl a ha).2.1)]
    show a ∈ pre ++ [a]
    simp
  · rw [hnext b (hl b (hsub b hb)).1]
    split
    · exact hin
    · next hne =>
        have hpre : b ∈ pre := by
          have hb : b ∈ pre ++ [a] := hb
          have hor : b ∈ pre ∨ b = a := by simpa using hb
          exact hor.resolve_right hne
        obtain ⟨front, back, rfl⟩ := List.append_of_mem hpre
        have hlinked := h.linked
        rw [List.append_assoc] at hlinked
        have hgoes : s.next b = (back ++ [a]).headD 0 := by
          rw [hlinked.drop.head]
          cases back <;> rfl
        rw [hgoes]
        show _ ∈ front ++ b :: back ++ [a]
        cases back <;> simp

/-- A new frame pushed onto a list. -/
theorem FreeList.freeFrameFast (h : FreeList s l) (ha : IsFrame a) (hfresh : a ∉ l) :
    FreeList (s.freeFrameFast a) (a :: l) := by
  rw [Raw.freeFrameFast, if_neg (Nat.ne_of_gt ha.2.1)]
  exact h.push ha.1 ha.2.1 ha.2.2 hfresh

/-- **Pushes** make a list as long as no frame comes twice, and a circle else. -/
theorem push_cases (h : FreeList s l) (hl : ∀ a ∈ l, IsFrame a) (hf : ∀ a ∈ frames, IsFrame a) :
    ((frames.reverse ++ l).Nodup ∧ FreeList (s.push frames) (frames.reverse ++ l)) ∨
      (¬ (frames.reverse ++ l).Nodup ∧ ∃ S, Endless (s.push frames) S) := by
  have hendless : ∀ (frames : List Nat) (s : Raw) (S : Set Nat), (∀ a ∈ frames, IsFrame a) →
      Endless s S → ∃ S, Endless (s.push frames) S := by
    intro frames
    induction frames with
    | nil => exact fun s S _ hs => ⟨S, hs⟩
    | cons a frames ih =>
        intro s S hf hs
        exact ih _ _ (fun b hb => hf b (List.mem_cons_of_mem a hb)) (hs.push (hf a (by simp)))
  induction frames generalizing s l with
  | nil => exact .inl ⟨h.linked.nodup, h⟩
  | cons a frames ih =>
      have ha := hf a (by simp)
      have hf' : ∀ b ∈ frames, IsFrame b := fun b hb => hf b (List.mem_cons_of_mem a hb)
      have hsplit : (a :: frames).reverse ++ l = frames.reverse ++ a :: l := by simp
      rw [hsplit]
      by_cases hin : a ∈ l
      · refine .inr ⟨fun hnodup => ?_, ?_⟩
        · exact (List.nodup_cons.mp (List.nodup_append.mp hnodup).2.1).1 hin
        · obtain ⟨S, hS⟩ := h.circle hl hin
          exact hendless frames _ S hf' hS
      · exact ih (h.freeFrameFast ha hin) (List.forall_mem_cons.mpr ⟨ha, hl⟩) hf'

/-- The bound of the counted frames does not matter for the list. -/
theorem Endless.limit (h : Endless acc.1 S) : Endless (Raw.limit acc) S :=
  ⟨h.frame, h.head, h.next⟩

/-- A count does not matter for the list. -/
theorem Endless.countOne (h : Endless s S) (a : Nat) : Endless (s.countOne a) S := by
  have hhead : (s.countOne a).freeList = s.freeList := by
    unfold Raw.countOne
    split <;> rfl
  refine ⟨h.frame, hhead ▸ h.head, fun b hb => ?_⟩
  rw [Raw.next, countOne_mem]
  exact h.next b hb

/-- Unlinking a frame does not open a circle. -/
theorem Endless.unlink {slot : Slot} (h : Endless s S) (ha : a ∈ S)
    (hslot : ∀ b, slot = .next b → b ∈ S) : Endless (s.unlink slot a) S := by
  have hnext := h.next a ha
  cases slot with
  | freeList => exact ⟨h.frame, hnext, h.next⟩
  | next b =>
      have hb := hslot b rfl
      refine ⟨h.frame, h.head, fun c hc => ?_⟩
      show word (setWord s.mem b (word s.mem a)) c ∈ S
      by_cases hcb : c = b
      · rw [hcb, word_setWord s.mem (word_lt s.mem a)]
        exact hnext
      · rw [next_setWord (h.frame c hc).1 (h.frame b hb).1 hcb]
        exact h.next c hc

/-- Nothing is taken out of an endless list, or the rest is endless. -/
theorem Endless.take {slot : Slot} (h : Endless s S) (hp : p ∈ S)
    (hslot : ∀ b, slot = .next b → b ∈ S) (ht : take a k slot p s = some s') : Endless s' S := by
  induction k generalizing p slot with
  | zero => simp [Memory.take] at ht
  | succ k ih =>
      rw [Memory.take, if_neg (Nat.ne_of_gt (h.frame p hp).2.1)] at ht
      split at ht
      · obtain rfl := Option.some.inj ht
        exact (h.unlink hp hslot).countOne a
      · exact ih (h.next p hp) (fun b hb => Slot.next.inj hb ▸ hp) ht

/-- `reserveFrame` does not end an endless list. -/
theorem Endless.reserveFrame (h : Endless s S) (hr : s.reserveFrame k a = some s') :
    Endless s' S := by
  unfold Raw.reserveFrame at hr
  split at hr
  · exact Option.some.inj hr ▸ h
  · exact h.take h.head (by simp) hr

/-- The statics at the start. -/
theorem freeList_zero (mem : Nat → BitVec 8) : FreeList (.zero mem) [] :=
  ⟨rfl, by simp, rfl⟩

/-- The bound of the counted frames does not matter for the list. -/
theorem FreeList.limit (h : FreeList acc.1 l) : FreeList (Raw.limit acc) l :=
  ⟨h.linked, h.frames, h.count⟩

/-- **The list that `init` leaves** has whole frames, and `freeCount_` is its length. -/
theorem Leaves.list (h : Leaves mem kernelEnd info s l) : FreeList s l := by
  obtain ⟨⟨k, hinit⟩, hlinked⟩ := h
  obtain ⟨s₁, hscan, hres⟩ := Option.bind_eq_some_iff.mp hinit
  obtain ⟨acc, hacc, rfl⟩ := Option.map_eq_some_iff.mp hscan
  obtain ⟨frames, hframes, hpush⟩ := scanMap_push hacc
  obtain ⟨-, hlist⟩ | ⟨-, S, hS⟩ := push_cases (freeList_zero mem) (by simp) hframes
  · rw [← hpush] at hlist
    have hsome := reserveFrame_eq hlist.limit vgaFrame (Nat.le_max_left _ k)
    rw [reserveFrame_mono hres (Nat.le_trans (Nat.le_max_right _ k) (Nat.le_refl _))] at hsome
    have hleft := (reserved_removes hlist.limit vgaFrame).list
    rw [← Option.some.inj hsome] at hleft
    exact hlinked.unique hleft.linked ▸ hleft
  · rw [← hpush] at hS
    exact absurd hlinked (hS.limit.reserveFrame hres).not_linked

/-! ## a map that stays as it is -/

/-- The entries `l` of the map follow from `p` on, up to `stop`. -/
def Follows (mem : Nat → BitVec 8) (stop : Nat) : Nat → List Nat → Prop
  | p, [] => stop ≤ p
  | p, e :: l => p = e ∧ p < stop ∧ Follows mem stop (nextEntry mem p) l

instance Follows.decidable (mem : Nat → BitVec 8) (stop : Nat) :
    ∀ (p : Nat) (l : List Nat), Decidable (Follows mem stop p l)
  | p, [] => inferInstanceAs (Decidable (stop ≤ p))
  | p, e :: l =>
      have := Follows.decidable mem stop (nextEntry mem p) l
      inferInstanceAs (Decidable (p = e ∧ p < stop ∧ Follows mem stop (nextEntry mem p) l))

/-- **What the boot loader leaves**: memory with a `multiboot_info` and a map whose entries
come to an end. -/
structure BootImage where
  mem : Nat → BitVec 8
  info : Nat
  /-- Where the entries of the map are. -/
  entries : List Nat
  follows : Follows mem (mapEnd mem info) (mapStart mem info) entries

/-- The link of the frame `a` is not over the bytes `lo .. hi - 1`. -/
def Clear (a lo hi : Nat) : Prop := a + 4 ≤ lo ∨ hi ≤ a

namespace BootImage

variable (b : BootImage)

/-- The structures as the boot loader wrote them. -/
def mbi : Mbi where
  flags := word b.mem b.info
  mods := (List.range (word b.mem (b.info + 20))).map (moduleAt b.mem b.info)
  mmap := b.entries.map (entryAt b.mem)

/-- **The scan writes over nothing that it still reads**: no frame that it pushes starts in
the fields of `multiboot_info` for the map, in `size`, `addr` or `len` of its own entry, or in
a later entry. -/
structure Undisturbed (kernelEnd : Nat) : Prop where
  info : ∀ e ∈ b.entries, ∀ a, Reads kernelEnd b.mbi (entryAt b.mem e) a →
    Clear a (b.info + 44) (b.info + 52)
  own : ∀ e ∈ b.entries, ∀ a, Reads kernelEnd b.mbi (entryAt b.mem e) a → Clear a e (e + 20)
  later : b.entries.Pairwise fun e e' =>
    ∀ a, Reads kernelEnd b.mbi (entryAt b.mem e) a → Clear a e' (e' + 24)

end BootImage

variable {b : BootImage} {es : List Nat} {mem' : Nat → BitVec 8} {q x lo hi : Nat}

/-- At most as many modules as there are. -/
theorem cachedCount_le (h : n < 2 ^ 32) : cachedCount n ≤ n := by
  have hle : Int.bmod n (2 ^ 32) ≤ n := by
    rw [Int.bmod_def]
    split
    · omega
    · omega
  unfold cachedCount
  omega

/-- The cached modules are those of the boot information. -/
theorem cached_ranges (b : BootImage) :
    collectModuleRanges (cacheModuleInfo b.mem b.info) = b.mbi.ranges := by
  have hcount : b.mbi.mods.length = word b.mem (b.info + 20) := by simp [BootImage.mbi]
  unfold Mbi.ranges Mbi.modules cacheModuleInfo
  rw [hcount]
  by_cases hflag : word b.mem b.info / 8 % 2 = 0
  · rw [if_pos hflag, if_pos (show b.mbi.flags / 8 % 2 = 0 from hflag), List.take_nil, List.map_nil]
  · rw [if_neg hflag, if_neg (show ¬ b.mbi.flags / 8 % 2 = 0 from hflag), BootImage.mbi,
      ← List.map_take, List.take_range, Nat.min_eq_left (cachedCount_le (word_lt _ _)),
        List.map_map]
    rfl

/-- A double word is its eight bytes. -/
theorem dword_congr (h : ∀ x, a ≤ x → x < a + 8 → mem x = mem' x) : dword mem a = dword mem' a := by
  unfold dword
  rw [word_congr fun x hlo hhi => h x hlo (by omega),
    word_congr fun x hlo hhi => h x (by omega) (by omega)]

/-- An entry is its 24 bytes. -/
theorem entryAt_congr (h : ∀ x, q ≤ x → x < q + 24 → mem x = mem' x) :
    entryAt mem q = entryAt mem' q := by
  unfold entryAt
  rw [dword_congr fun x hlo hhi => h x (by omega) (by omega),
    dword_congr fun x hlo hhi => h x (by omega) (by omega),
    word_congr fun x hlo hhi => h x (by omega) (by omega)]

/-- Where an entry ends is in its first 20 bytes. -/
theorem end32_congr (h : ∀ x, q ≤ x → x < q + 20 → mem x = mem' x) :
    (entryAt mem q).end32 = (entryAt mem' q).end32 := by
  unfold entryAt MmapEntry.end32
  dsimp only
  rw [dword_congr fun x hlo hhi => h x (by omega) (by omega),
    dword_congr fun x hlo hhi => h x (by omega) (by omega)]

/-- Where the map ends is in eight bytes of the boot information. -/
theorem mapEnd_congr (h : ∀ x, info + 44 ≤ x → x < info + 52 → mem x = mem' x) :
    mapEnd mem info = mapEnd mem' info := by
  unfold mapEnd
  rw [word_congr fun x hlo hhi => h x (by omega) (by omega),
    word_congr fun x hlo hhi => h x (by omega) (by omega)]

/-! ## the scan of the map in memory -/

/-- Both models push a frame alike. -/
theorem freeFrameFast_raw (p : Pmm) (a : Nat) :
    (p.freeFrameFast a).raw = p.raw.freeFrameFast a := by
  unfold Pmm.freeFrameFast Phys.freeFrameFast Raw.freeFrameFast
  split
  · rfl
  · rfl

/-- Both models push a region alike. -/
theorem addFrames_raw (n addr : Nat) (p : Pmm) :
    (Pmm.addFrames kernelEnd ms n addr p).raw = Raw.addFrames kernelEnd ms n addr p.raw := by
  induction n generalizing addr p with
  | zero => rfl
  | succ n ih =>
      rw [Pmm.addFrames, Raw.addFrames, ih]
      split
      · rfl
      · rw [freeFrameFast_raw]

/-- Pushing writes the links of the frames. -/
theorem push_mem (frames : List Nat) (s : Raw) (h : ∀ a ∈ frames, x < a ∨ a + 4 ≤ x) :
    (s.push frames).mem x = s.mem x := by
  induction frames generalizing s with
  | nil => rfl
  | cons a frames ih =>
      have hrest := ih (s.freeFrameFast a) fun c hc => h c (List.mem_cons_of_mem a hc)
      refine hrest.trans ?_
      unfold Raw.freeFrameFast
      split
      · rfl
      · exact setWord_of_ne s.mem (h a (by simp))

/-- The listed scan pushes the same frames. -/
theorem foldl_raw (kernelEnd : Nat) (ms : List ModuleRange) (mmap : List MmapEntry)
    (acc : Pmm × Nat) :
    (mmap.foldl (Pmm.addEntry kernelEnd ms) acc).1.raw =
      acc.1.raw.push (mmap.flatMap (entryFrames kernelEnd ms)) := by
  induction mmap generalizing acc with
  | nil => rfl
  | cons e mmap ih =>
      have hentry : (Pmm.addEntry kernelEnd ms acc e).1.raw =
          acc.1.raw.push (entryFrames kernelEnd ms e) := by
        unfold Pmm.addEntry entryFrames
        split
        · rw [addFrames_raw, addFrames_push]
        · rfl
      rw [List.foldl_cons, ih, hentry, List.flatMap_cons, Raw.push, Raw.push, Raw.push,
        List.foldl_append]

/-- One round in memory is the round for the entry that the boot loader wrote. -/
theorem addEntry_listed (acc : Pmm × Nat)
    (hsame : ∀ x, q ≤ x → x < q + 24 → acc.1.phys.mem x = mem x)
    (hown : ∀ a ∈ entryFrames kernelEnd ms (entryAt mem q), Clear a q (q + 20)) :
    Raw.addEntry kernelEnd ms (acc.1.raw, acc.2) q =
      ((Pmm.addEntry kernelEnd ms acc (entryAt mem q)).1.raw,
        (Pmm.addEntry kernelEnd ms acc (entryAt mem q)).2) := by
  have hentry : entryAt acc.1.raw.mem q = entryAt mem q := entryAt_congr hsame
  unfold Raw.addEntry Pmm.addEntry
  dsimp only
  rw [hentry]
  split
  · next htype =>
      rw [addFrames_raw]
      have hend : (entryAt (Raw.addFrames kernelEnd ms
          (((entryAt mem q).stop - (entryAt mem q).start) / pageSize) (entryAt mem q).start
          acc.1.raw).mem q).end32 = (entryAt mem q).end32 := by
        refine end32_congr fun x hlo hhi => ?_
        rw [addFrames_push, push_mem]
        · exact hsame x hlo (by omega)
        · intro a ha
          unfold entryFrames at hown
          rw [if_pos htype] at hown
          have := hown a ha
          unfold Clear at this
          omega
      rw [hend]
  · rfl

/-- **The scan in memory** is the scan of the list that the boot loader wrote. -/
theorem scanMap_listed (kernelEnd : Nat) (ms : List ModuleRange) (acc : Pmm × Nat)
    (hfollows : Follows mem (mapEnd mem info) q es)
    (hinfo : ∀ x, info + 44 ≤ x → x < info + 52 → acc.1.phys.mem x = mem x)
    (hsame : ∀ e ∈ es, ∀ x, e ≤ x → x < e + 24 → acc.1.phys.mem x = mem x)
    (hclear : ∀ e ∈ es, ∀ a ∈ entryFrames kernelEnd ms (entryAt mem e),
      Clear a (info + 44) (info + 52) ∧ Clear a e (e + 20))
    (hlater : es.Pairwise fun e e' =>
      ∀ a ∈ entryFrames kernelEnd ms (entryAt mem e), Clear a e' (e' + 24))
    (hk : es.length < k) :
    Raw.scanMap kernelEnd ms info k q (acc.1.raw, acc.2) =
      some (((es.map (entryAt mem)).foldl (Pmm.addEntry kernelEnd ms) acc).1.raw,
        ((es.map (entryAt mem)).foldl (Pmm.addEntry kernelEnd ms) acc).2) := by
  have hstop : mapEnd acc.1.raw.mem info = mapEnd mem info := mapEnd_congr hinfo
  induction es generalizing k q acc with
  | nil =>
      obtain ⟨k, rfl⟩ := Nat.exists_eq_add_of_lt hk
      have hge : mapEnd mem info ≤ q := hfollows
      rw [Raw.scanMap, if_neg (by rw [hstop]; omega)]
      rfl
  | cons e es ih =>
      obtain ⟨k, rfl⟩ := Nat.exists_eq_add_of_lt hk
      obtain ⟨rfl, hlt, hfollows⟩ := hfollows
      obtain ⟨hq, hes⟩ := List.forall_mem_cons.mp hsame
      obtain ⟨hcq, hces⟩ := List.forall_mem_cons.mp hclear
      obtain ⟨hlq, hles⟩ := List.pairwise_cons.mp hlater
      -- what the round leaves of the memory
      have hmem : ∀ x, (∀ a ∈ entryFrames kernelEnd ms (entryAt mem q), x < a ∨ a + 4 ≤ x) →
          (Pmm.addEntry kernelEnd ms acc (entryAt mem q)).1.phys.mem x = acc.1.phys.mem x := by
        intro x hx
        have hraw := foldl_raw kernelEnd ms [entryAt mem q] acc
        rw [List.flatMap_singleton] at hraw
        have hbyte := push_mem _ acc.1.raw hx
        rw [← hraw] at hbyte
        exact hbyte
      have hclear' : ∀ lo hi, (∀ a ∈ entryFrames kernelEnd ms (entryAt mem q), Clear a lo hi) →
          ∀ x, lo ≤ x → x < hi →
            (Pmm.addEntry kernelEnd ms acc (entryAt mem q)).1.phys.mem x = acc.1.phys.mem x := by
        intro lo hi hc x hlo hhi
        refine hmem x fun a ha => ?_
        have := hc a ha
        unfold Clear at this
        omega
      have hinfo' : ∀ x, info + 44 ≤ x → x < info + 52 →
          (Pmm.addEntry kernelEnd ms acc (entryAt mem q)).1.phys.mem x = mem x := fun x hlo hhi =>
        (hclear' _ _ (fun a ha => (hcq a ha).1) x hlo hhi).trans (hinfo x hlo hhi)
      have hnext : nextEntry (Pmm.addEntry kernelEnd ms acc (entryAt mem q)).1.raw.mem q =
          nextEntry mem q := by
        have hsize : word (Pmm.addEntry kernelEnd ms acc (entryAt mem q)).1.raw.mem q =
            word mem q :=
          word_congr fun x hlo hhi =>
            (hclear' _ _ (fun a ha => (hcq a ha).2) x hlo (by omega)).trans (hq x hlo (by omega))
        unfold nextEntry
        rw [hsize]
      rw [Raw.scanMap, if_pos (by rw [hstop]; exact hlt),
        addEntry_listed acc hq fun a ha => (hcq a ha).2]
      dsimp only
      rw [hnext, List.map_cons, List.foldl_cons]
      refine ih _ hfollows hinfo' (fun e' he' x hlo hhi => ?_) hces hles
        (by rw [List.length_cons]; omega) (mapEnd_congr hinfo')
      exact (hclear' _ _ (hlq e' he') x hlo hhi).trans (hes e' he' x hlo hhi)

namespace BootImage

/-- The structures lie below `lo`, and the frames do not. -/
theorem Undisturbed.of_low (hinfo : b.info + 52 ≤ lo)
    (hmap : ∀ e ∈ b.entries, e + 24 ≤ lo ∧ lo ≤ (entryAt b.mem e).start) :
    b.Undisturbed kernelEnd := by
  have habove : ∀ e ∈ b.entries, ∀ a, Reads kernelEnd b.mbi (entryAt b.mem e) a → lo ≤ a :=
    fun e he a hr => Nat.le_trans (hmap e he).2 hr.2.2.1
  refine ⟨fun e he a hr => ?_, fun e he a hr => ?_, ?_⟩
  · exact .inr (Nat.le_trans hinfo (habove e he a hr))
  · have hlow := (hmap e he).1
    have := habove e he a hr
    unfold Clear
    omega
  · refine List.pairwise_of_forall_mem_list fun e he e' he' a hr => ?_
    exact .inr (Nat.le_trans (hmap e' he').1 (habove e he a hr))

/-- What the scan leaves before the VGA frame is reserved. -/
theorem Undisturbed.scan (hb : b.Undisturbed kernelEnd) (hk : b.entries.length < k) :
    (Raw.zero b.mem).addMemoryMapPages k kernelEnd b.mbi.ranges b.info =
      some ((Pmm.zero b.mem).addListedPages kernelEnd b.mbi.ranges b.mbi.mmap).raw := by
  have hscan := scanMap_listed kernelEnd b.mbi.ranges (Pmm.zero b.mem, 0)
    b.follows (fun _ _ _ => rfl) (fun _ _ _ _ _ => rfl)
    (fun e he a ha => ⟨hb.info e he a (mem_entryFrames.mp ha),
        hb.own e he a (mem_entryFrames.mp ha)⟩)
    (hb.later.imp fun h a ha => h a (mem_entryFrames.mp ha)) hk
  unfold Raw.addMemoryMapPages
  change Raw.scanMap kernelEnd b.mbi.ranges b.info k (mapStart (Raw.zero b.mem).mem b.info)
    (Raw.zero b.mem, 0) = _ at hscan
  rw [hscan]
  rfl

/-- **Each frame once**: `init` leaves what `initListed` does. -/
theorem Undisturbed.once (hb : b.Undisturbed kernelEnd) (honce : (scanned kernelEnd b.mbi).Nodup) :
    Leaves b.mem kernelEnd b.info (Pmm.initListed b.mem kernelEnd b.mbi).raw
      (Pmm.initListed b.mem kernelEnd b.mbi).phys.free := by
  have hthreaded := init_threaded b.mem honce
  refine ⟨⟨max b.entries.length
    ((Pmm.zero b.mem).addListedPages kernelEnd b.mbi.ranges b.mbi.mmap).phys.free.length + 1, ?_⟩,
    (hthreaded.reserveFrame vgaFrame).linked⟩
  unfold Raw.init
  dsimp only
  rw [cached_ranges, hb.scan (by omega), Option.bind_some]
  exact reserveFrame_raw hthreaded vgaFrame (by omega)

/-- **A frame twice**: `init` leaves no list. -/
theorem Undisturbed.twice (hb : b.Undisturbed kernelEnd)
    (htwice : ¬ (scanned kernelEnd b.mbi).Nodup) : ¬ ∃ s l, Leaves b.mem kernelEnd b.info s l := by
  rintro ⟨s, l, ⟨k, hinit⟩, hlinked⟩
  have hmore := init_mono hinit (Nat.le_max_left k (b.entries.length + 1))
  unfold Raw.init at hmore
  dsimp only at hmore
  rw [cached_ranges, hb.scan (by omega), Option.bind_some] at hmore
  have hpush := foldl_raw kernelEnd b.mbi.ranges b.mbi.mmap
    (Pmm.zero b.mem, 0)
  have hframes : ∀ a ∈ scanned kernelEnd b.mbi, IsFrame a := by
    intro a ha
    obtain ⟨e, -, hr⟩ := mem_scanned.mp ha
    exact ⟨hr.2.1, hr.frame⟩
  obtain ⟨hnodup, -⟩ | ⟨-, S, hS⟩ := push_cases (freeList_zero b.mem) (by simp) hframes
  · exact htwice (by simpa using hnodup)
  · have hend :
        Endless ((Pmm.zero b.mem).addListedPages kernelEnd b.mbi.ranges b.mbi.mmap).raw S := by
      have hS' := hpush ▸ hS
      exact ⟨hS'.frame, hS'.head, hS'.next⟩
    exact (hend.reserveFrame hmore).not_linked hlinked

end BootImage

/-- **The initial free list** is right exactly when the narrowed ranges are. -/
theorem init_usable_iff (hb : b.Undisturbed kernelEnd) :
    (∃ s l, Leaves b.mem kernelEnd b.info s l ∧ Usable kernelEnd b.mbi l) ↔
      ReadsRight kernelEnd b.mbi := by
  constructor
  · rintro ⟨s, l, hleaves, hu⟩
    by_cases honce : (scanned kernelEnd b.mbi).Nodup
    · obtain ⟨-, rfl⟩ := hleaves.unique (hb.once honce)
      exact (listed_usable_iff b.mem kernelEnd b.mbi).mp hu
    · exact absurd ⟨s, l, hleaves⟩ (hb.twice honce)
  · intro hr
    exact ⟨_, _, hb.once (scanned_nodup.mpr hr.once), (listed_usable_iff _ _ _).mpr hr⟩

/-! ## memory as a boot loader leaves it -/

/-- `mem` with the entry `e` of a map at `p`. -/
def putEntry (mem : Nat → BitVec 8) (p : Nat) (e : MmapEntry) : Nat → BitVec 8 :=
  let words := [20, e.addr, e.addr / 2 ^ 32, e.len, e.len / 2 ^ 32, e.type]
  words.zipIdx.foldl (fun mem w => setWord mem (p + 4 * w.2) w.1) mem

/-- The `multiboot_info` at 0x500, with the map behind it. -/
def loaded (mmap : List MmapEntry) : Nat → BitVec 8 :=
  let mem := setWord (fun _ => 0) 0x500 0x40
  let mem := setWord (setWord mem (0x500 + 44) (24 * mmap.length)) (0x500 + 48) 0x600
  mmap.zipIdx.foldl (fun mem e => putEntry mem (0x600 + 24 * e.2) e.1) mem

/-- 64 KiB at 1 MiB, half of them the kernel, and 128 KiB at 2 MiB. -/
def twoRegions : List MmapEntry := [⟨0x100000, 0x10000, 1⟩, ⟨0x200000, 0x20000, 1⟩]

def twoImage : BootImage where
  mem := loaded twoRegions
  info := 0x500
  entries := [0x600, 0x618]
  follows := by decide

/-- The map that is stored in the image. -/
theorem twoImage_mbi : twoImage.mbi = { flags := 0x40, mods := [], mmap := twoRegions } := by decide

/-- No frame of the map lies over it. -/
theorem twoImage_undisturbed (kernelEnd : Nat) : twoImage.Undisturbed kernelEnd :=
  .of_low (show twoImage.info + 52 ≤ 0x100000 by decide) (by decide)

/-- No region reaches the end of the address space. -/
theorem twoImage_below : Below twoImage.mbi := by
  rw [twoImage_mbi]
  exact ⟨by decide, by decide, by decide, by decide⟩

/-- Two regions, one of them with the kernel in it. -/
theorem init_usable_twoImage :
    ∃ s l, Leaves twoImage.mem 0x108000 twoImage.info s l ∧ Usable 0x108000 twoImage.mbi l :=
  (init_usable_iff (twoImage_undisturbed _)).mpr (readsRight_of_below _ twoImage_below)

/-- 64 KiB of low memory, and 64 KiB above 4 GiB whose narrowed range is the 64 KiB behind. -/
def highMap : List MmapEntry := [⟨0x10000, 0x10000, 1⟩, ⟨0x100020000, 0x10000, 1⟩]

def highImage : BootImage where
  mem := loaded highMap
  info := 0x500
  entries := [0x600, 0x618]
  follows := by decide

/-- The map that is stored in the image. -/
theorem highImage_mbi : highImage.mbi = { flags := 0x40, mods := [], mmap := highMap } := by decide

/-- No frame of the map lies over it. -/
theorem highImage_undisturbed : highImage.Undisturbed 0x200000 :=
  .of_low (show highImage.info + 52 ≤ 0x10000 by decide) (by decide)

/-- The frames behind the low memory are on the free list, and no memory is there. -/
theorem init_narrows_region :
    ¬ ∀ (b : BootImage) (kernelEnd : Nat), (b.mbi.mmap.Pairwise fun e e' =>
        e.addr + e.len ≤ e'.addr ∨ e'.addr + e'.len ≤ e.addr) →
      b.mbi.mods.length ≤ maxModuleRanges →
        ∃ s l, Leaves b.mem kernelEnd b.info s l ∧ Usable kernelEnd b.mbi l := by
  intro hall
  obtain ⟨s, l, hleaves, hu⟩ := hall highImage 0x200000 (by rw [highImage_mbi]; decide)
    (by rw [highImage_mbi]; decide)
  have honce : (scanned 0x200000 highImage.mbi).Nodup := by
    rw [highImage_mbi]
    decide
  obtain ⟨-, rfl⟩ := hleaves.unique (highImage_undisturbed.once honce)
  have hin : 0x20000 ∈ (Pmm.initListed highImage.mem 0x200000 highImage.mbi).phys.free := by
    rw [init_free, highImage_mbi]
    decide
  have hmem := hu.memory _ hin
  rw [highImage_mbi] at hmem
  simp [InMemory, highMap, pageSize] at hmem

/-! ## the counters from `init` on -/

/-- The statics after `Pmm::init`, with the free list `free`: nothing was handed out. -/
def Raw.statics (s : Raw) (free : List Nat) : Pmm :=
  { phys := { mem := s.mem, free, refs := s.refs, maxFrameIdx := s.maxFrameIdx, panicked := false }
    freeCount := s.freeCount, allocCount := 0, highWaterFrames := 0, freeTotalCount := 0 }

/-- The allocator after `Pmm::init`, before it is used. -/
def Usage.start (s : Raw) (free : List Nat) : Usage :=
  { pmm := s.statics free, handed := [], peak := 0 }

/-- The statics are those of the list. -/
theorem statics_raw (h : FreeList s l) : (s.statics l).raw = s := by
  unfold Pmm.raw Raw.statics
  dsimp only
  rw [← h.linked.head]

/-- Nothing is in use at the start. -/
theorem start_inUse (s : Raw) (l : List Nat) : (Usage.start s l).pmm.inUse = 0 := by
  simp [Pmm.inUse, Usage.start, Raw.statics]

/-- The list that `init` leaves is threaded. -/
theorem start_paged (h : FreeList s l) : Paged (.start s l) where
  kept :=
    { nodup := h.linked.nodup
      frames := fun a ha => ⟨Nat.pos_of_ne_zero (h.linked.ne_zero a ha), (h.frames a ha).2⟩
      handed := List.nodup_nil
      handedFrames := by simp [Usage.start]
      freeCount := h.count
      inUse := start_inUse s l
      highWater := rfl
      above := Nat.le_of_eq (start_inUse s l)
      allocLt := Nat.two_pow_pos 32
      freeLt := Nat.two_pow_pos 32 }
  threaded := by
    have hraw := statics_raw h
    show FreeList (s.statics l).raw l
    rwa [hraw]
  handed := by simp [Usage.start]

variable {u : Usage} {tr : List FrameOp}

/-- In every run from the list that `init` leaves, the books are kept. -/
theorem paged_run (h : Leaves mem kernelEnd info s l)
    (hrun : Reach Usage.step OnUsed (.start s l) tr u) : Paged u :=
  Reach.inv (P := Paged) (start_paged h.list) (fun _ _ _ hp hop hstep => hp.step hop hstep) hrun

/-- **The list in memory** is the allocator's in every state of a run that gives the last
reference to a frame back only while the frame is in use. -/
theorem threaded_run (h : Leaves mem kernelEnd info s l)
    (hrun : Reach Usage.step OnUsed (.start s l) tr u) : u.pmm.Threaded :=
  (paged_run h hrun).threaded

/-- **Frame statistics are exact** in every such state. -/
theorem stats_exact (h : Leaves mem kernelEnd info s l)
    (hrun : Reach Usage.step OnUsed (.start s l) tr u) : u.Exact :=
  (paged_run h hrun).kept.exact

/-- Three frames from 0x1000 on. -/
def smallImage : BootImage where
  mem := loaded [⟨0x1000, 0x3000, 1⟩]
  info := 0x500
  entries := [0x600]
  follows := by decide

/-- What `init` leaves of the image. -/
theorem smallImage_leaves :
    Leaves smallImage.mem 0x200000 smallImage.info
      (Pmm.initListed smallImage.mem 0x200000 smallImage.mbi).raw
      (Pmm.initListed smallImage.mem 0x200000 smallImage.mbi).phys.free :=
  BootImage.Undisturbed.once (.of_low (show smallImage.info + 52 ≤ 0x1000 by decide) (by decide))
    (by decide)

/-- The allocator on the three frames. -/
def smallStart : Usage :=
  .start (Pmm.initListed smallImage.mem 0x200000 smallImage.mbi).raw
    (Pmm.initListed smallImage.mem 0x200000 smallImage.mbi).phys.free

/-- Two frames were taken; one was shared and dropped twice, the other given back. -/
def sharedUse : Usage :=
  [FrameOp.alloc, .addRef 0x3000, .alloc, .drop 0x3000, .drop 0x3000, .free 0x2000, .alloc].foldl
    (follow Usage.step) smallStart

/-- A frame is shared, released twice and used again. -/
theorem stats_exact_sharedUse : sharedUse.Exact :=
  stats_exact smallImage_leaves (show Reach Usage.step OnUsed smallStart _ sharedUse from
    Reach.of_follow (by decide))

/-- The VGA frame and the one before it, which a region above 4 GiB names again. -/
def circleImage : BootImage where
  mem := loaded [⟨0xB7000, 0x2000, 1⟩, ⟨0x1000B7000, 0x2000, 1⟩]
  info := 0x500
  entries := [0x600, 0x618]
  follows := by decide

/-- A reference taken on a frame that is free lets it be freed again; and where the narrowed
ranges overlap, `init` may leave links that go round in a circle. -/
theorem stats_inexact :
    (¬ ∀ (mem : Nat → BitVec 8) (kernelEnd info : Nat) (s : Raw) (l : List Nat) (tr : List FrameOp)
        (u : Usage), Leaves mem kernelEnd info s l →
          Reach Usage.step OnCounted (.start s l) tr u → u.Exact) ∧
      ¬ ∀ (mem : Nat → BitVec 8) (kernelEnd info : Nat) (s : Raw),
        (∃ fuel, Raw.init fuel mem kernelEnd info = some s) →
          ∃ l, Linked s.next s.freeList l ∧ s.freeCount = l.length := by
  constructor
  · intro hall
    have hused := (hall _ _ _ _ _ _ _ smallImage_leaves
      (show Reach Usage.step OnCounted smallStart [.addRef 0x1000, .free 0x1000] _ from
        Reach.of_follow (by decide))).used
    revert hused
    decide
  · intro hall
    have hsome : (Raw.init 5 circleImage.mem 0x200000 circleImage.info).isSome = true := by decide
    obtain ⟨s, hs⟩ := Option.isSome_iff_exists.mp hsome
    obtain ⟨l, hl, -⟩ := hall _ _ _ s ⟨5, hs⟩
    have hundisturbed : circleImage.Undisturbed 0x200000 :=
      .of_low (show circleImage.info + 52 ≤ 0xB7000 by decide) (by decide)
    exact hundisturbed.twice (by decide) ⟨s, l, ⟨5, hs⟩, hl⟩

end Doors.Memory
