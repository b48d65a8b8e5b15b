import Mathlib.Algebra.GroupWithZero.Nat
import Doors.Lib.Run
import Doors.Heap.Operations

/-!
# Doors.Heap.Ledger

The kernel heap in use.

A run is any sequence of `alloc`, `free` and writes to allocated memory from
`Heap::init` on.  The ledger keeps what the callers know: the pointers they hold
with the sizes they asked for, and the pointers freed since the last `alloc`,
which may be freed again.

* `step_keeps` — every legal step ends and keeps the books (`Books`);
* `alloc_bestFit` — allocation is best fit, and fails only when no run of free
  bytes is long enough;
* `heap_integrity` — what the invariant says about the memory itself.
-/

namespace Doors.Alloc

open Chain Run

/-- A heap with its users. -/
structure Ledger where
  heap : Heap
  /-- The pointers that are held, with the sizes asked for. -/
  held : List (Nat × Nat)
  /-- The pointers freed since the last `alloc`. -/
  freed : List Nat

inductive HeapOp where
  | alloc (n : Nat)
  | free (p : Nat)
  | write (a v : Nat)
  deriving Repr, DecidableEq

/-- One step; a loop of the heap that does not end is an error. -/
def Ledger.step (s : Ledger) : HeapOp → Except Unit Ledger
  | .alloc n =>
      match s.heap.alloc n with
      | none => .error ()
      | some (p, heap) =>
          .ok { heap, held := if p = 0 then s.held else (p, n) :: s.held, freed := [] }
  | .free p =>
      match s.heap.free p with
      | none => .error ()
      | some heap => .ok { heap, held := s.held.filter fun e => e.1 ≠ p, freed := p :: s.freed }
  | .write a v => .ok { s with heap := s.heap.store a v }

/-- What the callers do: sizes fit `size_t`; null, a held pointer or one freed
since the last `alloc` is freed; a word that is written has bytes of a held block. -/
def Legal (s : Ledger) : HeapOp → Prop
  | .alloc n => n < 2 ^ 32
  | .free p => p = 0 ∨ (∃ e ∈ s.held, e.1 = p) ∨ p ∈ s.freed
  | .write a _ => a % 4 = 0 ∧ ∃ e ∈ s.held, e.1 ≤ a ∧ a < e.1 + e.2

instance (s : Ledger) (op : HeapOp) : Decidable (Legal s op) := by
  apply @HeapOp.casesOn _ op <;> intros <;> unfold Legal <;> infer_instance

/-- `Heap::init` on `size` bytes at `data`. -/
def Ledger.init (mem : Nat → Nat) (data size : Nat) : Ledger :=
  { heap := Heap.init mem data size, held := [], freed := [] }

/-- The memory that `Heap::init` gets: not at null, not empty, and it does not
reach the end of the address space. -/
structure Region (data size : Nat) : Prop where
  data_pos : 0 < data
  size_pos : 0 < size
  top : alignUp data blockAlign + alignUp size blockAlign < 2 ^ 32

variable {s s' : Ledger} {h : Heap} {bs pre post : List Blk} {fl : List Nat} {b c : Blk}
  {data size n p a : Nat} {mem : Nat → Nat}

/-- **The books**: the held pointers are those of the allocated blocks, and a
freed pointer is in none of them and has no allocation flag. -/
structure Books (s : Ledger) (bs : List Blk) (fl : List Nat) : Prop where
  inv : Inv s.heap bs fl
  held : ∀ e ∈ s.held, ∃ b ∈ bs, b.live = true ∧ e.1 = b.addr + headerSize ∧
    e.2 + headerSize ≤ b.size
  all : ∀ b ∈ bs, b.live = true → ∃ e ∈ s.held, e.1 = b.addr + headerSize
  nodup : (s.held.map (·.1)).Nodup
  freed : ∀ p ∈ s.freed, p = 0 ∨ ∃ a, p = a + headerSize ∧ a < 2 ^ 32 ∧ s.heap.mem a % 2 = 0 ∧
    ∀ b ∈ bs, b.live = true → a < b.addr ∨ b.addr + b.size ≤ a

/-! ## what one step keeps -/

/-- The live blocks. -/
theorem mem_lives : b ∈ lives bs ↔ b ∈ bs ∧ b.live = true := List.mem_filter

/-- What is needed covers the header. -/
theorem le_need (n : Nat) : n + headerSize ≤ need n := by
  unfold need minBlock blockAlign headerSize
  omega

/-- A null pointer is ignored. -/
theorem free_null (h : Heap) : h.free 0 = some h := rfl

/-- A header without the allocation flag is rejected. -/
theorem free_rejected (ha : a < 2 ^ 32) (heven : h.mem a % 2 = 0) :
    h.free (a + headerSize) = some h := by
  have hhdr : (a + headerSize + 2 ^ 32 - headerSize) % 2 ^ 32 = a := by
    unfold headerSize
    omega
  unfold Heap.free
  rw [if_neg (by unfold headerSize; omega), hhdr]
  exact if_pos (.inl (by simp [isAlloc, Heap.size, heven]))

/-- An allocated block of the row, between the others. -/
theorem Books.find (hk : Books s bs fl) {e : Nat × Nat} (he : e ∈ s.held) :
    ∃ pre b post, bs = pre ++ b :: post ∧ b.live = true ∧ e.1 = b.addr + headerSize ∧
      e.2 + headerSize ≤ b.size := by
  obtain ⟨b, hb, hlive, haddr, hsize⟩ := hk.held e he
  obtain ⟨pre, post, rfl⟩ := List.append_of_mem hb
  exact ⟨pre, b, post, rfl, hlive, haddr, hsize⟩

/-- A user writes into its block. -/
theorem write_books (hk : Books s bs fl) {v : Nat} (hlegal : Legal s (.write a v)) :
    Books { s with heap := s.heap.store a v } bs fl := by
  obtain ⟨-, e, he, hlo, hhi⟩ := hlegal
  obtain ⟨pre, b, post, rfl, hlive, haddr, hsize⟩ := hk.find he
  have hs := hk.inv.shape
  have hb : b ∈ pre ++ b :: post := by simp
  unfold headerSize at *
  refine { hk with
    inv := ⟨hs.rebuild rfl rfl hs.tiles (fun c hc => ?_) ?_ hs.perm, hk.inv.coalesced⟩,
    freed := fun p hp => ?_ }
  · simp only [List.mem_append, List.mem_cons] at hc
    rcases or_left_comm.mp hc with rfl | hc
    · have hbh := hs.hdr c hb
      unfold Blk.Header at *
      simp only [store_mem]
      rwa [if_neg (show ¬ c.addr = a by omega), if_neg (show ¬ c.addr + 4 = a by omega)]
    · have hc' := List.mem_append.mpr hc
      exact header_store hs hc' (by omega) (by omega) (hs.hdr c (mem_middle hc'))
  · exact linked_store hs.linked v fun x hx =>
      hs.link_ne hb hx (by omega) (by omega) (.inl (hs.ne_of_live hb hlive x hx))
  · rcases hk.freed p hp with hp | ⟨x, hpx, hx, heven, hout⟩
    · exact .inl hp
    · have := hout b hb hlive
      refine .inr ⟨x, hpx, hx, ?_, hout⟩
      simp only [store_mem]
      rwa [if_neg (by omega)]

/-- An allocation ends and keeps the books. -/
theorem alloc_books (hk : Books s bs fl) (hn : n < 2 ^ 32) :
    ∃ s' bs' fl', s.step (.alloc n) = .ok s' ∧ Books s' bs' fl' := by
  have hs := hk.inv.shape
  have hnull : s.heap.alloc n = some (0, s.heap) →
      ∃ s' bs' fl', s.step (.alloc n) = .ok s' ∧ Books s' bs' fl' := by
    intro heq
    refine ⟨{ s with freed := [] }, bs, fl, ?_, { hk with freed := by simp }⟩
    unfold Ledger.step
    simp [heq]
  rcases Nat.eq_zero_or_pos n with rfl | hpos
  · exact hnull rfl
  rcases alloc_fit hs hpos hn with ⟨heq, -⟩ | ⟨b, hb, f₁, f₂, rfl, hlive, hge, -, heq⟩
  · exact hnull heq
  obtain ⟨pre, post, rfl⟩ := List.append_of_mem hb
  obtain ⟨k, rest, fl', hinv, hk', -, hrest⟩ :=
    take_inv hk.inv hlive (need_mod n) (minBlock_le_need n) hge
  have hle := le_need n
  have hne : b.addr + headerSize ≠ 0 := by
    unfold headerSize
    omega
  -- the allocated blocks are the old ones and the new one
  have hlives : ∀ c ∈ pre ++ ⟨b.addr, k, true⟩ :: (rest ++ post), c.live = true →
      c = ⟨b.addr, k, true⟩ ∨ c ∈ pre ++ post := by
    intro c hc hcl
    simp only [List.mem_append, List.mem_cons] at hc ⊢
    rcases hc with hc | hc | hc | hc
    · exact .inr (.inl hc)
    · exact .inl hc
    · simp [hrest c hc] at hcl
    · exact .inr (.inr hc)
  have hold : ∀ c ∈ pre ++ b :: post, c.live = true →
      c ∈ pre ++ ⟨b.addr, k, true⟩ :: (rest ++ post) ∧ c ≠ b := by
    intro c hc hcl
    have hcb : c ≠ b := by
      rintro rfl
      simp [hlive] at hcl
    simp only [List.mem_append, List.mem_cons] at hc ⊢
    exact ⟨by tauto, hcb⟩
  refine ⟨{ heap := s.heap.take b.addr (f₁.getLastD 0) (need n),
            held := (b.addr + headerSize, n) :: s.held, freed := [] }, _,
    fl', ?_, { inv := hinv, held := ?_, all := ?_, nodup := ?_, freed := by simp }⟩
  · rw [Ledger.step, heq]
    dsimp only
    rw [if_neg hne]
  · refine List.forall_mem_cons.mpr ⟨⟨⟨b.addr, k, true⟩, by simp, rfl, rfl, hle.trans hk'⟩,
      fun e he => ?_⟩
    obtain ⟨c, hc, hcl, haddr, hsize⟩ := hk.held e he
    exact ⟨c, (hold c hc hcl).1, hcl, haddr, hsize⟩
  · intro c hc hcl
    rcases hlives c hc hcl with rfl | hc
    · exact ⟨_, List.mem_cons_self, rfl⟩
    · obtain ⟨e, he, haddr⟩ := hk.all c (mem_middle hc) hcl
      exact ⟨e, List.mem_cons_of_mem _ he, haddr⟩
  · refine List.nodup_cons.mpr ⟨fun hin => ?_, hk.nodup⟩
    obtain ⟨e, he, hea⟩ := List.mem_map.mp hin
    obtain ⟨c, hc, hcl, haddr, -⟩ := hk.held e he
    have hea : e.1 = b.addr + headerSize := hea
    exact (hold c hc hcl).2 (hs.tiles.eq_of_addr hc hb (by omega))

/-- A release ends and keeps the books. -/
theorem free_books (hk : Books s bs fl) (hlegal : Legal s (.free p)) :
    ∃ s' bs' fl', s.step (.free p) = .ok s' ∧ Books s' bs' fl' := by
  have hs := hk.inv.shape
  by_cases hheld : ∃ e ∈ s.held, e.1 = p
  · obtain ⟨e, he, rfl⟩ := hheld
    obtain ⟨pre, b, post, rfl, hlive, haddr, -⟩ := hk.find he
    obtain ⟨h', bs', fl', heq, hinv, hlives, hflag, heven⟩ := free_spec hk.inv hlive
    have hb : b ∈ pre ++ b :: post := by simp
    obtain ⟨hlo, hhi, hmin, -⟩ := hs.tiles.bounds hb
    have htop := hs.top
    unfold minBlock at hmin
    have hlive' : ∀ c, (c ∈ bs' ∧ c.live = true) ↔ (c ∈ pre ++ post ∧ c.live = true) := fun c => by
      rw [← mem_lives, hlives, mem_lives]
    refine ⟨{ heap := h', held := s.held.filter fun e' => e'.1 ≠ e.1, freed := e.1 :: s.freed },
      bs', fl', ?_,
      { inv := hinv, held := ?_, all := ?_, nodup := ?_, freed := ?_ }⟩
    · unfold Ledger.step
      simp [haddr, heq]
    · intro e' he'
      obtain ⟨he', hne⟩ := List.mem_filter.mp he'
      obtain ⟨c, hc, hcl, hca, hsize⟩ := hk.held e' he'
      refine ⟨c, ((hlive' c).mpr ⟨?_, hcl⟩).1, hcl, hca, hsize⟩
      have hcb : c ≠ b := by
        rintro rfl
        simp [hca, haddr] at hne
      simp only [List.mem_append, List.mem_cons] at hc ⊢
      tauto
    · intro c hc hcl
      have hc' := ((hlive' c).mp ⟨hc, hcl⟩).1
      obtain ⟨e', he', hea⟩ := hk.all c (mem_middle hc') hcl
      refine ⟨e', List.mem_filter.mpr ⟨he', decide_eq_true fun heq => ?_⟩, hea⟩
      exact (hs.tiles.header_ne hc' (x := b.addr) le_rfl (by omega)).1 (by omega)
    · exact hk.nodup.sublist (List.filter_sublist.map _)
    · refine List.forall_mem_cons.mpr ⟨.inr ⟨b.addr, haddr, by omega, heven, fun c hc hcl => ?_⟩,
        fun p hp => ?_⟩
      · rcases List.mem_append.mp ((hlive' c).mp ⟨hc, hcl⟩).1 with hc | hc
        · exact .inr (hs.tiles.split.1.bounds hc).2.1
        · have := (hs.tiles.split.2.1.bounds hc).1
          exact .inl (by omega)
      · rcases hk.freed p hp with hp | ⟨x, hpx, hx, hxe, hout⟩
        · exact .inl hp
        · exact .inr ⟨x, hpx, hx, hflag x hxe,
            fun c hc hcl => hout c (mem_middle ((hlive' c).mp ⟨hc, hcl⟩).1) hcl⟩
  · -- the pointer is not held: the heap does not change
    have heq : s.heap.free p = some s.heap := by
      rcases hlegal with rfl | hin | hfreed
      · exact free_null _
      · exact absurd hin hheld
      · rcases hk.freed p hfreed with rfl | ⟨x, rfl, hx, heven, -⟩
        · exact free_null _
        · exact free_rejected hx heven
    have hfilter : s.held.filter (fun e => e.1 ≠ p) = s.held :=
      List.filter_eq_self.mpr fun e he => decide_eq_true fun hep => hheld ⟨e, he, hep⟩
    refine ⟨{ s with freed := p :: s.freed }, bs, fl, ?_, { hk with freed := ?_ }⟩
    · rw [Ledger.step, heq]
      dsimp only
      rw [hfilter]
    · refine List.forall_mem_cons.mpr ⟨?_, hk.freed⟩
      rcases hlegal with rfl | hin | hfreed
      · exact .inl rfl
      · exact absurd hin hheld
      · exact hk.freed p hfreed

/-- **Every legal step** ends and keeps the books. -/
theorem step_keeps (hk : Books s bs fl) (op : HeapOp) (hlegal : Legal s op) :
    ∃ s' bs' fl', s.step op = .ok s' ∧ Books s' bs' fl' := by
  cases op with
  | alloc n => exact alloc_books hk hlegal
  | free p => exact free_books hk hlegal
  | write a v => exact ⟨_, bs, fl, rfl, write_books hk hlegal⟩

/-- Rounding that does not saturate. -/
theorem alignUp_of_lt (hn : 0 < n) (hlt : alignUp n blockAlign < sizeMax) :
    0 < alignUp n blockAlign ∧ alignUp n blockAlign % blockAlign = 0 := by
  unfold alignUp sizeMax blockAlign at *
  split at hlt
  · omega
  · next hle =>
      rw [if_neg hle]
      omega

/-- The books of a new heap. -/
theorem init_books (hr : Region data size) (hmin : minBlock ≤ alignUp size blockAlign) :
    Books (Ledger.init mem data size) [⟨alignUp data blockAlign, alignUp size blockAlign, false⟩]
      [alignUp data blockAlign] := by
  have htop := hr.top
  obtain ⟨hpos, hmod⟩ := alignUp_of_lt hr.data_pos (by unfold minBlock sizeMax at *; omega)
  obtain ⟨-, hsmod⟩ := alignUp_of_lt hr.size_pos (by unfold sizeMax at *; omega)
  generalize hd : alignUp data blockAlign = start at *
  generalize hz : alignUp size blockAlign = len at *
  have hsub : (start + len + 2 ^ 32 - start) % 2 ^ 32 = len := by omega
  have hshape : Shape (Heap.init mem data size) [⟨start, len, false⟩] [start] := by
    unfold Heap.init
    simp only [hd, hz, Nat.mod_eq_of_lt htop, hsub]
    refine ⟨hpos, hmod, htop, ⟨rfl, hmin, hsmod, rfl⟩, ?_, ⟨rfl, by omega, ?_⟩, by simp [frees]⟩
    · simp [Blk.Header, Heap.setNext, Heap.setMagic, Heap.setSize, store_mem]
    · simp [Linked, Heap.next, Heap.setNext, store_mem]
  exact { inv := ⟨hshape, List.isChain_singleton _⟩, held := by simp [Ledger.init], all := by simp,
          nodup := by simp [Ledger.init],
          freed := by simp [Ledger.init] }

/-! ## a region below the size of a block -/

/-- A heap of 16 bytes: one free block, too small for every request. -/
structure Tiny (s : Ledger) : Prop where
  pos : 0 < s.heap.heapStart
  len : s.heap.heapEnd = s.heap.heapStart + blockAlign
  head : s.heap.freeList = s.heap.heapStart
  size : s.heap.size s.heap.heapStart = blockAlign
  next : s.heap.next s.heap.heapStart = 0
  held : s.held = []
  freed : ∀ p ∈ s.freed, p = 0

/-- The fuel of a heap too small for a block. -/
theorem Tiny.fuel (ht : Tiny s) : s.heap.fuel = 3 := by
  rw [Heap.fuel, ht.len, Nat.add_sub_cancel_left]
  rfl

/-- It gives nothing out. -/
theorem Tiny.alloc (ht : Tiny s) (hn : n < 2 ^ 32) : s.heap.alloc n = some (0, s.heap) := by
  unfold Heap.alloc
  split
  · rfl
  · cases hk : Heap.neededFor n with
    | none => rfl
    | some k =>
        have hmin : minBlock ≤ k := by
          rcases neededFor_eq hn with heq | ⟨-, hbig⟩
          · obtain rfl : need n = k := Option.some.inj (heq.symm.trans hk)
            exact minBlock_le_need n
          · have := hbig k hk
            unfold sizeMax minBlock at *
            omega
        have hraw : ¬ (rawSize (s.heap.size s.heap.heapStart) ≥ k) := by
          rw [ht.size]
          unfold minBlock rawSize blockAlign at *
          omega
        have hpos := ht.pos
        have hwalk : walk s.heap.next (s.heap.bestStep k) s.heap.fuel s.heap.freeList {} =
            some ⟨0, 0, s.heap.heapStart⟩ := by
          rw [ht.fuel, ht.head]
          simp [walk, Heap.bestStep, hraw, ht.next, hpos.ne']
        simp [hwalk]

/-- Its one block is free. -/
theorem Tiny.blocks (ht : Tiny s) : s.heap.blocks = [⟨s.heap.heapStart, blockAlign, false⟩] := by
  have hpos := ht.pos
  unfold Heap.blocks
  rw [ht.fuel, Heap.blocksFrom, Heap.blocksFrom, ht.size,
    if_neg (by rw [ht.len]; unfold blockAlign; omega), if_pos (by rw [ht.len]; exact le_rfl)]
  rfl

/-- It stays as it is. -/
theorem Tiny.step (ht : Tiny s) {op : HeapOp} (hlegal : Legal s op) (hstep : s.step op = .ok s') :
    Tiny s' := by
  cases op with
  | alloc n =>
      rw [Ledger.step, ht.alloc hlegal] at hstep
      obtain rfl := Except.ok.inj hstep
      exact { ht with freed := by simp }
  | free p =>
      have hp : p = 0 := by
        rcases hlegal with hp | ⟨e, he, -⟩ | hp
        · exact hp
        · simp [ht.held] at he
        · exact ht.freed p hp
      rw [Ledger.step, hp, free_null] at hstep
      obtain rfl := Except.ok.inj hstep
      exact { ht with held := by simp [ht.held], freed := List.forall_mem_cons.mpr ⟨rfl, ht.freed⟩ }
  | write a v =>
      obtain ⟨-, e, he, -⟩ := hlegal
      simp [ht.held] at he

/-- A span too small for a block. -/
theorem init_tiny (hr : Region data size) (hmin : ¬ minBlock ≤ alignUp size blockAlign) :
    Tiny (Ledger.init mem data size) := by
  have hsize := hr.size_pos
  have htop := hr.top
  have hlen : alignUp size blockAlign = blockAlign := by
    unfold alignUp blockAlign sizeMax minBlock at *
    split at hmin
    · omega
    · next hle =>
        rw [if_neg hle]
        omega
  have hpos :=
    (alignUp_of_lt hr.data_pos (by rw [hlen] at htop; unfold sizeMax blockAlign at *; omega)).1
  unfold Ledger.init Heap.init
  simp only [hlen]
  rw [hlen] at htop
  generalize alignUp data blockAlign = start at *
  have hsub : (start + blockAlign + 2 ^ 32 - start) % 2 ^ 32 = blockAlign := by
    unfold blockAlign
    omega
  rw [Nat.mod_eq_of_lt htop, hsub]
  exact { pos := hpos, len := rfl, head := rfl,
          size := by simp [Heap.size, Heap.setNext, Heap.setMagic, Heap.setSize, store_mem],
          next := by simp [Heap.next, Heap.setNext, Heap.setMagic, Heap.setSize, store_mem],
          held := rfl,
          freed := by simp }

/-! ## runs -/

section Runs

variable {tr : List HeapOp}

/-- **Every reachable heap** keeps the books. -/
theorem reach_books (hr : Region data size) (hmin : minBlock ≤ alignUp size blockAlign)
    (hrun : Reach Ledger.step Legal (Ledger.init mem data size) tr s) : ∃ bs fl, Books s bs fl := by
  refine Reach.inv (P := fun s => ∃ bs fl, Books s bs fl) ⟨_, _, init_books hr hmin⟩ ?_ hrun
  rintro s op s' ⟨bs, fl, hk⟩ hlegal hstep
  obtain ⟨s'', bs', fl', heq, hk'⟩ := step_keeps hk op hlegal
  obtain rfl := Except.ok.inj (heq.symm.trans hstep)
  exact ⟨bs', fl', hk'⟩

/-- A run of a heap too small for a block. -/
theorem reach_tiny (hr : Region data size) (hmin : ¬ minBlock ≤ alignUp size blockAlign)
    (hrun : Reach Ledger.step Legal (Ledger.init mem data size) tr s) : Tiny s :=
  Reach.inv (P := Tiny) (init_tiny hr hmin) (fun _ _ _ ht hlegal hstep => ht.step hlegal hstep) hrun

/-- A byte of a free block. -/
def Heap.FreeByte (h : Heap) (y : Nat) : Prop :=
  ∃ b ∈ h.blocks, b.live = false ∧ b.addr ≤ y ∧ y < b.addr + b.size

/-- `m` free bytes from `x` on. -/
def Heap.FreeRun (h : Heap) (x m : Nat) : Prop := ∀ y, x ≤ y → y < x + m → h.FreeByte y

/-- A run of free bytes lies in one block, as neighbours are not both free. -/
theorem Inv.freeRun {x m : Nat} (hi : Inv h bs fl) (hm : 0 < m) (hrun : h.FreeRun x m) :
    ∃ b ∈ bs, b.live = false ∧ b.addr ≤ x ∧ x + m ≤ b.addr + b.size := by
  have hblocks := hi.shape.blocks_eq
  obtain ⟨b, hb, hlive, hlo, hhi⟩ := hrun x le_rfl (by omega)
  rw [hblocks] at hb
  refine ⟨b, hb, hlive, hlo, ?_⟩
  by_contra hend
  -- the byte behind the block is in the next block, which is allocated
  obtain ⟨c, hc, hcl, hclo, hchi⟩ := hrun (b.addr + b.size) (by omega) (by omega)
  rw [hblocks] at hc
  obtain ⟨pre, post, rfl⟩ := List.append_of_mem hb
  obtain ⟨-, hpost, -⟩ := hi.shape.tiles.split
  have hnb := (coalesced_middle.mp hi.coalesced).2.2.resolve_left (by simp [hlive])
  cases post with
  | nil =>
      have hend : b.addr + b.size = h.heapEnd := hpost
      have := (hi.shape.tiles.bounds hc).2.1
      omega
  | cons d post =>
      have hd : d ∈ pre ++ b :: d :: post := by simp
      have hdl : d.live = true := hnb.2 d (by simp)
      obtain ⟨hda, hdmin, -⟩ := hpost
      unfold minBlock at hdmin
      rcases hi.shape.tiles.apart hc hd with rfl | hcd | hcd
      · simp [hcl] at hdl
      · omega
      · omega

/-- **Best fit and completeness**. -/
theorem alloc_bestFit (hr : Region data size)
    (hrun : Reach Ledger.step Legal (Ledger.init mem data size) tr s)
    (hpos : 0 < n) (hn : n < 2 ^ 32) :
    ∃ p h', s.heap.alloc n = some (p, h') ∧ (p = 0 ↔ ¬ ∃ x, s.heap.FreeRun x (need n)) ∧
      (p ≠ 0 → ∃ b ∈ s.heap.blocks, b.live = false ∧ need n ≤ b.size ∧
        (∀ c ∈ s.heap.blocks, c.live = false → need n ≤ c.size → b.size ≤ c.size) ∧
          p = b.addr + headerSize ∧ ∃ k, need n ≤ k ∧ k ≤ b.size ∧
            ⟨b.addr, k, true⟩ ∈ h'.blocks) := by
  have hneed := minBlock_le_need n
  unfold minBlock at hneed
  by_cases hsize : minBlock ≤ alignUp size blockAlign
  · obtain ⟨bs, fl, hk⟩ := reach_books hr hsize hrun
    have hs := hk.inv.shape
    have hblocks := hs.blocks_eq
    rcases alloc_fit hs hpos hn with ⟨heq, hsmall⟩ | ⟨b, hb, f₁, f₂, rfl, hlive, hge, hmin, heq⟩
    · refine ⟨0, _, heq, ⟨fun _ => ?_, fun _ => rfl⟩, fun hne => absurd rfl hne⟩
      rintro ⟨x, hx⟩
      obtain ⟨b, hb, hlive, hlo, hhi⟩ := hk.inv.freeRun (by omega) hx
      have := hsmall b hb hlive
      omega
    · obtain ⟨pre, post, rfl⟩ := List.append_of_mem hb
      obtain ⟨k, rest, fl', hinv, hk₁, hk₂, -⟩ :=
        take_inv hk.inv hlive (need_mod n) (minBlock_le_need n) hge
      have hne : b.addr + headerSize ≠ 0 := by
        unfold headerSize
        omega
      have hfree : ∃ x, s.heap.FreeRun x (need n) :=
        ⟨b.addr, fun y hlo hhi => ⟨b, by rw [hblocks]; exact hb, hlive, hlo, by omega⟩⟩
      refine ⟨_, _, heq, ⟨fun hzero => absurd hzero hne, fun hno => absurd hfree hno⟩, fun _ => ?_⟩
      rw [hblocks]
      refine ⟨b, hb, hlive, hge, hmin, rfl, k, hk₁, hk₂, ?_⟩
      rw [hinv.shape.blocks_eq]
      simp
  · have ht := reach_tiny hr hsize hrun
    refine ⟨0, _, ht.alloc hn, ⟨fun _ => ?_, fun _ => rfl⟩, fun hne => absurd rfl hne⟩
    rintro ⟨x, hx⟩
    obtain ⟨b, hb, -, hlo, -⟩ := hx x le_rfl (by omega)
    obtain ⟨c, hc, -, -, hhi⟩ := hx (x + blockAlign) (by omega) (by unfold blockAlign; omega)
    rw [ht.blocks, List.mem_singleton] at hb hc
    subst hb hc
    dsimp only at hlo hhi
    omega

/-- A region of 128 bytes at 16 in which two blocks were allocated and the first
one was freed twice. -/
def usedTwice : Ledger :=
  [HeapOp.alloc 10, .alloc 24, .write 36 7, .free 32, .free 32].foldl (follow Ledger.step)
    (Ledger.init (fun _ => 0) 16 128)

/-- Twelve bytes, from a heap with two free blocks. -/
theorem alloc_bestFit_usedTwice :
    ∃ p h', usedTwice.heap.alloc 12 = some (p, h') ∧
      (p = 0 ↔ ¬ ∃ x, usedTwice.heap.FreeRun x (need 12)) ∧
      (p ≠ 0 → ∃ b ∈ usedTwice.heap.blocks, b.live = false ∧ need 12 ≤ b.size ∧
        (∀ c ∈ usedTwice.heap.blocks, c.live = false → need 12 ≤ c.size → b.size ≤ c.size) ∧
          p = b.addr + headerSize ∧ ∃ k, need 12 ≤ k ∧ k ≤ b.size ∧
            ⟨b.addr, k, true⟩ ∈ h'.blocks) :=
  alloc_bestFit (show Region 16 128 from ⟨by decide, by decide, by decide⟩)
    (Reach.of_follow (by decide)) (by decide) (by decide)

/-! ## integrity -/

/-- The loop of `freeMem` adds the sizes up. -/
theorem foldUntil_sumStep (h : Heap) (l : List Nat) (total : Nat) (ht : total < 2 ^ 32) :
    foldUntil h.sumStep l total = (total + (l.map h.freeSize).sum) % 2 ^ 32 := by
  induction l generalizing total with
  | nil =>
      rw [foldUntil, List.map_nil, List.sum_nil, Nat.add_zero, Nat.mod_eq_of_lt ht]
  | cons a l ih =>
      rw [foldUntil, Heap.sumStep]
      dsimp only
      rw [ih _ (Nat.mod_lt _ (Nat.two_pow_pos 32)), Nat.mod_add_mod, List.map_cons, List.sum_cons,
        Heap.freeSize, Nat.add_assoc]

/-- The sizes of the blocks add up to the region. -/
theorem Tiles.sum {e : Nat} (h : Tiles a bs e) : a + (bs.map (·.size)).sum = e := by
  induction bs generalizing a with
  | nil =>
      obtain rfl : a = e := h
      simp
  | cons b bs ih =>
      rw [List.map_cons, List.sum_cons, ← ih h.2.2.2, Nat.add_assoc]

/-- Free and live blocks together fill the heap. -/
theorem sum_free_live (bs : List Blk) :
    ((bs.filter fun b => !b.live).map (·.size)).sum + ((lives bs).map (·.size)).sum =
      (bs.map (·.size)).sum := by
  unfold lives
  induction bs with
  | nil => rfl
  | cons b bs ih =>
      cases hb : b.live with
      | true =>
          simp only [List.filter_cons, hb, Bool.not_true, Bool.false_eq_true, if_false, if_true,
            List.map_cons, List.sum_cons]
          omega
      | false =>
          simp only [List.filter_cons, hb, Bool.not_false, Bool.false_eq_true, if_false, if_true,
            List.map_cons, List.sum_cons]
          omega

/-- `freeMem` and the allocated blocks make up the region. -/
theorem Shape.freeMem (hs : Shape h bs fl) :
    ∃ m, h.freeMem = some m ∧ m + ((lives bs).map (·.size)).sum = h.totalMem := by
  have hsum := hs.tiles.sum
  have hsplit := sum_free_live bs
  have htop := hs.top
  have hfl : (fl.map h.freeSize).sum = ((bs.filter fun b => !b.live).map (·.size)).sum := by
    rw [(hs.perm.map h.freeSize).sum_nat, frees, List.map_map]
    congr 1
    refine List.map_congr_left fun b hb => ?_
    exact (hs.rawSize_eq (List.mem_filter.mp hb).1).1
  refine ⟨_, walk_eq _ hs.linked hs.length_lt.2, ?_⟩
  rw [foldUntil_sumStep _ _ _ (Nat.two_pow_pos 32), hfl, Nat.zero_add, Nat.mod_eq_of_lt (by omega),
    Heap.totalMem]
  omega

/-- Freeing a held pointer twice in a row is freeing it once. -/
theorem Books.free_twice (hk : Books s bs fl) {e : Nat × Nat} (he : e ∈ s.held) :
    ∃ s₁, s.step (.free e.1) = .ok s₁ ∧ s₁.heap.free e.1 = some s₁.heap := by
  obtain ⟨pre, b, post, rfl, hlive, haddr, -⟩ := hk.find he
  obtain ⟨h', bs', fl', heq, -, -, -, heven⟩ := free_spec hk.inv hlive
  have hhi := (hk.inv.shape.tiles.bounds (show b ∈ pre ++ b :: post by simp)).2.1
  have htop := hk.inv.shape.top
  have hmin := hk.inv.shape.tiles.split.2.2.1
  unfold minBlock at hmin
  refine ⟨_, by rw [Ledger.step, haddr, heq], ?_⟩
  rw [haddr]
  exact free_rejected (by omega) heven

/-- **Integrity of the kernel heap**. -/
theorem heap_integrity (hr : Region data size) (hmin : minBlock ≤ size)
    (hrun : Reach Ledger.step Legal (Ledger.init mem data size) tr s) :
    (∀ op, Legal s op → ∃ s', s.step op = .ok s') ∧
      Tiles s.heap.heapStart s.heap.blocks s.heap.heapEnd ∧
      (∃ fl, Linked s.heap.next s.heap.freeList fl ∧ fl.Nodup ∧
        ∀ x, x ∈ fl ↔ ∃ b ∈ s.heap.blocks, b.live = false ∧ b.addr = x) ∧
      Coalesced s.heap.blocks ∧
      (∀ b ∈ s.heap.blocks, b.live = true → ∃ e ∈ s.held, e.1 = b.addr + headerSize) ∧
      (∀ e ∈ s.held, e.1 % blockAlign = 0 ∧ ∃ b ∈ s.heap.blocks, b.live = true ∧
        e.1 = b.addr + headerSize ∧
        e.1 + e.2 ≤ b.addr + b.size) ∧
      (∀ b ∈ s.heap.blocks, ∀ c ∈ s.heap.blocks, b.live = true → c.live = true → b ≠ c →
        b.addr + b.size ≤ c.addr ∨ c.addr + c.size ≤ b.addr) ∧
      (s.held.map (·.1)).Nodup ∧
      (∀ e ∈ s.held, ∃ s₁, s.step (.free e.1) = .ok s₁ ∧ s₁.heap.free e.1 = some s₁.heap) ∧
      (∀ p ∈ s.freed, s.heap.free p = some s.heap) ∧
      ∃ m, s.heap.freeMem = some m ∧ m + ((lives s.heap.blocks).map (·.size)).sum =
        s.heap.totalMem := by
  have hmin : minBlock ≤ alignUp size blockAlign := by
    unfold alignUp minBlock sizeMax blockAlign at *
    split
    · omega
    · omega
  obtain ⟨bs, fl, hk⟩ := reach_books hr hmin hrun
  have hs := hk.inv.shape
  rw [hs.blocks_eq]
  refine ⟨fun op hlegal => ?_, hs.tiles, ⟨fl, hs.linked, hs.fl_nodup, fun _ => hs.mem_fl⟩,
    hk.inv.coalesced, hk.all, fun e he => ?_,
    fun b hb c hc _ _ hne => (hs.tiles.apart hb hc).resolve_left hne, hk.nodup, fun e he =>
      hk.free_twice he, fun p hp => ?_,
    hs.freeMem⟩
  · obtain ⟨s', -, -, heq, -⟩ := step_keeps hk op hlegal
    exact ⟨s', heq⟩
  · obtain ⟨b, hb, hlive, haddr, hsize⟩ := hk.held e he
    have hmod := (hs.tiles.bounds hb).2.2.2.2
    have hal := hs.aligned
    refine ⟨?_, b, hb, hlive, haddr, by omega⟩
    rw [haddr]
    unfold headerSize blockAlign at *
    omega
  · rcases hk.freed p hp with rfl | ⟨x, rfl, hx, heven, -⟩
    · exact free_null _
    · exact free_rejected hx heven

/-- A heap that was used twice. -/
theorem heap_integrity_usedTwice :
    (∀ op, Legal usedTwice op → ∃ s', usedTwice.step op = .ok s') ∧
      Tiles usedTwice.heap.heapStart usedTwice.heap.blocks usedTwice.heap.heapEnd :=
  have hint :=
    heap_integrity (show Region 16 128 from ⟨by decide, by decide, by decide⟩) (by decide)
    (show Reach Ledger.step Legal (Ledger.init (fun _ => 0) 16 128) _ usedTwice
      from Reach.of_follow (by decide))
  ⟨hint.1, hint.2.1⟩

end Runs

end Doors.Alloc
