import Doors.Heap.Ledger

/-!
# Doors.Heap.Span

The kernel heap and the span of memory that it gets.

`Heap::init` rounds the start and the length up, each for itself.  The heap stays
inside its span exactly when the rounding changes neither of them
(`staysInside_iff`); otherwise the heap ends behind the span.
-/

namespace Doors.Alloc

open Chain Run

variable {s s' : Ledger} {h h' : Heap} {bs : List Blk} {fl : List Nat} {data size n p a : Nat}
  {mem : Nat → Nat}

/-- **The heap stays inside its span**: so do the bytes between `heapStart_` and
`heapEnd_`, and every block, with its header, that `alloc` returns in any run. -/
structure StaysInside (mem : Nat → Nat) (data size : Nat) : Prop where
  bytes : ∀ a, (Heap.init mem data size).heapStart ≤ a → a < (Heap.init mem data size).heapEnd →
    data ≤ a ∧ a < data + size
  blocks : ∀ (tr : List HeapOp) (s : Ledger),
    Reach Ledger.step Legal (Ledger.init mem data size) tr s →
    ∀ (n p : Nat) (h' : Heap), n < 2 ^ 32 → s.heap.alloc n = some (p, h') →
      p = 0 ∨ (data + headerSize ≤ p ∧ p + n ≤ data + size)

/-! ## no operation moves the ends of the heap -/

/-- `h'` has the ends of `h`. -/
def Heap.Ends (h h' : Heap) : Prop := h'.heapStart = h.heapStart ∧ h'.heapEnd = h.heapEnd

/-- Taking a block keeps the ends of the heap. -/
theorem take_ends (h : Heap) (best bestPrev needed : Nat) :
    h.Ends (h.take best bestPrev needed) := by
  unfold Heap.Ends Heap.take
  dsimp only
  split
  · simp [Heap.setMagic, Heap.setSize, Heap.setNext, Heap.store]
  · simp [Heap.setMagic, Heap.setSize, Heap.store]

/-- `alloc` keeps the ends of the heap. -/
theorem alloc_ends (heq : h.alloc n = some (p, h')) : h.Ends h' := by
  unfold Heap.alloc at heq
  split at heq
  · cases heq
    exact ⟨rfl, rfl⟩
  · split at heq
    · cases heq
      exact ⟨rfl, rfl⟩
    · split at heq
      · simp at heq
      · split at heq
        · cases heq
          exact ⟨rfl, rfl⟩
        · cases heq
          exact take_ends ..

/-- `coalesce` keeps the ends of the heap. -/
theorem coalesce_ends (heq : h.coalesce a = some h') : h.Ends h' := by
  unfold Heap.coalesce at heq
  dsimp only at heq
  split at heq
  · cases heq
    exact ⟨rfl, rfl⟩
  · split at heq
    · cases heq
      exact ⟨rfl, rfl⟩
    · split at heq
      · simp at heq
      · cases heq
        simp [Heap.Ends, Heap.removeFromFreeList, Heap.setSize, Heap.store]
      · cases heq
        exact ⟨rfl, rfl⟩

/-- `free` keeps the ends of the heap. -/
theorem free_ends (heq : h.free p = some h') : h.Ends h' := by
  unfold Heap.free at heq
  dsimp only at heq
  split at heq
  · cases heq
    exact ⟨rfl, rfl⟩
  · split at heq
    · cases heq
      exact ⟨rfl, rfl⟩
    · split at heq
      · simp at heq
      · exact ⟨(coalesce_ends heq).1, (coalesce_ends heq).2⟩
      · exact ⟨(coalesce_ends heq).1, (coalesce_ends heq).2⟩

/-- An operation keeps the ends of the heap. -/
theorem step_ends {op : HeapOp} (hstep : s.step op = .ok s') : s.heap.Ends s'.heap := by
  cases op with
  | alloc n =>
      rw [Ledger.step] at hstep
      split at hstep
      · simp at hstep
      · next heq =>
          cases hstep
          exact alloc_ends heq
  | free p =>
      rw [Ledger.step] at hstep
      split at hstep
      · simp at hstep
      · next heq =>
          cases hstep
          exact free_ends heq
  | write a v =>
      cases hstep
      exact ⟨rfl, rfl⟩

/-- A run keeps the ends of the heap. -/
theorem reach_ends {tr : List HeapOp} {s₀ : Ledger} (hrun : Reach Ledger.step Legal s₀ tr s) :
    s₀.heap.Ends s.heap := by
  refine Reach.inv (P := fun s => s₀.heap.Ends s.heap) ⟨rfl, rfl⟩ ?_ hrun
  intro s op s' hs _ hstep
  have hends := step_ends hstep
  exact ⟨hends.1.trans hs.1, hends.2.trans hs.2⟩

/-! ## aligned spans -/

/-- A block that `alloc` returns lies between the ends of the heap. -/
theorem alloc_within (hk : Books s bs fl) (hn : n < 2 ^ 32) (heq : s.heap.alloc n = some (p, h')) :
    p = 0 ∨ (s.heap.heapStart + headerSize ≤ p ∧ p + n ≤ s.heap.heapEnd) := by
  rcases Nat.eq_zero_or_pos n with rfl | hpos
  · cases heq
    exact .inl rfl
  rcases alloc_fit hk.inv.shape hpos hn with ⟨heq', -⟩ | ⟨b, hb, f₁, f₂, -, -, hge, -, heq'⟩
  · cases heq.symm.trans heq'
    exact .inl rfl
  · cases heq.symm.trans heq'
    obtain ⟨hlo, hhi, -⟩ := hk.inv.shape.tiles.bounds hb
    have := le_need n
    exact .inr ⟨by omega, by omega⟩

/-- The heap at address 0: its first block is the null pointer, and `alloc`
returns null. -/
structure Absent (s : Ledger) : Prop where
  head : s.heap.freeList = 0
  held : s.held = []
  freed : ∀ p ∈ s.freed, p = 0

/-- A heap without a block gives nothing out. -/
theorem Absent.alloc (hs : Absent s) : s.heap.alloc n = some (0, s.heap) := by
  unfold Heap.alloc
  split
  · rfl
  · split
    · rfl
    · simp [hs.head, Heap.fuel, walk]

/-- A heap without a block stays so. -/
theorem Absent.step (hs : Absent s) {op : HeapOp} (hlegal : Legal s op)
    (hstep : s.step op = .ok s') : Absent s' := by
  cases op with
  | alloc n =>
      rw [Ledger.step, hs.alloc] at hstep
      cases hstep
      exact { hs with freed := by simp }
  | free p =>
      have hp : p = 0 := by
        rcases hlegal with hp | ⟨e, he, -⟩ | hp
        · exact hp
        · simp [hs.held] at he
        · exact hs.freed p hp
      rw [Ledger.step, hp, free_null] at hstep
      cases hstep
      exact { hs with held := by simp [hs.held], freed := List.forall_mem_cons.mpr ⟨rfl, hs.freed⟩ }
  | write a v =>
      obtain ⟨-, e, he, -⟩ := hlegal
      simp [hs.held] at he

/-- The start is rounded up. -/
theorem init_heapStart : (Heap.init mem data size).heapStart = alignUp data blockAlign := rfl

/-- The end is the start and the rounded size, and may wrap. -/
theorem init_heapEnd :
    (Heap.init mem data size).heapEnd = (alignUp data blockAlign + alignUp size blockAlign) %
      2 ^ 32 := rfl

/-- Rounding that changes nothing: the heap is the span. -/
theorem staysInside_of_aligned (hmin : 64 ≤ size) (htop : data + size < 2 ^ 32)
    (hdata : alignUp data blockAlign = data)
    (hsize : alignUp size blockAlign = size) : StaysInside mem data size := by
  have hstart : (Heap.init mem data size).heapStart = data := by rw [init_heapStart, hdata]
  have hend : (Heap.init mem data size).heapEnd = data + size := by
    rw [init_heapEnd, hdata, hsize, Nat.mod_eq_of_lt htop]
  refine ⟨fun a hlo hhi => by omega, fun tr s hrun n p h' hn heq => ?_⟩
  rcases Nat.eq_zero_or_pos data with rfl | hpos
  · have habsent : Absent s := by
      refine Reach.inv (P := Absent) ⟨?_, rfl, by simp [Ledger.init]⟩
        (fun _ _ _ hs hlegal hstep => hs.step hlegal hstep) hrun
      exact hdata
    cases habsent.alloc.symm.trans heq
    exact .inl rfl
  · have hr : Region data size := ⟨hpos, by omega, by rwa [hdata, hsize]⟩
    obtain ⟨bs, fl, hk⟩ := reach_books hr (by rw [hsize]; unfold minBlock; omega) hrun
    have hends := reach_ends hrun
    have hwithin := alloc_within hk hn heq
    rw [hends.1, hends.2] at hwithin
    show p = 0 ∨ _
    rwa [show (Ledger.init mem data size).heap.heapStart = data from hstart,
      show (Ledger.init mem data size).heap.heapEnd = data + size from hend] at hwithin

/-! ## other spans -/

/-- Rounding does not go down. -/
theorem alignUp_ge (hn : n < 2 ^ 32) : n ≤ alignUp n blockAlign := by
  unfold alignUp sizeMax blockAlign
  split
  · omega
  · omega

/-- Rounding saturates close to the largest size. -/
theorem alignUp_cases (n : Nat) :
    alignUp n blockAlign = sizeMax ∧ sizeMax - 15 < n ∨ alignUp n blockAlign % 16 = 0 ∧
      alignUp n blockAlign ≤ n + 15 ∧ n ≤ sizeMax - 15 := by
  unfold alignUp sizeMax blockAlign
  split
  · omega
  · omega

/-- The request for a whole number of units, less the header. -/
theorem neededFor_whole {k : Nat} (hlo : 32 ≤ k / 16 * 16) (hhi : k < 2 ^ 32) :
    Heap.neededFor (k / 16 * 16 - 16) = some (k / 16 * 16) := by
  have h₄ : alignUp (k / 16 * 16 - 16) 4 = k / 16 * 16 - 16 := by
    unfold alignUp sizeMax
    rw [if_neg (by omega)]
    omega
  have hmax : max (headerSize + (k / 16 * 16 - 16)) minBlock = k / 16 * 16 := by
    unfold headerSize minBlock
    omega
  have h₁₆ : alignUp (k / 16 * 16) blockAlign = k / 16 * 16 := by
    unfold alignUp sizeMax blockAlign
    rw [if_neg (by omega)]
    omega
  unfold Heap.neededFor
  simp only [h₄, hmax, h₁₆]
  rw [if_neg (by unfold sizeMax headerSize; omega)]

/-- **The end wraps**: the first allocation of everything gets a block that
reaches the end of the address space. -/
theorem alloc_wraps (mem : Nat → Nat) (hmin : 64 ≤ size) (htop : data + size < 2 ^ 32)
    (hwrap : 2 ^ 32 ≤ alignUp data blockAlign + alignUp size blockAlign) :
    ∃ n h', n < 2 ^ 32 ∧ (Heap.init mem data size).alloc n =
      some (alignUp data blockAlign + headerSize, h') ∧
      data + size < alignUp data blockAlign + headerSize + n := by
  have hcd := alignUp_cases data
  have hcz := alignUp_cases size
  unfold sizeMax at hcd hcz
  generalize hd : alignUp data blockAlign = start at *
  generalize hz : alignUp size blockAlign = len at *
  have hpos : start ≠ 0 := by omega
  have hsub : ((start + len) % 2 ^ 32 + 2 ^ 32 - start) % 2 ^ 32 = len := by omega
  have hfuel : ((start + len) % 2 ^ 32 - start) / blockAlign + 2 = 2 := by
    unfold blockAlign
    omega
  have hraw : rawSize len ≥ len / 16 * 16 := by
    unfold rawSize
    omega
  have hsize : (Heap.init mem data size).size start = len := by
    simp only [Heap.init, hd, hz, hsub]
    simp [Heap.size, Heap.setNext, Heap.setMagic, Heap.setSize, store_mem]
  have hwalk : walk (Heap.init mem data size).next
    ((Heap.init mem data size).bestStep (len / 16 * 16))
      (Heap.init mem data size).fuel (Heap.init mem data size).freeList {} =
        some ⟨start, 0, start⟩ := by
    have hnext : (Heap.init mem data size).next start = 0 := by
      simp [Heap.init, hd, Heap.next, Heap.setNext, Heap.setMagic, Heap.setSize, store_mem]
    have hlist : (Heap.init mem data size).freeList = start := hd
    have hfuel' : (Heap.init mem data size).fuel = 2 := by
      unfold Heap.fuel
      rw [init_heapStart, init_heapEnd, hd, hz, hfuel]
    rw [hfuel', hlist]
    by_cases hall : rawSize len = len / 16 * 16
    · simp [walk, Heap.bestStep, hsize, hpos, hall]
    · simp [walk, Heap.bestStep, hsize, hraw, hnext, hpos, hall]
  have halloc : ∃ h', (Heap.init mem data size).alloc (len / 16 * 16 - 16) =
      some (start + headerSize, h') := by
    unfold Heap.alloc
    rw [if_neg (by omega), neededFor_whole (by omega) (by omega)]
    simp [hwalk, hpos]
  obtain ⟨h', heq⟩ := halloc
  exact ⟨len / 16 * 16 - 16, h', by omega, heq, by unfold headerSize; omega⟩

/-- **The heap stays inside its span** exactly when the rounding changes neither
the start nor the length. -/
theorem staysInside_iff (hmin : 64 ≤ size) (htop : data + size < 2 ^ 32) :
    StaysInside mem data size ↔ alignUp data blockAlign = data ∧
      alignUp size blockAlign = size := by
  refine ⟨fun hin => ?_, fun ⟨hdata, hsize⟩ => staysInside_of_aligned hmin htop hdata hsize⟩
  have hd := alignUp_ge (n := data) (by omega)
  have hz := alignUp_ge (n := size) (by omega)
  by_contra hne
  by_cases hwrap : 2 ^ 32 ≤ alignUp data blockAlign + alignUp size blockAlign
  · obtain ⟨n, h', hn, heq, hout⟩ := alloc_wraps mem hmin htop hwrap
    rcases hin.blocks [] _ .nil n _ h' hn heq with hzero | ⟨-, hle⟩
    · unfold headerSize at hzero
      omega
    · omega
  · -- the last byte of the heap lies behind the span
    have hlast := hin.bytes (alignUp data blockAlign + alignUp size blockAlign - 1)
    rw [init_heapStart, init_heapEnd, Nat.mod_eq_of_lt (by omega)] at hlast
    have := hlast (by omega) (by omega)
    omega

/-- A page on a page boundary. -/
theorem staysInside_iff_pool :
    StaysInside (fun _ => 0) 4096 4096 ↔ alignUp 4096 blockAlign = 4096 ∧
      alignUp 4096 blockAlign = 4096 :=
  staysInside_iff (by decide) (by decide)

/-- 65 bytes at 4096: the heap ends 15 bytes behind the span. -/
theorem heap_leaves_span :
    ¬ ∀ (mem : Nat → Nat) (data size : Nat), 64 ≤ size → data + size < 2 ^ 32 →
      StaysInside mem data size := by
  intro hall
  have hlast := (hall (fun _ => 0) 4096 65 (by decide) (by decide)).bytes 4175
    (by decide) (by decide)
  omega

end Doors.Alloc
