import Mathlib.Data.List.Find
import Mathlib.Tactic.IntervalCases
import Doors.Memory.Paging
import Doors.Scheduler.Signals

/-!
# Doors.Sigreturn.Trampoline

The code that a handler returns to (`Scheduler::writeSignalTrampoline`).

Delivery puts sixteen bytes below the stack pointer of the task: eight of code, which calls
`SYS_SIGRETURN`, their address and the number of the signal.  They are written in three
pieces, each through the frame that the task has noted for the page of its first byte; the
task reads them through its page directory.

* `trampoline_iff` — the task finds the sixteen bytes, and no other byte of memory changes, if
  and only if each piece is written to the frames that the directory maps there;
* `placed_of_aligned` — which is so when the stack pointer is a multiple of 8 and the noted
  frames are those that are mapped;
* `trampoline_iff_forked` — and is not so in a child that has a copy of its stack page.
-/

namespace Doors

open Memory

namespace Memory.Phys

variable {st st' : Phys} {dir a v : Nat}

/-- The byte at `a` is in the directory, or in one of its tables. -/
def InTables (st : Phys) (dir a : Nat) : Prop :=
  (dir ≤ a ∧ a < dir + pageSize) ∨
    ∃ i < pteCount, present (st.entry dir i) = true ∧ addr (st.entry dir i) ≤ a ∧
      a < addr (st.entry dir i) + pageSize

/-- Entries lie in the frame of their table. -/
theorem entry_congr {t k : Nat} (hk : k < pteCount)
    (h : ∀ a, t ≤ a → a < t + pageSize → st'.mem a = st.mem a) :
    st'.entry t k = st.entry t k := by
  unfold pteCount at hk
  unfold pageSize at h
  exact word_congr fun x hx hx' => h x (by omega) (by omega)

/-- The directory is read from its own frame. -/
theorem entry_tables (h : ∀ a, st.InTables dir a → st'.mem a = st.mem a) {i : Nat}
    (hi : i < pteCount) :
    st'.entry dir i = st.entry dir i :=
  entry_congr hi fun a hle hlt => h a (.inl ⟨hle, hlt⟩)

/-- Pages stay where they are as long as the tables are not written. -/
theorem lookup_congr (h : ∀ a, st.InTables dir a → st'.mem a = st.mem a) (hv : v < 2 ^ 32) :
    st'.lookup dir v = st.lookup dir v := by
  have hi : pdeIdx v < pteCount := by
    unfold pdeIdx pdeSize pteCount
    omega
  unfold lookup
  rw [entry_tables h hi]
  by_cases hp : present (st.entry dir (pdeIdx v)) = true
  · have hpte : st'.entry (addr (st.entry dir (pdeIdx v))) (pteIdx v) =
        st.entry (addr (st.entry dir (pdeIdx v))) (pteIdx v) :=
      entry_congr (pteIdx_lt v) fun a hle hlt => h a (.inr ⟨_, hi, hp, hle, hlt⟩)
    rw [hpte]
  · rw [if_neg fun hc => hp hc.1, if_neg fun hc => hp hc.1]

end Memory.Phys

namespace Task

/-- `movl $19, %eax; int $0x80; hlt`. -/
def trampolineCode : List (BitVec 8) := [0xB8, 19, 0, 0, 0, 0xCD, 0x80, 0xF4]

/-- The bytes of a `uint32_t`. -/
def wordBytes (n : Nat) : List (BitVec 8) := [0, 1, 2, 3].map fun k => BitVec.ofNat 8 (n / 256 ^ k)

/-- The page of the user stack that holds `vaddr`, as `writeAt` looks for it. -/
def stackPageOf (t : Task) (vaddr : Nat) : Option Nat :=
  (List.range t.userStackPageCount).find? fun i =>
    t.userStackVaddr i ≤ vaddr ∧ vaddr < (t.userStackVaddr i + pageSize) % 2 ^ 32

/-- Where `writeAt` has the byte at `vaddr`. -/
def stackByte (t : Task) (vaddr : Nat) : Option Nat :=
  (t.stackPageOf vaddr).map fun i => t.userStackPhys i + (vaddr - t.userStackVaddr i)

/-- `writeAt`: nothing is written outside the stack. -/
def writeAt (t : Task) (mem : Nat → BitVec 8) (vaddr : Nat) (data : List (BitVec 8)) :
    Nat → BitVec 8 :=
  match t.stackByte vaddr with
  | none => mem
  | some a => setBytes mem a data

/-- `Scheduler::writeSignalTrampoline`: the new stack pointer, and the memory. -/
def writeSignalTrampoline (t : Task) (mem : Nat → BitVec 8) (originalUserEsp sigNum : Nat) :
    Nat × (Nat → BitVec 8) :=
  let newUserEsp := (originalUserEsp + 2 ^ 32 - 8) % 2 ^ 32
  let trampolineVaddr := (originalUserEsp + 2 ^ 32 - 16) % 2 ^ 32
  let mem := t.writeAt mem trampolineVaddr trampolineCode
  let mem := t.writeAt mem ((trampolineVaddr + 8) % 2 ^ 32) (wordBytes trampolineVaddr)
  let mem := t.writeAt mem ((trampolineVaddr + 12) % 2 ^ 32) (wordBytes sigNum)
  (newUserEsp, mem)

/-! ## what it is for -/

/-- Whole pages, noted with whole frames. -/
def StackAligned (t : Task) : Prop :=
  ∀ i < t.userStackPageCount, t.userStackVaddr i % pageSize = 0 ∧ t.userStackPhys i % pageSize = 0

/-- Where the task has the byte at `vaddr`, through its page directory. -/
def seenByte (t : Task) (st : Phys) (vaddr : Nat) : Option Nat :=
  (st.lookup t.pageDir vaddr).map (· + vaddr % pageSize)

/-- The address of byte `k` of the sixteen below `esp`. -/
def byteAt (esp k : Nat) : Nat := (esp + 2 ^ 32 - 16 + k) % 2 ^ 32

/-- The sixteen bytes below `esp`. -/
def trampoline (esp sigNum : Nat) : List (BitVec 8) :=
  trampolineCode ++ wordBytes (byteAt esp 0) ++ wordBytes sigNum

/-- The task finds the sixteen bytes below `esp`, all other memory is as it was, and so is the
place of every page. -/
structure Trampolined (t : Task) (esp sigNum : Nat) (st st' : Phys) : Prop where
  bytes : ∀ k < 16, ∃ a, t.seenByte st (byteAt esp k) = some a ∧
    st'.mem a = (trampoline esp sigNum).getD k 0
  others : ∀ a, (∀ k < 16, t.seenByte st (byteAt esp k) ≠ some a) → st'.mem a = st.mem a
  seen : ∀ v < 2 ^ 32, t.seenByte st' v = t.seenByte st v

/-- Where the piece with byte `k` starts. -/
def pieceOf (k : Nat) : Nat := if k < 8 then 0 else if k < 12 then 8 else 12

/-- Byte `k` is written where the task has it. -/
def Placed (t : Task) (st : Phys) (esp k : Nat) : Prop :=
  ∃ a, t.stackByte (byteAt esp (pieceOf k)) = some a ∧
    t.seenByte st (byteAt esp k) = some (a + (k - pieceOf k))

/-- Delivery leaves the stack pointer where the trampoline's address is. -/
theorem redirect_userEsp (s : Sched) (sig : Nat) (mem : Nat → BitVec 8) :
    ((s.redirect sig).frames s.cur.esp).userEsp =
      (s.cur.writeSignalTrampoline mem (s.frames s.cur.esp).userEsp sig).1 := by
  simp [Sched.redirect, Sched.clearPending, Sched.cur, writeSignalTrampoline]

/-! ## addresses -/

variable {t : Task} {st : Phys} {v w a i k esp sigNum : Nat} {mem : Nat → BitVec 8}

theorem stackByte_some (h : t.stackByte v = some a) :
    ∃ i < t.userStackPageCount, t.userStackVaddr i ≤ v ∧
      a = t.userStackPhys i + (v - t.userStackVaddr i) := by
  obtain ⟨i, hi, rfl⟩ := Option.map_eq_some_iff.mp h
  have hmem := List.mem_of_find?_eq_some hi
  have hin := List.find?_some hi
  simp only [List.mem_range] at hmem
  simp only [decide_eq_true_eq] at hin
  exact ⟨i, hmem, hin.1, rfl⟩

/-- Addresses keep their place in the page. -/
theorem stackByte_mod (h : t.StackAligned) (ha : t.stackByte v = some a) :
    a % pageSize = v % pageSize := by
  obtain ⟨i, hi, hle, rfl⟩ := stackByte_some ha
  obtain ⟨hv, hp⟩ := h i hi
  unfold pageSize at *
  omega

theorem seenByte_mod (ha : t.seenByte st v = some a) : a % pageSize = v % pageSize := by
  obtain ⟨f, hf, rfl⟩ := Option.map_eq_some_iff.mp ha
  unfold Phys.lookup at hf
  split at hf
  · have hal := addr_mod (st.entry (addr (st.entry t.pageDir (pdeIdx v))) (pteIdx v))
    rw [Option.some.inj hf] at hal
    unfold pageSize at *
    omega
  · contradiction

/-- No two of the sixteen bytes have one place in a page. -/
theorem byteAt_mod {l : Nat} (hk : k < 16) (hl : l < 16)
    (h : byteAt esp k % pageSize = byteAt esp l % pageSize) : k = l := by
  unfold byteAt pageSize at h
  omega

theorem byteAt_lt : byteAt esp k < 2 ^ 32 := Nat.mod_lt _ (by decide)

/-- What the page tables do not hold has no say in where the task sees its bytes. -/
theorem seenByte_congr (hmem : ∀ a, st.InTables t.pageDir a → mem a = st.mem a) (hv : v < 2 ^ 32) :
    t.seenByte { st with mem := mem } v = t.seenByte st v := by
  unfold seenByte
  rw [Phys.lookup_congr hmem hv]

/-- A page is looked for by its number. -/
theorem stackByte_page (h : t.StackAligned) (ha : t.stackByte v = some a)
    (hpage : w / pageSize = v / pageSize) (hle : v ≤ w) :
    t.stackByte w = some (a + (w - v)) := by
  have hfind : t.stackPageOf w = t.stackPageOf v := by
    unfold stackPageOf
    refine List.find?_congr fun i hi => ?_
    have hv := (h i (List.mem_range.mp hi)).1
    unfold pageSize at *
    rw [decide_eq_decide]
    omega
  obtain ⟨i, hi, hlow, rfl⟩ := stackByte_some ha
  obtain ⟨j, hj, heq⟩ := Option.map_eq_some_iff.mp ha
  unfold stackByte
  rw [hfind, hj, Option.map_some, Option.some.injEq]
  have hjlow : t.userStackVaddr j ≤ v := by
    have hin := List.find?_some hj
    simp only [decide_eq_true_eq] at hin
    exact hin.1
  omega

/-! ## the three pieces -/

theorem writeAt_some {data : List (BitVec 8)} (h : t.stackByte v = some a) :
    t.writeAt mem v data = setBytes mem a data := by
  rw [writeAt, h]

/-- A byte that `writeAt` changes is one of its own. -/
theorem writeAt_changes {data : List (BitVec 8)} {x : Nat} (h : t.writeAt mem v data x ≠ mem x) :
    ∃ a, t.stackByte v = some a ∧ a ≤ x ∧ x < a + data.length := by
  unfold writeAt at h
  cases ha : t.stackByte v with
  | none =>
      rw [ha] at h
      exact absurd rfl h
  | some a =>
      rw [ha] at h
      refine ⟨a, rfl, ?_⟩
      by_contra hout
      exact h (if_neg hout)

/-- The three pieces, one after the other. -/
theorem writeSignalTrampoline_snd : (t.writeSignalTrampoline mem esp sigNum).2 =
    t.writeAt (t.writeAt (t.writeAt mem (byteAt esp 0) trampolineCode) (byteAt esp 8)
      (wordBytes (byteAt esp 0))) (byteAt esp 12)
      (wordBytes sigNum) := by
  have h₀ : (esp + 2 ^ 32 - 16) % 2 ^ 32 = byteAt esp 0 := by rw [byteAt, Nat.add_zero]
  have h₈ : (byteAt esp 0 + 8) % 2 ^ 32 = byteAt esp 8 := by
    unfold byteAt
    omega
  have h₁₂ : (byteAt esp 0 + 12) % 2 ^ 32 = byteAt esp 12 := by
    unfold byteAt
    omega
  unfold writeSignalTrampoline
  dsimp only
  rw [h₀, h₈, h₁₂]

/-- A byte that changes is in one of the pieces. -/
theorem piece_changes {x : Nat} (h : (t.writeSignalTrampoline mem esp sigNum).2 x ≠ mem x) :
    ∃ k < 16, ∃ a, t.stackByte (byteAt esp (pieceOf k)) = some a ∧ x = a + (k - pieceOf k) := by
  have hpiece : ∀ s n a, s + n ≤ 16 → (∀ k, s ≤ k → k < s + n → pieceOf k = s) →
    t.stackByte (byteAt esp s) = some a → a ≤ x → x < a + n →
      ∃ k < 16, ∃ a, t.stackByte (byteAt esp (pieceOf k)) = some a ∧ x = a + (k - pieceOf k) := by
    intro s n a hsn hs ha hle hlt
    refine ⟨s + (x - a), by omega, a, ?_, ?_⟩
    · rw [hs _ (by omega) (by omega)]
      exact ha
    · rw [hs _ (by omega) (by omega)]
      omega
  rw [writeSignalTrampoline_snd] at h
  by_cases h₁₂ : t.writeAt (t.writeAt (t.writeAt mem (byteAt esp 0) trampolineCode) (byteAt esp 8)
    (wordBytes (byteAt esp 0)))
      (byteAt esp 12) (wordBytes sigNum) x =
      t.writeAt (t.writeAt mem (byteAt esp 0) trampolineCode) (byteAt esp 8)
        (wordBytes (byteAt esp 0)) x
  · rw [h₁₂] at h
    by_cases h₈ : t.writeAt (t.writeAt mem (byteAt esp 0) trampolineCode) (byteAt esp 8)
      (wordBytes (byteAt esp 0)) x =
        t.writeAt mem (byteAt esp 0) trampolineCode x
    · rw [h₈] at h
      obtain ⟨a, ha, hle, hlt⟩ := writeAt_changes h
      exact hpiece 0 8 a (by decide) (fun k _ hk => if_pos (by omega)) ha hle hlt
    · obtain ⟨a, ha, hle, hlt⟩ := writeAt_changes h₈
      exact hpiece 8 4 a (by decide)
        (fun k hk hk' => by rw [pieceOf, if_neg (by omega), if_pos (by omega)]) ha hle hlt
  · obtain ⟨a, ha, hle, hlt⟩ := writeAt_changes h₁₂
    exact hpiece 12 4 a (by decide)
      (fun k hk hk' => by rw [pieceOf, if_neg (by omega), if_neg (by omega)]) ha hle hlt

/-- What the task should find there. -/
theorem trampoline_getD (hk : k < 16) :
    (trampoline esp sigNum).getD k 0 =
      if k < 8 then trampolineCode.getD k 0
      else if k < 12 then (wordBytes (byteAt esp 0)).getD (k - 8) 0
      else (wordBytes sigNum).getD (k - 12) 0 := by
  interval_cases k <;> rfl

/-- What is at `x` when the pieces start at `A 0`, `A 8` and `A 12`. -/
theorem pieces_apply {A : Nat → Nat}
    (hA : ∀ k < 16, t.stackByte (byteAt esp (pieceOf k)) = some (A (pieceOf k))) (x : Nat) :
    (t.writeSignalTrampoline mem esp sigNum).2 x =
      if A 12 ≤ x ∧ x < A 12 + 4 then (wordBytes sigNum).getD (x - A 12) 0
      else if A 8 ≤ x ∧ x < A 8 + 4 then (wordBytes (byteAt esp 0)).getD (x - A 8) 0
      else if A 0 ≤ x ∧ x < A 0 + 8 then trampolineCode.getD (x - A 0) 0
      else mem x := by
  have h₀ : t.stackByte (byteAt esp 0) = some (A 0) := hA 0 (by decide)
  have h₈ : t.stackByte (byteAt esp 8) = some (A 8) := hA 8 (by decide)
  have h₁₂ : t.stackByte (byteAt esp 12) = some (A 12) := hA 12 (by decide)
  rw [writeSignalTrampoline_snd, writeAt_some h₀, writeAt_some h₈, writeAt_some h₁₂]
  rfl

/-- Pieces that lie in memory one byte after the other are what is found at the `A k`. -/
theorem pieces_bytes {A : Nat → Nat}
    (hA : ∀ k < 16, t.stackByte (byteAt esp (pieceOf k)) = some (A (pieceOf k)))
    (hpiece : ∀ k < 16, A k = A (pieceOf k) + (k - pieceOf k))
    (hinj : ∀ k < 16, ∀ l < 16, A k = A l → k = l) (hk : k < 16) :
    (t.writeSignalTrampoline mem esp sigNum).2 (A k) = (trampoline esp sigNum).getD k 0 := by
  -- a byte of another piece is not one of this
  have hnot : ∀ s n, s + n ≤ 16 → (∀ l, s ≤ l → l < s + n → pieceOf l = s) → ¬ (s ≤ k ∧ k < s + n) →
      ¬ (A s ≤ A k ∧ A k < A s + n) := by
    intro s n hsn hs hout hr
    have hl := hpiece (s + (A k - A s)) (by omega)
    rw [hs _ (by omega) (by omega)] at hl
    have heq := hinj k hk (s + (A k - A s)) (by omega) (by omega)
    omega
  have h₁₂ := hnot 12 4 (by decide) fun l hl hl' => by
    rw [pieceOf, if_neg (by omega), if_neg (by omega)]
  have h₈ := hnot 8 4 (by decide) fun l hl hl' => by
    rw [pieceOf, if_neg (by omega), if_pos (by omega)]
  have hown := hpiece k hk
  unfold pieceOf at hown
  rw [pieces_apply hA, trampoline_getD hk]
  rcases (by omega : k < 8 ∨ 8 ≤ k ∧ k < 12 ∨ 12 ≤ k) with hlt | ⟨hle, hlt⟩ | hle
  · rw [if_pos hlt] at hown
    rw [if_neg (h₁₂ (by omega)), if_neg (h₈ (by omega)), if_pos (by omega), if_pos hlt, hown]
    congr 1
    omega
  · rw [if_neg (by omega), if_pos hlt] at hown
    rw [if_neg (h₁₂ (by omega)), if_pos (by omega), if_neg (by omega), if_pos hlt, hown]
    congr 1
    omega
  · rw [if_neg (by omega), if_neg (by omega)] at hown
    rw [if_pos (by omega), if_neg (by omega), if_neg (by omega), hown]
    congr 1
    omega

/-! ## the trampoline -/

/-- A byte that the task sees and the trampoline changes is written where it belongs. -/
theorem placed_of_changed {x : Nat} (h : t.StackAligned) (hk : k < 16)
    (hx : t.seenByte st (byteAt esp k) = some x)
    (hchanged : (t.writeSignalTrampoline mem esp sigNum).2 x ≠ mem x) : t.Placed st esp k := by
  obtain ⟨l, hl, a, ha, rfl⟩ := piece_changes hchanged
  have hsame : byteAt esp k % pageSize = byteAt esp l % pageSize := by
    rw [← seenByte_mod hx]
    have hmod := stackByte_mod h ha
    have hle : pieceOf l ≤ l := by
      unfold pieceOf
      split
      · omega
      · split <;> omega
    unfold byteAt pageSize at *
    omega
  obtain rfl := byteAt_mod hk hl hsame
  exact ⟨a, ha, hx⟩

/-- Where the sixteen bytes are when every one is written where it belongs. -/
theorem placed_cells (hplaced : ∀ k < 16, t.Placed st esp k) : ∃ A : Nat → Nat, ∀ k < 16,
    t.stackByte (byteAt esp (pieceOf k)) = some (A (pieceOf k)) ∧
      t.seenByte st (byteAt esp k) = some (A k) ∧ A k = A (pieceOf k) + (k - pieceOf k) := by
  refine ⟨fun k => (t.seenByte st (byteAt esp k)).getD 0, fun k hk => ?_⟩
  have hstart : pieceOf k < 16 ∧ pieceOf (pieceOf k) = pieceOf k := by
    interval_cases k <;> decide
  obtain ⟨a, ha, hs⟩ := hplaced k hk
  obtain ⟨b, hb, hs'⟩ := hplaced (pieceOf k) hstart.1
  rw [hstart.2, ha] at hb
  obtain rfl := Option.some.inj hb
  simp only [hs, hs', ha, hstart.2, Option.getD_some, Nat.sub_self, Nat.add_zero, and_self]

/-- **The trampoline** is written where the task will look for it, and nowhere else, if and
only if each of the three pieces is written to the frames that the page directory maps there.  The
frames of the stack are no page tables, and what else is in memory does not matter. -/
theorem trampoline_iff (h : t.StackAligned)
    (hapart : ∀ k < 16, ∀ a, t.seenByte st (byteAt esp k) = some a → ¬ st.InTables t.pageDir a) :
    (∀ mem, (∀ a, st.InTables t.pageDir a → mem a = st.mem a) →
      t.Trampolined esp sigNum { st with mem := mem }
        { st with mem := (t.writeSignalTrampoline mem esp sigNum).2 }) ↔
      ∀ k < 16, t.Placed st esp k := by
  constructor
  · intro hall k hk
    classical
    -- a memory that has another byte wherever the task should find byte `k`
    let mem : Nat → BitVec 8 := fun a => if st.InTables t.pageDir a then st.mem a
      else ~~~ (trampoline esp sigNum).getD k 0
    have hmem : ∀ a, st.InTables t.pageDir a → mem a = st.mem a := fun a ha => if_pos ha
    obtain ⟨x, hx, hfound⟩ := (hall mem hmem).bytes k hk
    rw [seenByte_congr hmem byteAt_lt] at hx
    have hother : mem x = ~~~ (trampoline esp sigNum).getD k 0 := if_neg (hapart k hk x hx)
    have hchanged : (t.writeSignalTrampoline mem esp sigNum).2 x ≠ mem x := by
      intro heq
      have hboth := hfound.symm.trans (heq.trans hother)
      generalize (trampoline esp sigNum).getD k 0 = b at hboth
      revert b
      decide
    exact placed_of_changed h hk hx hchanged
  · intro hplaced mem hmem
    obtain ⟨A, hA⟩ := placed_cells hplaced
    have hinj : ∀ k < 16, ∀ l < 16, A k = A l → k = l := by
      intro k hk l hl heq
      have hsame : byteAt esp k % pageSize = byteAt esp l % pageSize := by
        rw [← seenByte_mod (hA k hk).2.1, ← seenByte_mod (hA l hl).2.1, heq]
      exact byteAt_mod hk hl hsame
    have hothers : ∀ x, (∀ k < 16, t.seenByte st (byteAt esp k) ≠ some x) →
        (t.writeSignalTrampoline mem esp sigNum).2 x = mem x := by
      intro x hx
      by_contra hne
      obtain ⟨k, hk, a, ha, rfl⟩ := piece_changes hne
      obtain ⟨hstart, hs, hcell⟩ := hA k hk
      obtain rfl : A (pieceOf k) = a := Option.some.inj (hstart.symm.trans ha)
      exact hx k hk (by rw [hs, hcell])
    refine ⟨fun k hk => ⟨A k, ?_, pieces_bytes (fun k hk => (hA k hk).1)
        (fun k hk => (hA k hk).2.2) hinj hk⟩, fun x hx => ?_, fun v hv => ?_⟩
    · rw [seenByte_congr hmem byteAt_lt]
      exact (hA k hk).2.1
    · refine hothers x fun k hk => ?_
      rw [← seenByte_congr hmem byteAt_lt]
      exact hx k hk
    · rw [seenByte_congr hmem hv]
      refine seenByte_congr (fun a ha => ?_) hv
      rw [hothers a fun k hk hs => hapart k hk a hs ha]
      exact hmem a ha

/-- **Aligned stack pointers** are safe while the noted frames are those that are mapped. -/
theorem placed_of_aligned (h : t.StackAligned) (hmul : esp % 8 = 0)
    (hnoted : ∀ k < 16, ∃ a, t.stackByte (byteAt esp k) = some a ∧
    t.seenByte st (byteAt esp k) = some a) (hk : k < 16) :
    t.Placed st esp k := by
  have hstart : pieceOf k < 16 ∧ pieceOf k ≤ k ∧
      (pieceOf k % 8 = 0 ∧ k < pieceOf k + 8 ∨ pieceOf k % 4 = 0 ∧ k < pieceOf k + 4) := by
    interval_cases k <;> decide
  obtain ⟨a, ha, -⟩ := hnoted (pieceOf k) hstart.1
  obtain ⟨b, hb, hs⟩ := hnoted k hk
  have hpage := stackByte_page h ha (w := byteAt esp k) (by unfold byteAt pageSize; omega)
    (by unfold byteAt; omega)
  have hdist : byteAt esp k - byteAt esp (pieceOf k) = k - pieceOf k := by
    unfold byteAt
    omega
  rw [hpage, hdist] at hb
  exact ⟨a, ha, by rw [hs, hb]⟩

/-! ## a copied stack page -/

instance : Decidable (t.Placed st esp k) :=
  decidable_of_iff ((t.stackByte (byteAt esp (pieceOf k))).isSome ∧
      t.seenByte st (byteAt esp k) = (t.stackByte (byteAt esp (pieceOf k))).map
        (· + (k - pieceOf k))) (by
    unfold Placed
    cases t.stackByte (byteAt esp (pieceOf k)) with
    | none => simp
    | some a => simp)

/-- A child of a fork, at 0x2000, with two pages of stack. -/
def forked : Task where
  pageDir := 0x2000
  userStackPageCount := 2
  userStackVaddr i := 0xB0000000 - i * 0x1000
  userStackPhys i := 0x14000 + i * 0x3000

/-- Its pages, which it shares with its parent; but `pte` is what it has at 0xB0000000. -/
def stackMemory (pte : Nat) : Phys where
  mem :=
    setWord (setWord (setWord (setWord (fun _ => 0) 0x2AFC 0x3007) 0x2B00 0x4007) 0x3FFC 0x17205)
    0x4000 pte
  free := []
  refs a := if a = 0x14 ∨ a = 0x17 then 2 else 1
  maxFrameIdx := 64
  panicked := false

theorem stackMemory_entry {pte i : Nat} (hi : i < pteCount) (hne : i ≠ 703 ∧ i ≠ 704) :
    (stackMemory pte).entry 0x2000 i = 0 := by
  have hzero : word (fun _ => 0) (0x2000 + 4 * i) = 0 := rfl
  unfold pteCount at hi
  rw [← hzero]
  refine word_congr fun x hx hx' => ?_
  unfold stackMemory
  dsimp only
  rw [setWord_of_ne _ (by omega), setWord_of_ne _ (by omega), setWord_of_ne _ (by omega),
    setWord_of_ne _ (by omega)]

theorem stackMemory_apart {pte : Nat} (h703 : addr ((stackMemory pte).entry 0x2000 703) = 0x3000)
    (h704 : addr ((stackMemory pte).entry 0x2000 704) = 0x4000)
    (hstack : ∀ k < 16, (forked.seenByte (stackMemory pte) (byteAt 0xB0000800 k)).all
    (0x5000 ≤ ·) = true) :
    ∀ k < 16, ∀ a, forked.seenByte (stackMemory pte) (byteAt 0xB0000800 k) = some a →
      ¬ (stackMemory pte).InTables forked.pageDir a := by
  intro k hk a ha hin
  have habove := hstack k hk
  rw [ha] at habove
  have hle : 0x5000 ≤ a := of_decide_eq_true habove
  have hdir : forked.pageDir = 0x2000 := rfl
  rw [hdir] at hin
  rcases hin with ⟨-, hlt⟩ | ⟨i, hi, hp, -, hlt⟩
  · unfold pageSize at hlt
    omega
  · unfold pageSize at hlt
    by_cases hne : i ≠ 703 ∧ i ≠ 704
    · rw [stackMemory_entry hi hne] at hp
      simp [present] at hp
    · obtain rfl | rfl : i = 703 ∨ i = 704 := by omega
      · omega
      · omega

/-- The trampoline is right until the child has a copy of its own of the page, at 0x20000; from
then on it goes to the page that the parent keeps. -/
theorem trampoline_iff_forked :
    (∀ mem, (∀ a, (stackMemory 0x14205).InTables 0x2000 a → mem a = (stackMemory 0x14205).mem a) →
      forked.Trampolined 0xB0000800 sigsegv { stackMemory 0x14205 with mem := mem }
        { stackMemory 0x14205 with
          mem := (forked.writeSignalTrampoline mem 0xB0000800 sigsegv).2 }) ∧
    ¬ ∀ mem, (∀ a, (stackMemory 0x20007).InTables 0x2000 a → mem a = (stackMemory 0x20007).mem a) →
      forked.Trampolined 0xB0000800 sigsegv { stackMemory 0x20007 with mem := mem }
        { stackMemory 0x20007 with
          mem := (forked.writeSignalTrampoline mem 0xB0000800 sigsegv).2 } := by
  have hal : forked.StackAligned := by
    unfold StackAligned
    decide
  constructor
  · exact (trampoline_iff hal (stackMemory_apart (by decide +kernel) (by decide +kernel)
        (by decide +kernel))).mpr (by decide +kernel)
  · exact fun hall =>
      absurd
      ((trampoline_iff hal
        (stackMemory_apart (by decide +kernel) (by decide +kernel) (by decide +kernel))).mp
      hall 0 (by decide)) (by decide +kernel)

end Task

end Doors
