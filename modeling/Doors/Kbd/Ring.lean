import Mathlib.Algebra.Group.Nat.Defs
import Mathlib.Data.BitVec
import Mathlib.Logic.Function.Basic
import Mathlib.Data.Fintype.Basic
import Doors.Lib.Run

/-!
# Doors.Kbd.Ring

The ring of unread characters (`Kbd::pushChar`, `charAvail`, `getChar` and
`tryReadKey`, `kernel/arch/i386/Kbd.cc`).

The keyboard's interrupt handler pushes in one step.  Everything else runs in
tasks that may be interrupted: a task computes `head_ + 1`, exchanges it for
`head_` and only then writes the character, and a reader tests, computes
`tail_ + 1`, exchanges it and only then reads the character.  A `Machine` keeps
beside the ring what was pushed and what was returned.

`returned_in_order` — with one producer and one consumer at a time, and room for
every push, what is returned is what was pushed, in order.
-/

namespace Doors.Kbd

open Run

def bufSize : Nat := 256

/-- Where a task is in `pushChar`, or in `getChar` or `tryReadKey`. -/
inductive Pc where
  | idle
  | bumping (ch : BitVec 8) (next : Nat)
  | storing (ch : BitVec 8) (slot : Nat)
  | ready
  | taking (next : Nat)
  | loading (slot : Nat)
  deriving DecidableEq

namespace Pc

def pushing : Pc → Bool
  | bumping _ _ | storing _ _ => true
  | _ => false

def reading : Pc → Bool
  | ready | taking _ | loading _ => true
  | _ => false

def holdsSlot : Pc → Bool
  | loading _ => true
  | _ => false

/-- The character of `slot` is still to be written. -/
def storesAt (slot : Nat) : Pc → Bool
  | storing _ i => i = slot
  | _ => false

end Pc

/-- The ring with the tasks that work on it. -/
structure Machine (Task : Type) where
  buffer : Nat → BitVec 8 := fun _ => 0
  head : Nat := 0
  tail : Nat := 0
  pc : Task → Pc := fun _ => .idle
  pushed : List (BitVec 8) := []
  returned : List (BitVec 8) := []

inductive RingOp (Task : Type) where
  /-- The interrupt handler pushes a character. -/
  | press (ch : BitVec 8)
  /-- `pushChar` of a task: `head_ + 1` is computed. -/
  | inject (k : Task) (ch : BitVec 8)
  | bump (k : Task)
  | store (k : Task)
  /-- `head_ != tail_`. -/
  | check (k : Task)
  | fetch (k : Task)
  | take (k : Task)
  | load (k : Task)
  deriving DecidableEq

variable {Task : Type} {s s' : Machine Task} {k : Task} {ch : BitVec 8} {n slot : Nat}

namespace Machine

variable (s : Machine Task)

/-- One step; a step of a task that is elsewhere is an error. -/
def step [DecidableEq Task] (s : Machine Task) : RingOp Task → Except Unit (Machine Task)
  | .press ch =>
      .ok { s with
        buffer := Function.update s.buffer (s.head % bufSize) ch
        head := (s.head + 1) % 2 ^ 32
        pushed := s.pushed ++ [ch] }
  | .inject k ch =>
      match s.pc k with
      | .idle => .ok { s with pc := Function.update s.pc k (.bumping ch ((s.head + 1) % 2 ^ 32)) }
      | _ => .error ()
  | .bump k =>
      match s.pc k with
      | .bumping ch next =>
          .ok
            { s with
              head := next, pc := Function.update s.pc k (.storing ch s.head),
              pushed := s.pushed ++ [ch] }
      | _ => .error ()
  | .store k =>
      match s.pc k with
      | .storing ch slot =>
          .ok
            { s with
              buffer := Function.update s.buffer (slot % bufSize) ch,
              pc := Function.update s.pc k .idle }
      | _ => .error ()
  | .check k =>
      match s.pc k with
      | .idle =>
          .ok { s with pc := Function.update s.pc k (if s.head ≠ s.tail then .ready else .idle) }
      | _ => .error ()
  | .fetch k =>
      match s.pc k with
      | .ready => .ok { s with pc := Function.update s.pc k (.taking ((s.tail + 1) % 2 ^ 32)) }
      | _ => .error ()
  | .take k =>
      match s.pc k with
      | .taking next => .ok { s with tail := next, pc := Function.update s.pc k (.loading s.tail) }
      | _ => .error ()
  | .load k =>
      match s.pc k with
      | .loading slot =>
          .ok
            { s with
              pc := Function.update s.pc k .idle,
              returned := s.returned ++ [s.buffer (slot % bufSize)] }
      | _ => .error ()

/-- `head_ - tail_`. -/
def unread : Nat := (s.head + 2 ^ 32 - s.tail) % 2 ^ 32

/-- There is a slot that is neither unread nor being read. -/
def Room : Prop := s.unread < bufSize ∧ ((∃ k, (s.pc k).holdsSlot) → s.unread + 1 < bufSize)

end Machine

/-- One producer and one consumer at a time, room for every push, and no character is
taken before it was written. -/
def Orderly (s : Machine Task) : RingOp Task → Prop
  | .press _ => s.Room ∧ ∀ k, (s.pc k).pushing = false
  | .inject _ _ => ∀ k, (s.pc k).pushing = false
  | .bump _ => s.Room
  | .check _ => ∀ k, (s.pc k).reading = false
  | .take _ => ∀ k, (s.pc k).storesAt s.tail = false
  | _ => True

instance [Fintype Task] (s : Machine Task) : Decidable s.Room :=
  inferInstanceAs (Decidable (_ ∧ (_ → _)))

instance [Fintype Task] (s : Machine Task) (op : RingOp Task) : Decidable (Orderly s op) := by
  apply @RingOp.casesOn _ _ op <;> intros <;> unfold Orderly <;> infer_instance

/-! ## the invariant -/

/-- The window of the ring on what was pushed: `taken` characters are taken, all of
them returned but the one that is being loaded. -/
structure Window (s : Machine Task) (taken : Nat) : Prop where
  head : s.head = s.pushed.length % 2 ^ 32
  tail : s.tail = taken % 2 ^ 32
  le : taken ≤ s.pushed.length
  room : s.pushed.length ≤ s.returned.length + bufSize
  returned : s.returned = s.pushed.take s.returned.length
  short : s.returned.length ≤ taken
  onePusher : ∀ k k', (s.pc k).pushing = true → (s.pc k').pushing = true → k = k'
  oneReader : ∀ k k', (s.pc k).reading = true → (s.pc k').reading = true → k = k'
  bumping : ∀ k ch next, s.pc k = .bumping ch next → next = (s.pushed.length + 1) % 2 ^ 32
  storing : ∀ k ch slot, s.pc k = .storing ch slot →
    ∃ n, s.pushed.length = n + 1 ∧ slot = n % 2 ^ 32 ∧ s.pushed[n]? = some ch ∧ taken ≤ n
  ready : ∀ k, s.pc k = .ready → taken < s.pushed.length
  taking : ∀ k next, s.pc k = .taking next → next = (taken + 1) % 2 ^ 32 ∧ taken < s.pushed.length
  loading : ∀ k slot, s.pc k = .loading slot →
    slot = s.returned.length % 2 ^ 32 ∧ taken = s.returned.length + 1
  caughtUp : (∀ k, (s.pc k).holdsSlot = false) → taken = s.returned.length
  slots : ∀ n, s.returned.length ≤ n → n < s.pushed.length →
    (n + 1 < s.pushed.length ∨ ∀ k ch slot, s.pc k ≠ .storing ch slot) →
      some (s.buffer (n % bufSize)) = s.pushed[n]?

/-- Before anything was pushed. -/
theorem window_init : Window ({} : Machine Task) 0 := by
  constructor <;> simp [Pc.pushing, Pc.reading]

variable {taken : Nat}

/-- What is unread, in unbounded numbers. -/
theorem Window.unread (hw : Window s taken) : s.unread = s.pushed.length - taken := by
  have hle := hw.le
  have hroom := hw.room
  have hshort := hw.short
  unfold Machine.unread bufSize at *
  rw [hw.head, hw.tail]
  omega

/-- With room there is a slot for one more. -/
theorem Window.fits (hw : Window s taken) (hroom : s.Room) :
    s.pushed.length + 1 ≤ s.returned.length + bufSize := by
  obtain ⟨hfree, hfree'⟩ := hroom
  rw [hw.unread] at hfree hfree'
  have hle := hw.le
  by_cases hload : ∃ k, (s.pc k).holdsSlot = true
  · obtain ⟨k, hk⟩ := hload
    have := hfree' ⟨k, hk⟩
    cases hpc : s.pc k with
    | loading slot =>
        have := (hw.loading k slot hpc).2
        omega
    | _ => simp [hpc, Pc.holdsSlot] at hk
  · have := hw.caughtUp fun k => Bool.eq_false_iff.mpr fun hk => hload ⟨k, hk⟩
    omega

/-! ## every step keeps the window -/

/-- A slot of the window is not the slot behind it. -/
theorem Window.slot_ne (hw : Window s taken)
    (hfits : s.pushed.length + 1 ≤ s.returned.length + bufSize) (hlo : s.returned.length ≤ n)
    (hhi : n < s.pushed.length) : n % bufSize ≠ s.head % bufSize := by
  rw [hw.head]
  unfold bufSize at *
  omega

/-- What was returned is the front of what was pushed. -/
theorem Window.returned_append (hw : Window s taken) (ch : BitVec 8) :
    s.returned = (s.pushed ++ [ch]).take s.returned.length := by
  have hle := hw.le
  have hshort := hw.short
  rw [List.take_append_of_le_length (by omega)]
  exact hw.returned

/-- Who pushes nothing is not about to move the head. -/
theorem not_bumping {p : Pc} {next : Nat} (h : p.pushing = false) : p ≠ .bumping ch next := by
  rintro rfl
  simp [Pc.pushing] at h

/-- Who pushes nothing has nothing to store. -/
theorem not_storing {p : Pc} (h : p.pushing = false) : p ≠ .storing ch slot := by
  rintro rfl
  simp [Pc.pushing] at h

/-- A key is pressed. -/
theorem Window.press (hw : Window s taken) (hroom : s.Room) (hfree : ∀ k, (s.pc k).pushing = false)
    (ch : BitVec 8) :
    Window { s with
      buffer := Function.update s.buffer (s.head % bufSize) ch
      head := (s.head + 1) % 2 ^ 32
      pushed := s.pushed ++ [ch] } taken := by
  have hfits := hw.fits hroom
  have hle := hw.le
  have hlen : (s.pushed ++ [ch]).length = s.pushed.length + 1 := by simp
  refine { hw with
    head := ?_, le := by rw [hlen]; omega, room := by rwa [hlen], returned := hw.returned_append ch,
                   bumping := fun k ch next hpc => ?_,
                   storing := fun k ch slot hpc => ?_,
                   ready := fun k hpc => ?_,
                   taking := fun k next hpc => ?_, slots := fun n hlo hhi _ => ?_ }
  · show (s.head + 1) % 2 ^ 32 = _
    rw [hlen, hw.head]
    omega
  · exact absurd hpc (not_bumping (hfree k))
  · exact absurd hpc (not_storing (hfree k))
  · have := hw.ready k hpc
    rw [hlen]
    omega
  · have := hw.taking k next hpc
    rw [hlen]
    omega
  · rw [hlen] at hhi
    by_cases hn : n = s.pushed.length
    · have hslot : n % bufSize = s.head % bufSize := by
        rw [hw.head, hn]
        unfold bufSize
        omega
      show some (Function.update s.buffer (s.head % bufSize) ch (n % bufSize)) = _
      rw [hslot, Function.update_self, hn]
      simp
    · have hne := hw.slot_ne hfits hlo (by omega)
      show some (Function.update s.buffer (s.head % bufSize) ch (n % bufSize)) = _
      rw [Function.update_of_ne hne, List.getElem?_append_left (by omega)]
      exact hw.slots n hlo (by omega) (.inr fun k ch slot => not_storing (hfree k))

/-- The only task inside `pushChar`. -/
theorem Window.pusher (hw : Window s taken) (hpc : (s.pc k).pushing = true) {k' : Task}
    (hk : k' ≠ k) : (s.pc k').pushing = false := by
  by_contra h
  exact hk (hw.onePusher k' k (by simpa using h) hpc)

/-- The only task that reads. -/
theorem Window.reader (hw : Window s taken) (hpc : (s.pc k).reading = true) {k' : Task}
    (hk : k' ≠ k) : (s.pc k').reading = false := by
  by_contra h
  exact hk (hw.oneReader k' k (by simpa using h) hpc)

section Tasks

variable [DecidableEq Task]

/-- `k` goes on to `p`; every other task stays. -/
def Machine.at (s : Machine Task) (k : Task) (p : Pc) : Machine Task :=
  { s with pc := Function.update s.pc k p }

/-- The task that moves on. -/
theorem at_self (s : Machine Task) (k : Task) (p : Pc) : (s.at k p).pc k = p :=
  Function.update_self ..

/-- The other tasks. -/
theorem at_of_ne {k' : Task} (h : k' ≠ k) (p : Pc) : (s.at k p).pc k' = s.pc k' :=
  Function.update_of_ne h ..

/-- A task that is somewhere now. -/
theorem at_cases {p q : Pc} {k' : Task} (h : (s.at k p).pc k' = q) :
    (k' = k ∧ q = p) ∨ (k' ≠ k ∧ s.pc k' = q) := by
  by_cases hk : k' = k
  · subst hk
    rw [at_self] at h
    exact .inl ⟨rfl, h.symm⟩
  · rw [at_of_ne hk] at h
    exact .inr ⟨hk, h⟩

/-- A task that goes on to a place outside of `pushChar` pushes nothing. -/
theorem pushing_of_at {p : Pc} {k' : Task} (hp : p.pushing = false)
    (h : ((s.at k p).pc k').pushing = true) : (s.pc k').pushing = true := by
  by_cases hk : k' = k
  · rw [hk, at_self, hp] at h
    contradiction
  · rwa [at_of_ne hk] at h

/-- Steps of a task that neither hold a slot nor wait for a store. -/
theorem Window.move (hw : Window s taken) {p : Pc}
    (hpush : p.pushing = true → ∀ k', k' ≠ k → (s.pc k').pushing = false)
    (hread : p.reading = true → ∀ k', k' ≠ k → (s.pc k').reading = false)
    (hbump : ∀ ch next, p = .bumping ch next → next = (s.pushed.length + 1) % 2 ^ 32)
    (hready : p = .ready → taken < s.pushed.length)
    (htake : ∀ next, p = .taking next → next = (taken + 1) % 2 ^ 32 ∧ taken < s.pushed.length)
    (hstore : ∀ ch slot, p ≠ .storing ch slot)
    (hslots : (∀ ch slot, s.pc k ≠ .storing ch slot) ∨
      ∀ n, s.returned.length ≤ n → n < s.pushed.length →
        some (s.buffer (n % bufSize)) = s.pushed[n]?)
    (hload : p.holdsSlot = false ∧ (s.pc k).holdsSlot = false) : Window (s.at k p) taken := by
  refine { hw with
    onePusher := ?_, oneReader := ?_, bumping := ?_, storing := ?_, ready := ?_, taking := ?_,
    loading := ?_,
                   caughtUp := ?_, slots := ?_ }
  · intro k₁ k₂ h₁ h₂
    by_cases hk₁ : k₁ = k
    · by_cases hk₂ : k₂ = k
      · rw [hk₁, hk₂]
      · rw [hk₁, at_self] at h₁
        rw [at_of_ne hk₂, hpush h₁ k₂ hk₂] at h₂
        simp at h₂
    · by_cases hk₂ : k₂ = k
      · rw [hk₂, at_self] at h₂
        rw [at_of_ne hk₁, hpush h₂ k₁ hk₁] at h₁
        simp at h₁
      · rw [at_of_ne hk₁] at h₁
        rw [at_of_ne hk₂] at h₂
        exact hw.onePusher k₁ k₂ h₁ h₂
  · intro k₁ k₂ h₁ h₂
    by_cases hk₁ : k₁ = k
    · by_cases hk₂ : k₂ = k
      · rw [hk₁, hk₂]
      · rw [hk₁, at_self] at h₁
        rw [at_of_ne hk₂, hread h₁ k₂ hk₂] at h₂
        simp at h₂
    · by_cases hk₂ : k₂ = k
      · rw [hk₂, at_self] at h₂
        rw [at_of_ne hk₁, hread h₂ k₁ hk₁] at h₁
        simp at h₁
      · rw [at_of_ne hk₁] at h₁
        rw [at_of_ne hk₂] at h₂
        exact hw.oneReader k₁ k₂ h₁ h₂
  · intro k' ch next h
    rcases at_cases h with ⟨-, h⟩ | ⟨-, h⟩
    · exact hbump ch next h.symm
    · exact hw.bumping k' ch next h
  · intro k' ch slot h
    rcases at_cases h with ⟨-, h⟩ | ⟨-, h⟩
    · exact absurd h.symm (hstore ch slot)
    · exact hw.storing k' ch slot h
  · intro k' h
    rcases at_cases h with ⟨-, h⟩ | ⟨-, h⟩
    · exact hready h.symm
    · exact hw.ready k' h
  · intro k' next h
    rcases at_cases h with ⟨-, h⟩ | ⟨-, h⟩
    · exact htake next h.symm
    · exact hw.taking k' next h
  · intro k' slot h
    rcases at_cases h with ⟨-, h⟩ | ⟨-, h⟩
    · simp [← h, Pc.holdsSlot] at hload
    · exact hw.loading k' slot h
  · intro h
    refine hw.caughtUp fun k' => ?_
    by_cases hk : k' = k
    · rw [hk]
      exact hload.2
    · rw [← at_of_ne hk p]
      exact h k'
  · intro n hlo hhi h
    rcases hslots with hslots | hslots
    · refine hw.slots n hlo hhi (h.imp_right fun hno k' ch slot hpc => ?_)
      by_cases hk : k' = k
      · rw [hk] at hpc
        exact hslots ch slot hpc
      · exact hno k' ch slot (by rwa [at_of_ne hk])
    · exact hslots n hlo hhi

/-- A task begins to push. -/
theorem Window.inject (hw : Window s taken) (hpc : s.pc k = .idle)
    (hfree : ∀ k, (s.pc k).pushing = false) (ch : BitVec 8) :
    Window (s.at k (.bumping ch ((s.head + 1) % 2 ^ 32))) taken := by
  refine hw.move (fun _ k' _ => hfree k') ?_ ?_ ?_ ?_ ?_ (.inl ?_) ?_
  · simp [Pc.reading]
  · intro ch' next h
    cases h
    rw [hw.head]
    omega
  · simp
  · simp
  · simp
  · simp [hpc]
  · simp [Pc.holdsSlot, hpc]

/-- A task looks whether there is a character. -/
theorem Window.check (hw : Window s taken) (hpc : s.pc k = .idle)
    (hfree : ∀ k, (s.pc k).reading = false) :
    Window (s.at k (if s.head ≠ s.tail then .ready else .idle)) taken := by
  have hle := hw.le
  by_cases hne : s.head ≠ s.tail
  · rw [if_pos hne]
    refine hw.move ?_ (fun _ k' _ => hfree k') ?_ ?_ ?_ ?_ (.inl ?_) ?_
    · simp [Pc.pushing]
    · simp
    · intro _
      rw [hw.head, hw.tail] at hne
      by_contra hge
      have heq : s.pushed.length = taken := by omega
      rw [heq] at hne
      exact hne rfl
    · simp
    · simp
    · simp [hpc]
    · simp [Pc.holdsSlot, hpc]
  · rw [if_neg hne]
    refine hw.move ?_ ?_ ?_ ?_ ?_ ?_ (.inl ?_) ?_
    · simp [Pc.pushing]
    · simp [Pc.reading]
    · simp
    · simp
    · simp
    · simp
    · simp [hpc]
    · simp [Pc.holdsSlot, hpc]

/-- A task reads the tail. -/
theorem Window.fetch (hw : Window s taken) (hpc : s.pc k = .ready) :
    Window (s.at k (.taking ((s.tail + 1) % 2 ^ 32))) taken := by
  refine hw.move ?_ ?_ ?_ ?_ ?_ ?_ (.inl ?_) ?_
  · simp [Pc.pushing]
  · intro _ k' hk
    by_contra hr
    exact hk (hw.oneReader k' k (by simpa using hr) (by simp [hpc, Pc.reading]))
  · simp
  · simp
  · intro next h
    cases h
    rw [hw.tail]
    exact ⟨by omega, hw.ready k hpc⟩
  · simp
  · simp [hpc]
  · simp [Pc.holdsSlot, hpc]

/-- The character is written: every slot of the window holds its character. -/
theorem Window.store (hw : Window s taken) (hpc : s.pc k = .storing ch slot) :
    Window ({ s with buffer := Function.update s.buffer (slot % bufSize) ch }.at k .idle)
      taken := by
  obtain ⟨m, hm, hslot, hch, -⟩ := hw.storing k ch slot hpc
  have hroom := hw.room
  have hall : ∀ n, s.returned.length ≤ n → n < s.pushed.length →
      some (Function.update s.buffer (slot % bufSize) ch (n % bufSize)) = s.pushed[n]? := by
    intro n hlo hhi
    by_cases hn : n = m
    · have heq : n % bufSize = slot % bufSize := by
        rw [hslot, hn]
        unfold bufSize
        omega
      rw [heq, Function.update_self, hn, hch]
    · have hne : n % bufSize ≠ slot % bufSize := by
        rw [hslot]
        unfold bufSize at *
        omega
      rw [Function.update_of_ne hne]
      exact hw.slots n hlo hhi (.inl (by omega))
  have hw' : Window { s with buffer := Function.update s.buffer (slot % bufSize) ch } taken :=
    { hw with slots := fun n hlo hhi _ => hall n hlo hhi }
  refine hw'.move ?_ ?_ ?_ ?_ ?_ ?_ (.inr hall) ?_
  · simp [Pc.pushing]
  · simp [Pc.reading]
  · simp
  · simp
  · simp
  · simp
  · simp [Pc.holdsSlot, hpc]

/-- One task takes the only place in `pushChar`, or among the readers. -/
theorem only_one {f : Pc → Bool} {p : Pc} (hf : ∀ k', k' ≠ k → f (s.pc k') = false) (k₁ k₂ : Task)
    (h₁ : f ((s.at k p).pc k₁) = true)
    (h₂ : f ((s.at k p).pc k₂) = true) : k₁ = k₂ := by
  have hk : ∀ k', f ((s.at k p).pc k') = true → k' = k := by
    intro k' h
    by_contra hne
    rw [at_of_ne hne, hf k' hne] at h
    simp at h
  rw [hk k₁ h₁, hk k₂ h₂]

/-- A task moves the head. -/
theorem Window.bump (hw : Window s taken) (hroom : s.Room) (hpc : s.pc k = .bumping ch n) :
    Window ({ s with head := n, pushed := s.pushed ++ [ch] }.at k (.storing ch s.head)) taken := by
  have hothers : ∀ k', k' ≠ k → (s.pc k').pushing = false :=
    fun k' => hw.pusher (by simp [hpc, Pc.pushing])
  have hfits := hw.fits hroom
  have hle := hw.le
  have hlen : (s.pushed ++ [ch]).length = s.pushed.length + 1 := by simp
  constructor
  · show n = _
    rw [hw.bumping k ch n hpc, ← hlen]
    rfl
  · exact hw.tail
  · show taken ≤ (s.pushed ++ [ch]).length
    omega
  · show (s.pushed ++ [ch]).length ≤ _
    rwa [hlen]
  · exact hw.returned_append ch
  · exact hw.short
  · exact only_one hothers
  · intro k₁ k₂ h₁ h₂
    have hread :
      ∀ k',
      ((Machine.at { s with head := n, pushed := s.pushed ++ [ch] } k (.storing ch s.head)).pc
      k').reading = true →
        (s.pc k').reading = true := by
      intro k' h
      by_cases hk : k' = k
      · rw [hk, at_self] at h
        simp [Pc.reading] at h
      · rwa [at_of_ne hk] at h
    exact hw.oneReader k₁ k₂ (hread k₁ h₁) (hread k₂ h₂)
  · intro k' ch' next h
    rcases at_cases h with ⟨-, h⟩ | ⟨hne, h⟩
    · cases h
    · exact absurd h (not_bumping (hothers k' hne))
  · intro k' ch' slot h
    rcases at_cases h with ⟨-, h⟩ | ⟨hne, h⟩
    · cases h
      exact ⟨s.pushed.length, hlen, hw.head, by simp [Machine.at], hle⟩
    · exact absurd h (not_storing (hothers k' hne))
  · intro k' h
    rcases at_cases h with ⟨-, h⟩ | ⟨-, h⟩
    · cases h
    · have := hw.ready k' h
      show taken < (s.pushed ++ [ch]).length
      omega
  · intro k' next h
    rcases at_cases h with ⟨-, h⟩ | ⟨-, h⟩
    · cases h
    · obtain ⟨hnext, hlt⟩ := hw.taking k' next h
      exact ⟨hnext, by show taken < (s.pushed ++ [ch]).length; omega⟩
  · intro k' slot h
    rcases at_cases h with ⟨-, h⟩ | ⟨-, h⟩
    · cases h
    · exact hw.loading k' slot h
  · intro h
    refine hw.caughtUp fun k' => ?_
    by_cases hk : k' = k
    · simp [hk, hpc, Pc.holdsSlot]
    · have := h k'
      rwa [at_of_ne hk] at this
  · intro m hlo hhi h
    have hhi : m < s.pushed.length + 1 := by rwa [← hlen]
    have hm : m < s.pushed.length := by
      rcases h with h | h
      · have h : m + 1 < (s.pushed ++ [ch]).length := h
        omega
      · exact absurd (at_self _ _ _) (h k ch s.head)
    show some (s.buffer (m % bufSize)) = (s.pushed ++ [ch])[m]?
    rw [List.getElem?_append_left hm]
    refine hw.slots m hlo hm (.inr fun k' ch' slot => ?_)
    by_cases hk : k' = k
    · simp [hk, hpc]
    · exact not_storing (hothers k' hk)

/-- A task moves the tail. -/
theorem Window.take (hw : Window s taken) (hpc : s.pc k = .taking n)
    (hthere : ∀ k, (s.pc k).storesAt s.tail = false) :
    Window ({ s with tail := n }.at k (.loading s.tail)) (taken + 1) := by
  have hothers : ∀ k', k' ≠ k → (s.pc k').reading = false :=
    fun k' => hw.reader (by simp [hpc, Pc.reading])
  obtain ⟨hnext, hlt⟩ := hw.taking k n hpc
  have hnone : ∀ k', (s.pc k').holdsSlot = false := by
    intro k'
    by_cases hk : k' = k
    · simp [hk, hpc, Pc.holdsSlot]
    · have := hothers k' hk
      cases h : s.pc k' with
      | loading slot => simp [h, Pc.reading] at this
      | _ => rfl
  have hcaught := hw.caughtUp hnone
  constructor
  · exact hw.head
  · exact hnext
  · exact hlt
  · exact hw.room
  · exact hw.returned
  · show s.returned.length ≤ taken + 1
    omega
  · exact fun k₁ k₂ h₁ h₂ =>
      hw.onePusher k₁ k₂ (pushing_of_at rfl h₁) (pushing_of_at rfl h₂)
  · exact only_one hothers
  · intro k' ch next h
    rcases at_cases h with ⟨-, h⟩ | ⟨-, h⟩
    · cases h
    · exact hw.bumping k' ch next h
  · intro k' ch slot h
    rcases at_cases h with ⟨-, h⟩ | ⟨-, h⟩
    · cases h
    · obtain ⟨m, hm, hslot, hch, hle⟩ := hw.storing k' ch slot h
      refine ⟨m, hm, hslot, hch, ?_⟩
      -- a character that is not written yet is not the one that is taken
      have hne : m ≠ taken := by
        rintro rfl
        have := hthere k'
        simp [show s.pc k' = .storing ch slot from h, Pc.storesAt, hslot, hw.tail] at this
      omega
  · intro k' h
    rcases at_cases h with ⟨-, h⟩ | ⟨hne, h⟩
    · cases h
    · have := hothers k' hne
      simp [show s.pc k' = .ready from h, Pc.reading] at this
  · intro k' next h
    rcases at_cases h with ⟨-, h⟩ | ⟨hne, h⟩
    · cases h
    · have := hothers k' hne
      simp [show s.pc k' = .taking next from h, Pc.reading] at this
  · intro k' slot h
    rcases at_cases h with ⟨-, h⟩ | ⟨hne, h⟩
    · cases h
      exact ⟨by rw [hw.tail, hcaught]; rfl, by rw [hcaught]; rfl⟩
    · have := hothers k' hne
      simp [show s.pc k' = .loading slot from h, Pc.reading] at this
  · intro h
    have := h k
    rw [at_self] at this
    simp [Pc.holdsSlot] at this
  · intro m hlo hhi h
    refine hw.slots m hlo hhi (h.imp_right fun hno k' ch slot hst => ?_)
    by_cases hk : k' = k
    · simp [hk, hpc] at hst
    · exact hno k' ch slot (by rwa [at_of_ne hk])

/-- A task reads its character. -/
theorem Window.load (hw : Window s taken) (hpc : s.pc k = .loading slot) :
    Window ({ s with returned := s.returned ++ [s.buffer (slot % bufSize)] }.at k .idle) taken := by
  have hothers : ∀ k', k' ≠ k → (s.pc k').reading = false :=
    fun k' => hw.reader (by simp [hpc, Pc.reading])
  obtain ⟨hslot, htaken⟩ := hw.loading k slot hpc
  have hle := hw.le
  have hroom := hw.room
  have hlen : (s.returned ++ [s.buffer (slot % bufSize)]).length = s.returned.length + 1 := by simp
  -- the slot holds the next character: a later one may still be unwritten
  have hchar : some (s.buffer (slot % bufSize)) = s.pushed[s.returned.length]? := by
    have hidx : slot % bufSize = s.returned.length % bufSize := by
      rw [hslot]
      unfold bufSize
      omega
    rw [hidx]
    refine hw.slots _ (Nat.le_refl _) (by omega) ?_
    by_cases hst : ∃ k ch slot, s.pc k = .storing ch slot
    · obtain ⟨k', ch, slot', h⟩ := hst
      obtain ⟨m, hm, -, -, hge⟩ := hw.storing k' ch slot' h
      exact .inl (by omega)
    · exact .inr fun k' ch slot' h => hst ⟨k', ch, slot', h⟩
  have hkeep :
    ∀ {k' : Task} {q : Pc},
    (Machine.at { s with returned := s.returned ++ [s.buffer (slot % bufSize)] } k .idle).pc k' =
    q →
      q ≠ .idle → s.pc k' = q := by
    intro k' q h hq
    rcases at_cases h with ⟨-, h⟩ | ⟨-, h⟩
    · exact absurd h hq
    · exact h
  constructor
  · exact hw.head
  · exact hw.tail
  · exact hle
  · show s.pushed.length ≤ (s.returned ++ [s.buffer (slot % bufSize)]).length + bufSize
    omega
  · show s.returned ++ [s.buffer (slot % bufSize)] =
      s.pushed.take (s.returned ++ [s.buffer (slot % bufSize)]).length
    rw [hlen, List.take_add_one, ← hw.returned, ← hchar]
    rfl
  · show (s.returned ++ [s.buffer (slot % bufSize)]).length ≤ taken
    omega
  · exact fun k₁ k₂ h₁ h₂ =>
      hw.onePusher k₁ k₂ (pushing_of_at rfl h₁) (pushing_of_at rfl h₂)
  · exact only_one hothers
  · exact fun k' ch next h => hw.bumping k' ch next (hkeep h (by simp))
  · exact fun k' ch slot h => hw.storing k' ch slot (hkeep h (by simp))
  · exact fun k' h => hw.ready k' (hkeep h (by simp))
  · exact fun k' next h => hw.taking k' next (hkeep h (by simp))
  · intro k' slot' h
    rcases at_cases h with ⟨-, h⟩ | ⟨hne, h⟩
    · cases h
    · have := hothers k' hne
      simp [show s.pc k' = .loading slot' from h, Pc.reading] at this
  · intro _
    show taken = (s.returned ++ [s.buffer (slot % bufSize)]).length
    omega
  · intro m hlo hhi h
    have hlo : s.returned.length + 1 ≤ m := by rwa [← hlen]
    refine hw.slots m (by omega) hhi (h.imp_right fun hno k' ch slot' hst => ?_)
    by_cases hk : k' = k
    · simp [hk, hpc] at hst
    · exact hno k' ch slot' (by rwa [at_of_ne hk])

/-- **Every orderly step** keeps the window. -/
theorem Window.step {op : RingOp Task} (hw : Window s taken) (hop : Orderly s op)
    (hstep : s.step op = .ok s') :
    ∃ taken', Window s' taken' := by
  cases op with
  | press ch =>
      obtain rfl := Except.ok.inj hstep
      exact ⟨_, hw.press hop.1 hop.2 ch⟩
  | inject k ch =>
      rw [Machine.step] at hstep
      split at hstep
      · next hpc =>
          obtain rfl := Except.ok.inj hstep
          exact ⟨_, hw.inject hpc hop ch⟩
      · simp at hstep
  | bump k =>
      rw [Machine.step] at hstep
      split at hstep
      · next hpc =>
          obtain rfl := Except.ok.inj hstep
          exact ⟨_, hw.bump hop hpc⟩
      · simp at hstep
  | store k =>
      rw [Machine.step] at hstep
      split at hstep
      · next hpc =>
          obtain rfl := Except.ok.inj hstep
          exact ⟨_, hw.store hpc⟩
      · simp at hstep
  | check k =>
      rw [Machine.step] at hstep
      split at hstep
      · next hpc =>
          obtain rfl := Except.ok.inj hstep
          exact ⟨_, hw.check hpc hop⟩
      · simp at hstep
  | fetch k =>
      rw [Machine.step] at hstep
      split at hstep
      · next hpc =>
          obtain rfl := Except.ok.inj hstep
          exact ⟨_, hw.fetch hpc⟩
      · simp at hstep
  | take k =>
      rw [Machine.step] at hstep
      split at hstep
      · next hpc =>
          obtain rfl := Except.ok.inj hstep
          exact ⟨_, hw.take hpc hop⟩
      · simp at hstep
  | load k =>
      rw [Machine.step] at hstep
      split at hstep
      · next hpc =>
          obtain rfl := Except.ok.inj hstep
          exact ⟨_, hw.load hpc⟩
      · simp at hstep

/-- **Keyboard input is returned in order** and without repetition, in every run whose
steps are orderly. -/
theorem returned_in_order {tr : List (RingOp Task)}
    (hrun : Reach Machine.step Orderly ({} : Machine Task) tr s) :
    s.returned.Sublist s.pushed := by
  have hwindow : ∃ taken, Window s taken :=
    Reach.inv (P := fun s => ∃ taken, Window s taken) ⟨0, window_init⟩
      (fun _ _ _ ⟨_, hw⟩ hop hstep => hw.step hop hstep) hrun
  obtain ⟨taken, hw⟩ := hwindow
  rw [hw.returned]
  exact List.take_sublist ..

end Tasks

/-- Two characters, one from a task, and a reader that gets the first. -/
theorem returned_in_order_twoPushes :
    ∃ (tr : List (RingOp (Fin 2))) (s : Machine (Fin 2)), Reach Machine.step Orderly {} tr s ∧
      s.returned = [97] ∧
      s.returned.Sublist s.pushed := by
  have hrun : Reach Machine.step Orderly ({} : Machine (Fin 2))
      [.press 97, .inject 1 98, .check 0, .bump 1, .fetch 0, .take 0, .store 1, .load 0] _ :=
        Reach.of_follow (by decide)
  exact ⟨_, _, hrun, rfl, returned_in_order hrun⟩

/-- 257 characters before the first is read: the last one has the slot of the first. -/
theorem returned_out_of_order :
    ¬ ∀ (tr : List (RingOp (Fin 1))) (s : Machine (Fin 1)), Reach Machine.step Free {} tr s →
      s.returned.Sublist s.pushed := by
  intro hall
  have hsub := hall _ _ (show Reach Machine.step Free ({} : Machine (Fin 1))
    (.press 0 :: (List.replicate 255 (.press 1) ++
        [.press 2, .check 0, .fetch 0, .take 0, .load 0, .check 0, .fetch 0, .take 0, .load 0])) _
      from Reach.of_follow (by decide +kernel))
  revert hsub
  decide +kernel

end Doors.Kbd
