import Mathlib.Data.Fintype.Card
import Doors.Kbd.Ring

/-!
# Doors.Kbd.Available

The semaphore of the keyboard (`Kbd::available_`) and its readers, over the ring of
`Doors.Kbd.Ring`.

`pushChar` signals once for every character.  `SYS_READ` waits once and then drains
what is there; `getChar`, `tryReadKey` and `readLine` take characters without waiting.
`INT 0x80` is a trap gate, so that a tick or a key press may come in between any two
steps of a task: the test, the exchange of an index and the access of a slot are steps
of their own, as in the ring, and so are the signal behind an injected character, the
wait and the test of the drain loop.

`counts_unread` — the count is the number of unread characters as long as only
`SYS_READ` takes characters, one for each wait.
-/

namespace Doors.Kbd

open Run

/-- Where a task is in `handleRead`; `count` is the length of its buffer and `n` what
it has read.  Inside the loop's call of `getChar` it is `draining`. -/
inductive ReadPhase where
  | idle
  | waiting (count : Nat)
  | reading (count n : Nat)
  | draining (count n : Nat)
  deriving DecidableEq

/-- The ring, the semaphore and the tasks in `SYS_READ`. -/
structure Keyboard (Task : Type) where
  ring : Machine Task := {}
  count : Nat := 0
  waiters : List Task := []
  phase : Task → ReadPhase := fun _ => .idle
  /-- The task has written a character and has not signalled yet. -/
  owing : Task → Bool := fun _ => false
  /-- What the calls of `SYS_READ` returned. -/
  results : List Nat := []
  /-- How many characters were unread when a call of `SYS_READ` went to sleep. -/
  slept : List Nat := []

inductive KeyboardOp (Task : Type) where
  /-- A part of `pushChar` (from the interrupt handler with its signal), of `getChar` or
  of `tryReadKey`. -/
  | ring (op : RingOp Task)
  /-- The signal of a task in `pushChar`. -/
  | signal (k : Task)
  /-- `handleRead` up to its loop. -/
  | read (k : Task) (count : Nat)
  /-- `n < count && Kbd::charAvail()`. -/
  | look (k : Task)
  deriving DecidableEq

namespace Keyboard

variable {Task : Type} [DecidableEq Task]

/-- `Semaphore::signal`: the first waiter goes on, or the count grows. -/
def signal (s : Keyboard Task) : Keyboard Task :=
  match s.waiters with
  | [] => { s with count := s.count + 1 }
  | k :: waiters =>
      match s.phase k with
      | .waiting count => { s with waiters, phase := Function.update s.phase k (.reading count 0) }
      | _ => { s with waiters }

/-- `Semaphore::wait` at the start of `handleRead`. -/
def wait (s : Keyboard Task) (k : Task) (count : Nat) : Keyboard Task :=
  if s.count > 0 then
    { s with count := s.count - 1, phase := Function.update s.phase k (.reading count 0) }
  else
    { s with
      waiters := s.waiters ++ [k]
      phase := Function.update s.phase k (.waiting count)
      slept := s.slept ++ [s.ring.unread] }

/-- The task may call `pushChar`. -/
def outside (s : Keyboard Task) (k : Task) : Bool := s.phase k = .idle && !s.owing k

/-- The task may call `getChar`: outside `SYS_READ`, or from its loop. -/
def mayRead (s : Keyboard Task) (k : Task) : Bool :=
  match s.phase k with
  | .idle => !s.owing k
  | .draining _ _ => true
  | _ => false

/-- What a step of the ring means for the task that takes it. -/
def ringStep (s : Keyboard Task) (op : RingOp Task) : Except Unit (Keyboard Task) := do
  let ring ← s.ring.step op
  match op with
  | .press _ => .ok { s with ring }.signal
  | .inject k _ => if s.outside k then .ok { s with ring } else .error ()
  | .store k => .ok { s with ring, owing := Function.update s.owing k true }
  | .check k => if s.mayRead k then .ok { s with ring } else .error ()
  | .load k =>
      match s.phase k with
      | .draining count n =>
          .ok { s with ring, phase := Function.update s.phase k (.reading count (n + 1)) }
      | _ => .ok { s with ring }
  | .bump _ | .fetch _ | .take _ => .ok { s with ring }

/-- One step; a step of a task that is elsewhere is an error. -/
def step (s : Keyboard Task) : KeyboardOp Task → Except Unit (Keyboard Task)
  | .ring op => s.ringStep op
  | .signal k =>
      if s.owing k then .ok { s with owing := Function.update s.owing k false }.signal
      else .error ()
  | .read k count =>
      if s.outside k ∧ s.ring.pc k = .idle then .ok (s.wait k count) else .error ()
  | .look k =>
      match s.phase k with
      | .reading count n =>
          if n < count ∧ s.ring.head ≠ s.ring.tail then
            .ok { s with phase := Function.update s.phase k (.draining count n) }
          else
            .ok { s with phase := Function.update s.phase k .idle, results := s.results ++ [n] }
      | _ => .error ()

end Keyboard

variable {Task : Type} {s s' : Keyboard Task} {k : Task} {ch : BitVec 8} {n count : Nat}

/-- The task has computed `head_ + 1` and not exchanged it yet. -/
def Pc.bumps : Pc → Bool
  | bumping _ _ => true
  | _ => false

/-- The task has computed `tail_ + 1` and not exchanged it yet. -/
def Pc.takes : Pc → Bool
  | taking _ => true
  | _ => false

/-- The task has moved `head_` and not written its character yet. -/
def Pc.stores : Pc → Bool
  | storing _ _ => true
  | _ => false

/-- The task has passed its wait and has taken nothing yet. -/
def reserved (s : Keyboard Task) (k : Task) : Bool :=
  match s.phase k with
  | .reading _ 0 => true
  | .draining _ 0 => !(s.ring.pc k).holdsSlot
  | _ => false

/-- The task has moved `head_` and has not signalled yet. -/
def unsignalled (s : Keyboard Task) (k : Task) : Bool := (s.ring.pc k).stores || s.owing k

/-- No character is on its way: none is reserved for a task behind its wait, and each one
in the ring has been signalled. -/
def Settled (s : Keyboard Task) : Prop := ∀ k, reserved s k = false ∧ unsignalled s k = false

/-- The loop of `handleRead` does not go round again: the task has taken nothing yet, or
its buffer is full, or the ring is empty. -/
def takesOne (s : Keyboard Task) (k : Task) : Bool :=
  match s.phase k with
  | .reading count n => n = 0 || count ≤ n || s.ring.head = s.ring.tail
  | _ => true

/-- What the steps are about: at most 256 characters are unread, and buffers have room. -/
def Bounded (s : Keyboard Task) : KeyboardOp Task → Prop
  | .ring (.press _) | .ring (.bump _) => s.ring.unread < bufSize
  | .read _ count => 1 ≤ count
  | _ => True

/-- Only `SYS_READ` takes characters, one for each wait; a task enters it when no character
is on its way; and no index is exchanged while another exchange of it is under way. -/
def OnePerWait (s : Keyboard Task) : KeyboardOp Task → Prop
  | .ring (.press _) => s.ring.unread < bufSize ∧ ∀ k, (s.ring.pc k).bumps = false
  | .ring (.inject _ _) => ∀ k, (s.ring.pc k).bumps = false
  | .ring (.bump _) => s.ring.unread < bufSize
  | .ring (.check k) => s.phase k = .idle → s.ring.head = s.ring.tail
  | .ring (.fetch _) => ∀ k, (s.ring.pc k).takes = false
  | .read _ count => 1 ≤ count ∧ Settled s
  | .look k => takesOne s k = true
  | _ => True

instance [Fintype Task] (s : Keyboard Task) : Decidable (Settled s) :=
  inferInstanceAs (Decidable (∀ _, _ ∧ _))

instance (s : Keyboard Task) (op : KeyboardOp Task) : Decidable (Bounded s op) := by
  apply @KeyboardOp.casesOn _ _ op
  · intro op
    apply @RingOp.casesOn _ _ op <;> intros <;> unfold Bounded <;> infer_instance
  all_goals intros; unfold Bounded; infer_instance

instance [Fintype Task] (s : Keyboard Task) (op : KeyboardOp Task) :
    Decidable (OnePerWait s op) := by
  apply @KeyboardOp.casesOn _ _ op
  · intro op
    apply @RingOp.casesOn _ _ op <;> intros <;> unfold OnePerWait <;> infer_instance
  all_goals intros; unfold OnePerWait; infer_instance

/-- **The semaphore counts the unread characters**, when none of them is on its way; every
call of `SYS_READ` returned something, and none went to sleep while one was unread. -/
structure Counts (s : Keyboard Task) : Prop where
  count : Settled s → s.count = s.ring.unread
  results : ∀ n ∈ s.results, 1 ≤ n
  slept : ∀ n ∈ s.slept, n = 0

/-! ## the invariant -/

section Tally

variable [Fintype Task]

/-- How many tasks are `f`. -/
def tally (f : Task → Bool) : Nat := (Finset.univ.filter fun k => f k = true).card

theorem tally_zero {f : Task → Bool} : tally f = 0 ↔ ∀ k, f k = false := by
  simp [tally, Finset.filter_eq_empty_iff]

variable [DecidableEq Task]

/-- One task less, or none. -/
theorem tally_eq (f : Task → Bool) (k : Task) :
    tally f = ((Finset.univ.erase k).filter fun j => f j = true).card + (f k).toNat := by
  have hsplit : (Finset.univ : Finset Task) = insert k (Finset.univ.erase k) :=
    (Finset.insert_erase (Finset.mem_univ k)).symm
  unfold tally
  conv_lhs => rw [hsplit, Finset.filter_insert]
  split
  · next hk => rw [Finset.card_insert_of_notMem (by simp), hk, Bool.toNat_true]
  · next hk => rw [Bool.eq_false_iff.mpr hk, Bool.toNat_false, Nat.add_zero]

/-- A step that changes one task. -/
theorem tally_change {f g : Task → Bool} (k : Task) (h : ∀ j, j ≠ k → g j = f j) :
    tally g + (f k).toNat = tally f + (g k).toNat := by
  have hsame : (Finset.univ.erase k).filter (fun j => g j = true) =
      (Finset.univ.erase k).filter fun j => f j = true := by
    refine Finset.filter_congr fun j hj => ?_
    rw [h j (Finset.ne_of_mem_erase hj)]
  rw [tally_eq g k, tally_eq f k, hsame]
  omega

/-- A step after which one task more is `f`. -/
theorem tally_succ {f g : Task → Bool} (k : Task) (h : ∀ j, j ≠ k → g j = f j)
    (hold : f k = false) (hnew : g k = true) : tally g = tally f + 1 := by
  have hchange := tally_change k h
  rw [hold, hnew] at hchange
  exact hchange

end Tally

/-- What orderly steps keep of the indices of the ring. -/
structure Indexed (s : Machine Task) : Prop where
  head : s.head < 2 ^ 32
  tail : s.tail < 2 ^ 32
  unread : s.unread ≤ bufSize
  bumping : ∀ k ch next, s.pc k = .bumping ch next → next = (s.head + 1) % 2 ^ 32
  taking : ∀ k next, s.pc k = .taking next → next = (s.tail + 1) % 2 ^ 32
  oneBump : ∀ k k', (s.pc k).bumps = true → (s.pc k').bumps = true → k = k'
  oneTake : ∀ k k', (s.pc k).takes = true → (s.pc k').takes = true → k = k'

/-- Which parts of the ring's code a task can be in. -/
structure Placed (s : Keyboard Task) (k : Task) : Prop where
  pushing : (s.ring.pc k).pushing = true → s.phase k = .idle
  owing : s.owing k = true → s.phase k = .idle ∧ s.ring.pc k = .idle
  reading : (s.ring.pc k).reading = true → ∃ count, s.phase k = .draining count 0
  room : ∀ count n, s.phase k = .reading count n → 1 ≤ count
  first : ∀ count n, s.phase k = .draining count n → n = 0 ∧ 1 ≤ count

section Tasks

variable [Fintype Task]

/-- What orderly steps keep: every unread character is counted, reserved for a task, or
about to be signalled.  `d` of them are signalled in the same step. -/
structure Balanced (s : Keyboard Task) (d : Nat) : Prop where
  indexed : Indexed s.ring
  placed : ∀ k, Placed s k
  sum : s.count + tally (reserved s) + tally (unsignalled s) + d = s.ring.unread
  none : s.waiters ≠ [] → s.count = 0
  waiting : ∀ k ∈ s.waiters, ∃ count, 1 ≤ count ∧ s.phase k = .waiting count
  nodup : s.waiters.Nodup
  results : ∀ n ∈ s.results, 1 ≤ n
  slept : ∀ n ∈ s.slept, n = 0

variable {d d' : Nat}

theorem balanced_init : Balanced ({} : Keyboard Task) 0 where
  indexed := by constructor <;> simp [Machine.unread, Pc.bumps, Pc.takes]
  placed k := by constructor <;> simp [Pc.pushing, Pc.reading]
  sum := by
    have hreserved : tally (reserved ({} : Keyboard Task)) = 0 := tally_zero.mpr fun _ => rfl
    have hunsignalled : tally (unsignalled ({} : Keyboard Task)) = 0 := tally_zero.mpr fun _ => rfl
    rw [hreserved, hunsignalled]
    simp [Machine.unread]
  none h := absurd rfl h
  waiting := by simp
  nodup := List.nodup_nil
  results := by simp
  slept := by simp

omit [Fintype Task] in
/-- A task that a step leaves alone. -/
theorem Placed.congr (h : Placed s k) (hphase : s'.phase k = s.phase k)
    (hpc : s'.ring.pc k = s.ring.pc k) (howing : s'.owing k = s.owing k) : Placed s' k := by
  obtain ⟨h₁, h₂, h₃, h₄, h₅⟩ := h
  rw [← hphase, ← hpc] at h₁ h₃
  rw [← hphase, ← hpc, ← howing] at h₂
  rw [← hphase] at h₄ h₅
  exact ⟨h₁, h₂, h₃, h₄, h₅⟩

/-- A task that is let through has a character. -/
theorem Balanced.unread_pos (hb : Balanced s d) (hk : reserved s k = true) : 0 < s.ring.unread := by
  have hsum := hb.sum
  have hpos : tally (reserved s) ≠ 0 := fun h => by simp [tally_zero.mp h k] at hk
  omega

omit [Fintype Task] in
/-- The ring is empty exactly when nothing is unread. -/
theorem Indexed.unread_pos {r : Machine Task} (h : Indexed r) : 0 < r.unread ↔ r.head ≠ r.tail := by
  have hhead := h.head
  have htail := h.tail
  unfold Machine.unread
  omega

variable [DecidableEq Task]

/-- A step that changes one task, which is not asleep. -/
theorem Balanced.change (hb : Balanced s d) (k : Task)
    (hawake : ∀ count, s.phase k ≠ .waiting count)
    (hother : ∀ j, j ≠ k →
      s'.phase j = s.phase j ∧ s'.ring.pc j = s.ring.pc j ∧ s'.owing j = s.owing j)
    (hindexed : Indexed s'.ring) (hplaced : Placed s' k)
    (hsum : s'.count + (reserved s' k).toNat + (unsignalled s' k).toNat + d' + s.ring.unread =
      s.count + (reserved s k).toNat + (unsignalled s k).toNat + d + s'.ring.unread)
    (hcount : s'.count ≤ s.count) (hwaiters : s'.waiters = s.waiters)
    (hresults : ∀ n ∈ s'.results, 1 ≤ n) (hslept : s'.slept = s.slept) : Balanced s' d' := by
  have hreserved := tally_change (f := reserved s) (g := reserved s') k fun j hj => by
    obtain ⟨hphase, hpc, -⟩ := hother j hj
    unfold reserved
    rw [hphase, hpc]
  have hunsignalled := tally_change (f := unsignalled s) (g := unsignalled s') k fun j hj => by
    obtain ⟨-, hpc, howing⟩ := hother j hj
    unfold unsignalled
    rw [hpc, howing]
  constructor
  · exact hindexed
  · intro j
    by_cases hj : j = k
    · rw [hj]
      exact hplaced
    · obtain ⟨hphase, hpc, howing⟩ := hother j hj
      exact (hb.placed j).congr hphase hpc howing
  · have := hb.sum
    omega
  · intro h
    have := hb.none (hwaiters ▸ h)
    omega
  · intro j hj
    rw [hwaiters] at hj
    obtain ⟨count, hcount, hphase⟩ := hb.waiting j hj
    have hne : j ≠ k := by
      rintro rfl
      exact hawake count hphase
    exact ⟨count, hcount, (hother j hne).1.trans hphase⟩
  · rw [hwaiters]
    exact hb.nodup
  · exact hresults
  · rw [hslept]
    exact hb.slept

/-- A character is signalled. -/
theorem Balanced.signal (hb : Balanced s 1) : Balanced s.signal 0 := by
  have hsum := hb.sum
  unfold Keyboard.signal
  split
  · next hnil =>
      refine { hb with placed := fun k => (hb.placed k).congr rfl rfl rfl, sum := ?_,
                       none := fun h => absurd hnil h }
      show s.count + 1 + tally (reserved s) + tally (unsignalled s) + 0 = s.ring.unread
      omega
  · next k rest hw =>
      obtain ⟨count, hcount, hk⟩ := hb.waiting k (by simp [hw])
      have hzero := hb.none (by simp [hw])
      obtain ⟨hnotin, hnodup⟩ := List.nodup_cons.mp (hw ▸ hb.nodup)
      obtain ⟨hpushing, howing, hreading, -, -⟩ := hb.placed k
      simp only [hk] at hpushing howing hreading ⊢
      have hother : ∀ j, j ≠ k → Function.update s.phase k (.reading count 0) j = s.phase j :=
        fun j hj => Function.update_of_ne hj ..
      have hself : Function.update s.phase k (.reading count 0) k = .reading count 0 :=
        Function.update_self ..
      have hreserved : tally (reserved { s with
          waiters := rest, phase := Function.update s.phase k (.reading count 0) }) =
          tally (reserved s) + 1 :=
        tally_succ k (fun j hj => by simp only [reserved, hother j hj]) (by simp [reserved, hk])
          (by simp [reserved])
      constructor
      · exact hb.indexed
      · intro j
        by_cases hj : j = k
        · subst hj
          constructor
          · exact fun h => by simpa using hpushing h
          · exact fun h => by simpa using howing h
          · exact fun h => by simpa using hreading h
          · intro c n h
            simp at h
            omega
          · intro c n h
            simp at h
        · exact (hb.placed j).congr (hother j hj) rfl rfl
      · show s.count + tally (reserved _) + tally (unsignalled s) + 0 = s.ring.unread
        rw [hreserved]
        omega
      · exact fun _ => hzero
      · intro j hj
        have hne : j ≠ k := fun h => hnotin (h ▸ hj)
        obtain ⟨c, hc, hjw⟩ := hb.waiting j (by rw [hw]; exact List.mem_cons_of_mem _ hj)
        exact ⟨c, hc, (hother j hne).trans hjw⟩
      · exact hnodup
      · exact hb.results
      · exact hb.slept

/-! ## the steps of the ring -/

omit [Fintype Task] in
/-- Where the tasks are after a step of `k`. -/
theorem pc_cases {r r' : Machine Task} {p : Pc} (hpc : r'.pc = Function.update r.pc k p)
    (j : Task) :
    (j = k ∧ r'.pc j = p) ∨ (j ≠ k ∧ r'.pc j = r.pc j) := by
  rw [hpc]
  by_cases hj : j = k
  · subst hj
    exact .inl ⟨rfl, Function.update_self ..⟩
  · exact .inr ⟨hj, Function.update_of_ne hj ..⟩

omit [Fintype Task] in
/-- At most one task stays `f`, when `k` is not, or no other one was. -/
theorem at_most_one {r r' : Machine Task} {p : Pc} {f : Pc → Bool}
    (hpc : r'.pc = Function.update r.pc k p)
    (hone : ∀ j j', f (r.pc j) = true → f (r.pc j') = true → j = j')
    (h : f p = false ∨ ∀ j, j ≠ k → f (r.pc j) = false) (j j' : Task)
    (hj : f (r'.pc j) = true) (hj' : f (r'.pc j') = true) : j = j' := by
  rcases pc_cases hpc j with ⟨hk, hp⟩ | ⟨hne, hp⟩ <;>
    rcases pc_cases hpc j' with ⟨hk', hp'⟩ | ⟨hne', hp'⟩ <;> rw [hp] at hj <;> rw [hp'] at hj'
  · rw [hk, hk']
  · rcases h with h | h
    · simp [h] at hj
    · simp [h j' hne'] at hj'
  · rcases h with h | h
    · simp [h] at hj'
    · simp [h j hne] at hj
  · exact hone j j' hj hj'

omit [Fintype Task] in
/-- A step of one task: an index moves, or is about to, only under one task at a time. -/
theorem Indexed.move {r r' : Machine Task} {p : Pc} (h : Indexed r)
    (hpc : r'.pc = Function.update r.pc k p)
    (hhead : r'.head < 2 ^ 32) (htail : r'.tail < 2 ^ 32) (hunread : r'.unread ≤ bufSize)
    (hbump : ∀ ch next, p = .bumping ch next → next = (r'.head + 1) % 2 ^ 32)
    (htake : ∀ next, p = .taking next → next = (r'.tail + 1) % 2 ^ 32)
    (hbumps : r'.head = r.head ∧ p.bumps = false ∨ ∀ j, j ≠ k → (r.pc j).bumps = false)
    (htakes : r'.tail = r.tail ∧ p.takes = false ∨ ∀ j, j ≠ k → (r.pc j).takes = false) :
    Indexed r' := by
  constructor
  · exact hhead
  · exact htail
  · exact hunread
  · intro j ch next hj
    rcases pc_cases hpc j with ⟨-, hp⟩ | ⟨hne, hp⟩
    · exact hbump ch next (hp.symm.trans hj)
    · rw [hp] at hj
      rcases hbumps with ⟨hsame, -⟩ | hnone
      · rw [hsame]
        exact h.bumping j ch next hj
      · have := hnone j hne
        simp [hj, Pc.bumps] at this
  · intro j next hj
    rcases pc_cases hpc j with ⟨-, hp⟩ | ⟨hne, hp⟩
    · exact htake next (hp.symm.trans hj)
    · rw [hp] at hj
      rcases htakes with ⟨hsame, -⟩ | hnone
      · rw [hsame]
        exact h.taking j next hj
      · have := hnone j hne
        simp [hj, Pc.takes] at this
  · exact at_most_one hpc h.oneBump (hbumps.imp_left And.right)
  · exact at_most_one hpc h.oneTake (htakes.imp_left And.right)

omit [Fintype Task] [DecidableEq Task] in
/-- `head_` moves on by one. -/
theorem Indexed.unread_bump {r r' : Machine Task} (h : Indexed r) (hroom : r.unread < bufSize)
    (hhead : r'.head = (r.head + 1) % 2 ^ 32) (htail : r'.tail = r.tail) :
    r'.unread = r.unread + 1 := by
  have := h.head
  have := h.tail
  unfold Machine.unread bufSize at *
  rw [hhead, htail]
  omega

omit [Fintype Task] [DecidableEq Task] in
/-- `tail_` moves on by one. -/
theorem Indexed.unread_take {r r' : Machine Task} (h : Indexed r) (hpos : 0 < r.unread)
    (hhead : r'.head = r.head) (htail : r'.tail = (r.tail + 1) % 2 ^ 32) :
    r'.unread + 1 = r.unread := by
  have := h.head
  have := h.tail
  have := h.unread
  unfold Machine.unread bufSize at *
  rw [hhead, htail]
  omega

/-- A key press, before its signal. -/
theorem Balanced.press {ring : Machine Task} (hb : Balanced s 0) (hroom : s.ring.unread < bufSize)
    (hfree : ∀ k, (s.ring.pc k).bumps = false) (hstep : s.ring.step (.press ch) = .ok ring) :
    Balanced { s with ring } 1 := by
  obtain rfl := Except.ok.inj hstep
  have hunread : Machine.unread { s.ring with
      buffer := Function.update s.ring.buffer (s.ring.head % bufSize) ch
      head := (s.ring.head + 1) % 2 ^ 32
      pushed := s.ring.pushed ++ [ch] } = s.ring.unread + 1 :=
    hb.indexed.unread_bump hroom rfl rfl
  have hsum := hb.sum
  refine { hb with indexed := ?_, placed := fun k => (hb.placed k).congr rfl rfl rfl, sum := ?_ }
  · refine { hb.indexed with head := Nat.mod_lt _ (by decide), unread := ?_, bumping := ?_ }
    · exact hunread ▸ hroom
    · intro k ch next hpc
      have hpc : s.ring.pc k = .bumping ch next := hpc
      have := hfree k
      simp [hpc, Pc.bumps] at this
  · rw [hunread, ← hsum]
    rfl

omit [Fintype Task] [DecidableEq Task] in
theorem outside_iff : s.outside k = true ↔ s.phase k = .idle ∧ s.owing k = false := by
  simp [Keyboard.outside]

/-- `k` computes `head_ + 1`. -/
theorem Balanced.inject {ring : Machine Task} (hb : Balanced s 0) (hout : s.outside k = true)
    (hfree : ∀ k, (s.ring.pc k).bumps = false) (hstep : s.ring.step (.inject k ch) = .ok ring) :
    Balanced { s with ring } 0 := by
  rw [Machine.step] at hstep
  split at hstep
  · next hpc =>
      obtain rfl := Except.ok.inj hstep
      obtain ⟨hphase, howing⟩ := outside_iff.mp hout
      have hix := hb.indexed
      refine hb.change k (by simp [hphase]) (fun j hj => ⟨rfl, Function.update_of_ne hj .., rfl⟩)
        ?_ ?_ ?_ (Nat.le_refl _) rfl hb.results rfl
      · exact hix.move rfl hix.head hix.tail hix.unread (by rintro _ _ ⟨⟩; rfl) (by simp)
          (.inr fun j _ => hfree j) (.inl ⟨rfl, rfl⟩)
      · constructor <;> simp [hphase, howing, Pc.reading]
      · simp [reserved, unsignalled, hphase, hpc, Pc.stores, Machine.unread]
  · simp at hstep

/-- `k` exchanges `head_`. -/
theorem Balanced.bump {ring : Machine Task} (hb : Balanced s 0) (hroom : s.ring.unread < bufSize)
    (hstep : s.ring.step (.bump k) = .ok ring) : Balanced { s with ring } 0 := by
  rw [Machine.step] at hstep
  split at hstep
  · next ch next hpc =>
      obtain rfl := Except.ok.inj hstep
      have hix := hb.indexed
      have hnext := hix.bumping k ch next hpc
      have hphase := (hb.placed k).pushing (by simp [hpc, Pc.pushing])
      have howing : s.owing k = false := by
        by_contra h
        have := ((hb.placed k).owing (by simpa using h)).2
        simp [hpc] at this
      have hunread : Machine.unread { s.ring with
          head := next, pc := Function.update s.ring.pc k (.storing ch s.ring.head),
          pushed := s.ring.pushed ++ [ch] } = s.ring.unread + 1 :=
        hix.unread_bump hroom hnext rfl
      refine hb.change k (by simp [hphase]) (fun j hj => ⟨rfl, Function.update_of_ne hj .., rfl⟩)
        ?_ ?_ ?_ (Nat.le_refl _) rfl hb.results rfl
      · refine hix.move rfl (hnext ▸ Nat.mod_lt _ (by decide)) hix.tail (hunread ▸ hroom)
          (by simp) (by simp)
          (.inr fun j hj => ?_) (.inl ⟨rfl, rfl⟩)
        by_contra h
        exact hj (hix.oneBump j k (by simpa using h) (by simp [hpc, Pc.bumps]))
      · constructor <;> simp [hphase, howing, Pc.reading]
      · rw [hunread]
        simp [reserved, unsignalled, hphase, hpc, howing, Pc.stores]
        omega
  · simp at hstep

/-- `k` writes its character. -/
theorem Balanced.store {ring : Machine Task} (hb : Balanced s 0)
    (hstep : s.ring.step (.store k) = .ok ring) :
    Balanced { s with ring, owing := Function.update s.owing k true } 0 := by
  rw [Machine.step] at hstep
  split at hstep
  · next ch slot hpc =>
      obtain rfl := Except.ok.inj hstep
      have hix := hb.indexed
      have hphase := (hb.placed k).pushing (by simp [hpc, Pc.pushing])
      refine hb.change k (by simp [hphase])
        (fun j hj => ⟨rfl, Function.update_of_ne hj .., Function.update_of_ne hj ..⟩)
        ?_ ?_ ?_ (Nat.le_refl _) rfl hb.results rfl
      · exact hix.move rfl hix.head hix.tail hix.unread (by simp) (by simp) (.inl ⟨rfl, rfl⟩)
          (.inl ⟨rfl, rfl⟩)
      · constructor <;> simp [hphase, Pc.reading]
      · simp [reserved, unsignalled, hphase, hpc, Pc.stores, Machine.unread]
  · simp at hstep

/-- `charAvail` of `k`: outside `SYS_READ` it finds nothing. -/
theorem Balanced.check {ring : Machine Task} (hb : Balanced s 0) (hmay : s.mayRead k = true)
    (hnone : s.phase k = .idle → s.ring.head = s.ring.tail)
    (hstep : s.ring.step (.check k) = .ok ring) : Balanced { s with ring } 0 := by
  rw [Machine.step] at hstep
  split at hstep
  · next hpc =>
      obtain rfl := Except.ok.inj hstep
      have hix := hb.indexed
      have hplaced := hb.placed k
      by_cases hne : s.ring.head ≠ s.ring.tail
      · rw [if_pos hne]
        cases hphase : s.phase k with
        | draining count n =>
            obtain ⟨rfl, hcount⟩ := hplaced.first count n hphase
            have howing : s.owing k = false := by
              by_contra h
              have := (hplaced.owing (by simpa using h)).1
              simp [hphase] at this
            refine hb.change k (by simp [hphase])
              (fun j hj => ⟨rfl, Function.update_of_ne hj .., rfl⟩)
              ?_ ?_ ?_ (Nat.le_refl _) rfl hb.results rfl
            · exact hix.move rfl hix.head hix.tail hix.unread (by simp) (by simp) (.inl ⟨rfl, rfl⟩)
                (.inl ⟨rfl, rfl⟩)
            · constructor <;> simp [hphase, howing, hcount, Pc.pushing]
            · simp [reserved, unsignalled, hphase, hpc, Pc.stores, Pc.holdsSlot, Machine.unread]
        | idle => exact absurd (hnone hphase) hne
        | waiting count => simp [Keyboard.mayRead, hphase] at hmay
        | reading count n => simp [Keyboard.mayRead, hphase] at hmay
      · rw [if_neg hne, ← hpc, Function.update_eq_self]
        exact hb
  · simp at hstep

omit [Fintype Task] [DecidableEq Task] in
/-- A task that reads a character is in `SYS_READ`, and has taken none before. -/
theorem Placed.drains (h : Placed s k) (hreading : (s.ring.pc k).reading = true) :
    ∃ count, s.phase k = .draining count 0 ∧ 1 ≤ count ∧ s.owing k = false := by
  obtain ⟨count, hphase⟩ := h.reading hreading
  refine ⟨count, hphase, (h.first count 0 hphase).2, ?_⟩
  by_contra howing
  have := (h.owing (by simpa using howing)).1
  simp [hphase] at this

/-- `k` computes `tail_ + 1`. -/
theorem Balanced.fetch {ring : Machine Task} (hb : Balanced s 0)
    (hfree : ∀ k, (s.ring.pc k).takes = false) (hstep : s.ring.step (.fetch k) = .ok ring) :
    Balanced { s with ring } 0 := by
  rw [Machine.step] at hstep
  split at hstep
  · next hpc =>
      obtain rfl := Except.ok.inj hstep
      have hix := hb.indexed
      obtain ⟨count, hphase, hcount, howing⟩ := (hb.placed k).drains (by simp [hpc, Pc.reading])
      refine hb.change k (by simp [hphase]) (fun j hj => ⟨rfl, Function.update_of_ne hj .., rfl⟩)
        ?_ ?_ ?_ (Nat.le_refl _) rfl hb.results rfl
      · exact hix.move rfl hix.head hix.tail hix.unread (by simp) (by rintro _ ⟨⟩; rfl)
          (.inl ⟨rfl, rfl⟩) (.inr fun j _ => hfree j)
      · constructor <;> simp [hphase, howing, hcount, Pc.pushing]
      · simp [reserved, unsignalled, hphase, hpc, Pc.stores, Pc.holdsSlot, Machine.unread]
  · simp at hstep

/-- `k` exchanges `tail_`: the character that was reserved for it. -/
theorem Balanced.take {ring : Machine Task} (hb : Balanced s 0)
    (hstep : s.ring.step (.take k) = .ok ring) : Balanced { s with ring } 0 := by
  rw [Machine.step] at hstep
  split at hstep
  · next next hpc =>
      obtain rfl := Except.ok.inj hstep
      have hix := hb.indexed
      have hnext := hix.taking k next hpc
      obtain ⟨count, hphase, hcount, howing⟩ := (hb.placed k).drains (by simp [hpc, Pc.reading])
      have hpos := hb.unread_pos (k := k) (by simp [reserved, hphase, hpc, Pc.holdsSlot])
      have hunread : Machine.unread { s.ring with
          tail := next, pc := Function.update s.ring.pc k (.loading s.ring.tail) } + 1 =
          s.ring.unread :=
        hix.unread_take hpos rfl hnext
      refine hb.change k (by simp [hphase]) (fun j hj => ⟨rfl, Function.update_of_ne hj .., rfl⟩)
        ?_ ?_ ?_ (Nat.le_refl _) rfl hb.results rfl
      · refine hix.move rfl hix.head (hnext ▸ Nat.mod_lt _ (by decide))
          (Nat.le_of_succ_le (hunread.trans_le hix.unread)) (by simp) (by simp)
          (.inl ⟨rfl, rfl⟩) (.inr fun j hj => ?_)
        by_contra h
        exact hj (hix.oneTake j k (by simpa using h) (by simp [hpc, Pc.takes]))
      · constructor <;> simp [hphase, howing, hcount, Pc.pushing]
      · rw [← hunread]
        simp [reserved, unsignalled, hphase, hpc, howing, Pc.stores, Pc.holdsSlot]
        omega
  · simp at hstep

/-- `k` reads its character, and goes back to the loop. -/
theorem Balanced.load {ring : Machine Task} (hb : Balanced s 0)
    (hphase : s.phase k = .draining count n)
    (hstep : s.ring.step (.load k) = .ok ring) :
    Balanced { s with ring, phase := Function.update s.phase k (.reading count (n + 1)) } 0 := by
  rw [Machine.step] at hstep
  split at hstep
  · next slot hpc =>
      obtain rfl := Except.ok.inj hstep
      have hix := hb.indexed
      obtain ⟨hn, hcount⟩ := (hb.placed k).first count n hphase
      obtain ⟨_, _, _, howing⟩ := (hb.placed k).drains (by simp [hpc, Pc.reading])
      subst hn
      refine hb.change k (by simp [hphase])
        (fun j hj => ⟨Function.update_of_ne hj .., Function.update_of_ne hj .., rfl⟩)
        ?_ ?_ ?_ (Nat.le_refl _) rfl hb.results rfl
      · exact hix.move rfl hix.head hix.tail hix.unread (by simp) (by simp) (.inl ⟨rfl, rfl⟩)
          (.inl ⟨rfl, rfl⟩)
      · constructor <;> simp [howing, Pc.pushing, Pc.reading]
        omega
      · simp [reserved, unsignalled, hphase, hpc, Pc.stores, Pc.holdsSlot, Machine.unread]
  · simp at hstep

/-- The task in `pushChar` goes on to its signal. -/
theorem Balanced.owes (hb : Balanced s 0) (howing : s.owing k = true) :
    Balanced { s with owing := Function.update s.owing k false } 1 := by
  obtain ⟨hphase, hpc⟩ := (hb.placed k).owing howing
  refine hb.change k (by simp [hphase]) (fun j hj => ⟨rfl, rfl, Function.update_of_ne hj ..⟩)
    hb.indexed ?_ ?_ (Nat.le_refl _) rfl hb.results rfl
  · constructor <;> simp [hphase, hpc, Pc.reading]
  · simp [reserved, unsignalled, hphase, hpc, howing, Pc.stores]

/-! ## the steps of `SYS_READ` -/

/-- `Semaphore::wait`, when no character is on its way. -/
theorem Balanced.read (hb : Balanced s 0) (hout : s.outside k = true) (hpc : s.ring.pc k = .idle)
    (hcount : 1 ≤ count) (hsettled : Settled s) : Balanced (s.wait k count) 0 := by
  obtain ⟨hphase, howing⟩ := outside_iff.mp hout
  have hsum := hb.sum
  rw [tally_zero.mpr fun k => (hsettled k).1, tally_zero.mpr fun k => (hsettled k).2] at hsum
  unfold Keyboard.wait
  split
  · next hpos =>
      have hnone : s.waiters = [] := by
        by_contra h
        have := hb.none h
        omega
      refine hb.change k (by simp [hphase]) (fun j hj => ⟨Function.update_of_ne hj .., rfl, rfl⟩)
        hb.indexed ?_ ?_ (Nat.sub_le ..) rfl hb.results rfl
      · constructor <;> simp [hpc, howing, Pc.pushing, Pc.reading]
        omega
      · simp [reserved, unsignalled, hphase, hpc, howing, Pc.stores]
        omega
  · next hzero =>
      have hnotin : k ∉ s.waiters := by
        intro hin
        obtain ⟨c, -, hw⟩ := hb.waiting k hin
        simp [hphase] at hw
      have hb' : Balanced { s with phase := Function.update s.phase k (.waiting count) } 0 := by
        refine hb.change k (by simp [hphase])
          (fun j hj => ⟨Function.update_of_ne hj .., rfl, rfl⟩)
          hb.indexed ?_ ?_ (Nat.le_refl _) rfl hb.results rfl
        · constructor <;> simp [hpc, howing, Pc.pushing, Pc.reading]
        · simp [reserved, unsignalled, hphase, hpc, howing, Pc.stores]
      refine { hb' with placed := fun j => (hb'.placed j).congr rfl rfl rfl, none := fun _ => ?_,
                        waiting := ?_, nodup := ?_, slept := ?_ }
      · show s.count = 0
        omega
      · intro j hj
        rcases List.mem_append.mp hj with hj | hj
        · exact hb'.waiting j hj
        · obtain rfl := List.mem_singleton.mp hj
          exact ⟨count, hcount, by simp⟩
      · show (s.waiters ++ [k]).Nodup
        rw [List.nodup_append]
        refine ⟨hb.nodup, List.nodup_singleton _, fun j hj j' hj' => ?_⟩
        rintro rfl
        exact hnotin (List.mem_singleton.mp hj' ▸ hj)
      · intro n hn
        rcases List.mem_append.mp hn with hn | hn
        · exact hb.slept n hn
        · obtain rfl := List.mem_singleton.mp hn
          omega

/-- The test of the drain loop. -/
theorem Balanced.look (hb : Balanced s 0) (hone : takesOne s k = true)
    (hstep : s.step (.look k) = .ok s') : Balanced s' 0 := by
  rw [Keyboard.step] at hstep
  split at hstep
  · next count n hphase =>
      have hplaced := hb.placed k
      have hcount := hplaced.room count n hphase
      have hreading : (s.ring.pc k).reading = false := by
        by_contra h
        obtain ⟨_, h⟩ := hplaced.reading (by simpa using h)
        simp [hphase] at h
      have hpushing : (s.ring.pc k).pushing = false := by
        by_contra h
        have := hplaced.pushing (by simpa using h)
        simp [hphase] at this
      have howing : s.owing k = false := by
        by_contra h
        have := (hplaced.owing (by simpa using h)).1
        simp [hphase] at this
      have hpc : s.ring.pc k = .idle := by
        cases h : s.ring.pc k <;> simp [h, Pc.reading, Pc.pushing] at hreading hpushing ⊢
      split at hstep
      · next hmore =>
          obtain rfl := Except.ok.inj hstep
          have hn : n = 0 := by
            simp [takesOne, hphase] at hone
            omega
          subst hn
          refine hb.change k (by simp [hphase])
            (fun j hj => ⟨Function.update_of_ne hj .., rfl, rfl⟩)
            hb.indexed ?_ ?_ (Nat.le_refl _) rfl hb.results rfl
          · constructor <;> simp [hpc, howing, hcount, Pc.pushing, Pc.reading]
          · simp [reserved, unsignalled, hphase, hpc, Pc.stores, Pc.holdsSlot]
      · next hend =>
          obtain rfl := Except.ok.inj hstep
          -- a task that was let through finds its character
          have hn : n ≠ 0 := by
            rintro rfl
            have hpos := hb.unread_pos (k := k) (by simp [reserved, hphase])
            exact hend ⟨hcount, hb.indexed.unread_pos.mp hpos⟩
          refine hb.change k (by simp [hphase])
            (fun j hj => ⟨Function.update_of_ne hj .., rfl, rfl⟩)
            hb.indexed ?_ ?_ (Nat.le_refl _) rfl ?_ rfl
          · constructor <;> simp [hpc, howing, Pc.pushing, Pc.reading]
          · simp [reserved, unsignalled, hphase, hn]
          · intro m hm
            rcases List.mem_append.mp hm with hm | hm
            · exact hb.results m hm
            · obtain rfl := List.mem_singleton.mp hm
              omega
  · simp at hstep

/-- **Every step** that takes one character for each wait keeps the balance. -/
theorem Balanced.step {op : KeyboardOp Task} (hb : Balanced s 0) (hop : OnePerWait s op)
    (hstep : s.step op = .ok s') : Balanced s' 0 := by
  cases op with
  | ring op =>
      obtain ⟨ring, hring, hstep⟩ := bind_eq_ok.mp hstep
      cases op with
      | press ch =>
          obtain rfl := Except.ok.inj hstep
          exact (hb.press hop.1 hop.2 hring).signal
      | inject k ch =>
          dsimp only at hstep
          split at hstep
          · next hout =>
              obtain rfl := Except.ok.inj hstep
              exact hb.inject hout hop hring
          · simp at hstep
      | bump k =>
          obtain rfl := Except.ok.inj hstep
          exact hb.bump hop hring
      | store k =>
          obtain rfl := Except.ok.inj hstep
          exact hb.store hring
      | check k =>
          dsimp only at hstep
          split at hstep
          · next hmay =>
              obtain rfl := Except.ok.inj hstep
              exact hb.check hmay hop hring
          · simp at hstep
      | fetch k =>
          obtain rfl := Except.ok.inj hstep
          exact hb.fetch hop hring
      | take k =>
          obtain rfl := Except.ok.inj hstep
          exact hb.take hring
      | load k =>
          dsimp only at hstep
          split at hstep
          · next hphase =>
              obtain rfl := Except.ok.inj hstep
              exact hb.load hphase hring
          · next hnot =>
              rw [Machine.step] at hring
              split at hring
              · next hpc =>
                  obtain ⟨count, hphase⟩ := (hb.placed k).reading (by simp [hpc, Pc.reading])
                  exact absurd hphase (hnot count 0)
              · simp at hring
  | signal k =>
      rw [Keyboard.step] at hstep
      split at hstep
      · next howing =>
          obtain rfl := Except.ok.inj hstep
          exact (hb.owes howing).signal
      · simp at hstep
  | read k count =>
      rw [Keyboard.step] at hstep
      split at hstep
      · next hout =>
          obtain rfl := Except.ok.inj hstep
          exact hb.read hout.1 hout.2 hop.1 hop.2
      · simp at hstep
  | look k => exact hb.look hop hstep

end Tasks

end Doors.Kbd
