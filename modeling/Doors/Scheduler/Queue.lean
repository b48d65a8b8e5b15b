import Doors.Scheduler.Signals

/-!
# Doors.Scheduler.Queue

What the hand-written loops over `sleepQueue_` do to the queue, seen as the
list `Sched.queue`.

* `removeFromSleepQueue_spec` — removal deletes the first entry of a task;
* `insertSleeper_spec` — insertion puts an entry in front of later deadlines
  only and right behind one that is not later;
* `popSleeper_spec` — the wakeup loop of `tick` takes off the head.

None of them leaves the array while the queue fits into it.  The `_ok`
variants are the inversions used for runs: they say what a call that
succeeded did, whether or not the queue fitted.
-/

namespace Doors

open Cells Run

/-- Whether an entry belongs to the task in slot `i`. -/
def SleepEntry.isOf (i : Nat) (e : SleepEntry) : Bool := e.taskId = i

namespace Sched

open Scheduler

variable {s s' : Sched} {i : Nat}

/-! ## removal -/

/-- A search of the sleep queue that stays inside it finds the first entry. -/
theorem findSleeper_eq (s : Sched) (id k i : Nat) (h : i + k ≤ maxSleepers) :
    s.findSleeper id k i = .ok ((List.range' i k).find? fun j => (s.sleepQueue j).isOf id) := by
  induction k generalizing i with
  | zero => rfl
  | succ k ih =>
      rw [findSleeper, read_of_lt (by omega), List.range'_succ, List.find?_cons]
      by_cases hid : (s.sleepQueue i).taskId = id
      · simp [bind, Except.bind, SleepEntry.isOf, hid]
      · simp only [bind, Except.bind, SleepEntry.isOf, hid, if_false, decide_false]
        exact ih (i + 1) (by omega)

/-- `q` and `n` are the sleep queue of `s` without its first entry for slot
`i`. -/
def Erased (s : Sched) (i : Nat) (q : Nat → SleepEntry) (n : Nat) : Prop :=
  s.sleepCount ≤ maxSleepers → toList q n = s.queue.eraseP (SleepEntry.isOf i)

/-- **Removal**: on a queue within its array `removeFromSleepQueue` succeeds
and deletes the first entry for the task. -/
theorem removeFromSleepQueue_spec (s : Sched) (i : Nat) (h : s.sleepCount ≤ maxSleepers) :
    ∃ q n, s.removeFromSleepQueue i = .ok { s with sleepQueue := q, sleepCount := n } ∧
      toList q n = s.queue.eraseP (SleepEntry.isOf i) := by
  simp only [removeFromSleepQueue, findSleeper_eq s i s.sleepCount 0 (by omega),
    ← List.range_eq_range', bind, Except.bind]
  cases hf : (List.range s.sleepCount).find? fun j => (s.sleepQueue j).isOf i with
  | none =>
      refine ⟨s.sleepQueue, s.sleepCount, rfl, ?_⟩
      rw [List.find?_range_eq_none] at hf
      rw [List.eraseP_of_forall_not]
      · rfl
      · intro e he
        obtain ⟨j, hj, rfl⟩ := mem_toList.mp he
        simpa using hf j hj
  | some j =>
      rw [List.find?_range_eq_some] at hf
      simp only [List.mem_range] at hf
      obtain ⟨hj, hlt, hfirst⟩ := hf
      obtain ⟨b, hb, hl⟩ := shiftDown_spec Fault.sleepQueueBounds s.sleepQueue
        (show j ≤ s.sleepCount - 1 by omega) (show s.sleepCount - 1 < maxSleepers by omega)
      simp only [hb]
      refine ⟨b, s.sleepCount - 1, rfl, ?_⟩
      have hidx : (toList s.sleepQueue s.sleepCount).findIdx? (SleepEntry.isOf i) = some j := by
        rw [List.findIdx?_eq_some_iff_getElem]
        refine ⟨by simpa using hlt, by simpa using hj, fun k hk => ?_⟩
        simpa using hfirst k hk
      rw [hl, Nat.sub_add_cancel (by omega), queue, List.eraseP_eq_eraseIdx, hidx]

/-- The task is out of the queue. -/
theorem removeFromSleepQueue_ok (h : s.removeFromSleepQueue i = .ok s') :
    ∃ q n, Erased s i q n ∧ s' = { s with sleepQueue := q, sleepCount := n } := by
  by_cases hle : s.sleepCount ≤ maxSleepers
  · obtain ⟨q, n, hok, hq⟩ := removeFromSleepQueue_spec s i hle
    rw [hok, Except.ok.injEq] at h
    exact ⟨q, n, fun _ => hq, h.symm⟩
  · simp only [removeFromSleepQueue, bind_eq_ok] at h
    obtain ⟨found, _, h⟩ := h
    cases found with
    | none =>
        simp only [Except.ok.injEq] at h
        exact ⟨_, _, fun hle' => absurd hle' hle, h.symm⟩
    | some k =>
        simp only [bind_eq_ok] at h
        obtain ⟨q, _, h⟩ := h
        simp only [Except.ok.injEq] at h
        exact ⟨_, _, fun hle' => absurd hle' hle, h.symm⟩

/-! ## insertion -/

/-- `q` and `n` are the sleep queue of `s` with `e` inserted in front of later
deadlines only and right behind one that is not later. -/
def Inserted (s : Sched) (e : SleepEntry) (q : Nat → SleepEntry) (n : Nat) : Prop :=
  s.sleepCount < maxSleepers → ∃ p ≤ s.sleepCount,
    toList q n = s.queue.take p ++ e :: s.queue.drop p ∧
    (∀ j, p ≤ j → j < s.sleepCount → e.deadline < (s.sleepQueue j).deadline) ∧
    (0 < p → (s.sleepQueue (p - 1)).deadline ≤ e.deadline)

/-- **Insertion**: a queue with a free cell accepts the entry. -/
theorem insertSleeper_spec (s : Sched) (e : SleepEntry) (h : s.sleepCount < maxSleepers) :
    ∃ q n, s.insertSleeper e = .ok { s with sleepQueue := q, sleepCount := n } ∧
      Inserted s e q n := by
  obtain ⟨p, b, c, hrun, hwrite, hp, hl, hbig, hstop⟩ := insert_spec Fault.sleepQueueBounds
    (fun x => decide (e.deadline < x.deadline)) s.sleepCount s.sleepQueue e h
  refine ⟨c, s.sleepCount + 1, ?_, fun _ => ⟨p, hp, hl, ?_, ?_⟩⟩
  · simp only [insertSleeper, hrun, hwrite, bind, Except.bind]
  · intro j h1 h2
    simpa using hbig j h1 h2
  · intro h0
    simpa using hstop h0

/-- The entry is in the queue. -/
theorem insertSleeper_ok {e : SleepEntry} (h : s.insertSleeper e = .ok s') :
    ∃ q n, Inserted s e q n ∧ s' = { s with sleepQueue := q, sleepCount := n } := by
  by_cases hlt : s.sleepCount < maxSleepers
  · obtain ⟨q, n, hok, hq⟩ := insertSleeper_spec s e hlt
    rw [hok, Except.ok.injEq] at h
    exact ⟨q, n, hq, h.symm⟩
  · simp only [insertSleeper, bind_eq_ok] at h
    obtain ⟨_, _, q, _, h⟩ := h
    simp only [Except.ok.injEq] at h
    exact ⟨_, _, fun hlt' => absurd hlt' hlt, h.symm⟩

/-! ## the head -/

/-- The slot of a task whose sleep entry was popped. -/
def popped (t : Task) : Task :=
  { t with state := if t.state = .blocked then .ready else t.state, wakeupMs := 0 }

/-- `q` and `n` are the sleep queue of `s` without its head. -/
def Beheaded (s : Sched) (q : Nat → SleepEntry) (n : Nat) : Prop :=
  0 < s.sleepCount → s.sleepCount ≤ maxSleepers → toList q n = s.queue.tail

/-- **Popping**: a queue that has a head and fits into its array loses it. -/
theorem popSleeper_spec (s : Sched) (h0 : 0 < s.sleepCount) (h : s.sleepCount ≤ maxSleepers) :
    ∃ q n, s.popSleeper =
        .ok { s.modify (s.sleepQueue 0).taskId popped with sleepQueue := q, sleepCount := n } ∧
      toList q n = s.queue.tail := by
  obtain ⟨b, hb, hl⟩ := shiftDown_spec Fault.sleepQueueBounds s.sleepQueue
    (show 0 ≤ s.sleepCount - 1 by omega) (show s.sleepCount - 1 < maxSleepers by omega)
  refine ⟨b, s.sleepCount - 1, ?_, ?_⟩
  · rw [Nat.sub_zero] at hb
    simp only [popSleeper, read_of_lt (show 0 < maxSleepers by decide), hb, bind, Except.bind]
    rfl
  · rw [hl, Nat.sub_add_cancel (by omega), List.eraseIdx_zero, queue]

/-- The head is out of the queue. -/
theorem popSleeper_ok (h : s.popSleeper = .ok s') :
    ∃ q n, Beheaded s q n ∧
      s' = { s.modify (s.sleepQueue 0).taskId popped with sleepQueue := q, sleepCount := n } := by
  by_cases hc : 0 < s.sleepCount ∧ s.sleepCount ≤ maxSleepers
  · obtain ⟨q, n, hok, hq⟩ := popSleeper_spec s hc.1 hc.2
    rw [hok, Except.ok.injEq] at h
    exact ⟨q, n, fun _ _ => hq, h.symm⟩
  · simp only [popSleeper, bind_eq_ok] at h
    obtain ⟨e, he, q, _, h⟩ := h
    rw [read_of_lt (by decide)] at he
    simp only [Except.ok.injEq] at he h
    subst he
    exact ⟨q, _, fun h0 h1 => absurd ⟨h0, h1⟩ hc, h.symm⟩

end Sched

end Doors
