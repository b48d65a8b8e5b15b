import Mathlib.Data.List.Perm.Subperm
import Doors.Scheduler.Invariant

/-!
# Doors.Scheduler.SleepQueue

The invariant of the sleep queue over whole runs.

`Queued` ties the queue to the task table: the queue is sorted, no task
occurs twice, and the entries are exactly the sleeping tasks.  Since task ids
are below `MAX_TASKS`, a queue without duplicates fits into its array, which
is all that keeps the unchecked insertion of `sleep` in bounds.

* `Effect.queued` — every effect keeps the invariant, provided a task that
  goes to sleep is not BLOCKED already;
* `wakeExpired_late` — the wakeup loop of `tick` leaves no expired entry;
* `sleep_queue_invariant` — the invariant, the absence of out-of-bounds
  accesses and the effect of a complete tick, in every run.
-/

namespace Doors

open Cells Run

namespace Sched

open Scheduler

/-! ## the invariant -/

/-- The sleep queue and the table agree. -/
structure Queued (s : Sched) : Prop where
  sorted : s.queue.Pairwise fun a b => a.deadline ≤ b.deadline
  nodup : (s.queue.map SleepEntry.taskId).Nodup
  bound : ∀ e ∈ s.queue, e.taskId < maxTasks
  entry : ∀ e ∈ s.queue,
    (s.tasks e.taskId).state = .blocked ∧ (s.tasks e.taskId).wakeupMs = e.deadline
  sleeper : ∀ i, (s.tasks i).state ≠ .dead → (s.tasks i).wakeupMs ≠ 0 → ∃ e ∈ s.queue, e.taskId = i

/-- A task that goes to sleep is not BLOCKED already. -/
def SleepsAwake (s : Sched) : Op → Prop
  | .sleep _ => s.cur.state ≠ .blocked
  | _ => True

instance (s : Sched) (op : Op) : Decidable (SleepsAwake s op) := by
  apply @Op.casesOn _ op <;> intros <;> unfold SleepsAwake <;> infer_instance

variable {s₀ s s' : Sched} {op : Op}

@[simp] theorem length_queue (s : Sched) : s.queue.length = s.sleepCount := length_toList _ _

@[simp] theorem getElem_queue (s : Sched) (i : Nat) (h : i < s.queue.length) :
    s.queue[i] = s.sleepQueue i := getElem_toList _ _ _ h

/-- Without duplicates there is room for one entry per task. -/
theorem nodup_length {l : List Nat} (hn : l.Nodup) (hb : ∀ i ∈ l, i < maxTasks) :
    l.length ≤ maxTasks := by
  have hsub : l ⊆ List.range maxTasks := fun i hi => List.mem_range.mpr (hb i hi)
  have hle := (List.subperm_of_subset hn hsub).length_le
  rwa [List.length_range] at hle

theorem Queued.fits (h : Queued s) : s.sleepCount ≤ maxSleepers := by
  have hle := nodup_length h.nodup fun i hi => by
    obtain ⟨e, he, rfl⟩ := List.mem_map.mp hi
    exact h.bound e he
  rwa [List.length_map, length_queue] at hle

/-- While a task has no entry there is room for its own. -/
theorem Queued.room (h : Queued s) {i : Nat} (hi : i < maxTasks)
    (hno : ∀ e ∈ s.queue, e.taskId ≠ i) :
    s.sleepCount < maxSleepers := by
  have hcons : (i :: s.queue.map SleepEntry.taskId).Nodup := by
    rw [List.nodup_cons]
    refine ⟨fun hmem => ?_, h.nodup⟩
    obtain ⟨e, he, hid⟩ := List.mem_map.mp hmem
    exact hno e he hid
  have hle := nodup_length hcons fun j hj => by
    rcases List.mem_cons.mp hj with rfl | hj
    · exact hi
    · obtain ⟨e, he, rfl⟩ := List.mem_map.mp hj
      exact h.bound e he
  rw [List.length_cons, List.length_map, length_queue] at hle
  exact hle

/-- Changes that neither the queue nor the sleepers notice. -/
theorem Queued.congr (h : Queued s) (hq : s'.queue = s.queue)
    (hs : ∀ i, (s'.tasks i).state = (s.tasks i).state)
    (hw : ∀ i, (s'.tasks i).wakeupMs = (s.tasks i).wakeupMs) : Queued s' where
  sorted := by
    rw [hq]
    exact h.sorted
  nodup := by
    rw [hq]
    exact h.nodup
  bound := by
    rw [hq]
    exact h.bound
  entry := by
    intro e he
    rw [hq] at he
    rw [hs, hw]
    exact h.entry e he
  sleeper := by
    intro i hl hne
    rw [hs] at hl
    rw [hw] at hne
    rw [hq]
    exact h.sleeper i hl hne

/-- State changes of tasks that do not sleep, and of no task that does. -/
theorem Queued.restate (h : Queued s) (hq : s'.queue = s.queue)
    (hs : ∀ i, (s'.tasks i).state = (s.tasks i).state ∨
      (s.tasks i).state ≠ .dead ∧ ((s'.tasks i).state = .blocked ∨ (s.tasks i).state ≠ .blocked))
    (hw : ∀ i, (s'.tasks i).wakeupMs = (s.tasks i).wakeupMs) : Queued s' where
  sorted := by
    rw [hq]
    exact h.sorted
  nodup := by
    rw [hq]
    exact h.nodup
  bound := by
    rw [hq]
    exact h.bound
  entry := by
    intro e he
    rw [hq] at he
    obtain ⟨hb, hd⟩ := h.entry e he
    refine ⟨?_, by rw [hw, hd]⟩
    rcases hs e.taskId with hsame | ⟨_, hnew | hold⟩
    · rw [hsame, hb]
    · exact hnew
    · exact absurd hb hold
  sleeper := by
    intro i hl hne
    rw [hw] at hne
    rw [hq]
    rcases hs i with hsame | ⟨hlive, _⟩
    · exact h.sleeper i (by rw [← hsame]; exact hl) hne
    · exact h.sleeper i hlive hne

/-- The entries that remain after an entry of slot `i` was removed are those
of the other tasks. -/
theorem Queued.mem_erase (h : Queued s) {i : Nat} {e : SleepEntry} :
    e ∈ s.queue.eraseP (SleepEntry.isOf i) ↔ e ∈ s.queue ∧ e.taskId ≠ i := by
  have hn : (s.queue.map SleepEntry.taskId).Nodup := h.nodup
  generalize s.queue = l at hn
  induction l with
  | nil => simp
  | cons a l ih =>
      rw [List.map_cons, List.nodup_cons] at hn
      obtain ⟨hnot, hn⟩ := hn
      by_cases ha : a.taskId = i
      · rw [List.eraseP_cons_of_pos (by simpa [SleepEntry.isOf] using ha)]
        constructor
        · intro he
          refine ⟨List.mem_cons_of_mem a he, fun hei => hnot ?_⟩
          rw [ha, ← hei]
          exact List.mem_map_of_mem he
        · rintro ⟨he, hei⟩
          rcases List.mem_cons.mp he with rfl | he
          · exact absurd ha hei
          · exact he
      · have hrest := ih hn
        rw [List.eraseP_cons_of_neg (by simpa [SleepEntry.isOf] using ha), List.mem_cons,
          List.mem_cons]
        constructor
        · rintro (rfl | he)
          · exact ⟨.inl rfl, ha⟩
          · exact ⟨.inr (hrest.mp he).1, (hrest.mp he).2⟩
        · rintro ⟨rfl | he, hei⟩
          · exact .inl rfl
          · exact .inr (hrest.mpr ⟨he, hei⟩)

/-- A task leaves the queue: what is true of the others, and of it no longer
being asleep, is enough. -/
theorem Queued.erase (h : Queued s) {i : Nat}
    (hq : s'.queue = s.queue.eraseP (SleepEntry.isOf i))
    (hself : (s'.tasks i).state = .dead ∨ (s'.tasks i).wakeupMs = 0)
    (hs : ∀ j, j ≠ i → (s'.tasks j).state = (s.tasks j).state)
    (hw : ∀ j, j ≠ i → (s'.tasks j).wakeupMs = (s.tasks j).wakeupMs) : Queued s' where
  sorted := by
    rw [hq]
    exact h.sorted.sublist List.eraseP_sublist
  nodup := by
    rw [hq]
    exact h.nodup.sublist (List.eraseP_sublist.map _)
  bound := by
    intro e he
    rw [hq] at he
    exact h.bound e (h.mem_erase.mp he).1
  entry := by
    intro e he
    rw [hq] at he
    obtain ⟨he, hne⟩ := h.mem_erase.mp he
    rw [hs _ hne, hw _ hne]
    exact h.entry e he
  sleeper := by
    intro j hl hne
    have hj : j ≠ i := by
      rintro rfl
      rcases hself with hd | h0
      · exact hl hd
      · exact hne h0
    rw [hs j hj] at hl
    rw [hw j hj] at hne
    obtain ⟨e, he, hid⟩ := h.sleeper j hl hne
    refine ⟨e, ?_, hid⟩
    rw [hq]
    exact h.mem_erase.mpr ⟨he, by rw [hid]; exact hj⟩

/-! ## effects -/

theorem init_queued (s : Sched) : Queued s.init := by
  have hq : s.init.queue = [] := rfl
  have hw : ∀ i, (s.init.tasks i).wakeupMs = 0 := by
    intro i
    unfold init
    dsimp only
    split <;> rfl
  constructor
  · rw [hq]
    exact .nil
  · rw [hq]
    exact .nil
  · simp [hq]
  · simp [hq]
  · intro i _ hne
    exact absurd (hw i) hne

theorem Queued.modify (h : Queued s) (i : Nat) {f : Task → Task}
    (hf : ∀ t, (f t).state = t.state ∧ (f t).wakeupMs = t.wakeupMs) : Queued (s.modify i f) := by
  refine h.congr rfl (fun j => ?_) fun j => ?_
  · rw [modify_tasks]
    split
    · exact (hf _).1
    · rfl
  · rw [modify_tasks]
    split
    · exact (hf _).2
    · rfl

/-- A task that is not BLOCKED has no entry. -/
theorem Queued.no_entry (h : Queued s) {i : Nat} (hi : (s.tasks i).state ≠ .blocked) :
    ∀ e ∈ s.queue, e.taskId ≠ i := by
  intro e he hid
  have hb := (h.entry e he).1
  rw [hid] at hb
  exact hi hb

/-- The entries after an insertion. -/
theorem Inserted.mem {x e : SleepEntry} {q : Nat → SleepEntry} {n : Nat} (hq : Inserted s x q n)
    (hroom : s.sleepCount < maxSleepers) : e ∈ toList q n ↔ e = x ∨ e ∈ s.queue := by
  obtain ⟨k, _, hl, _⟩ := hq hroom
  rw [hl, List.mem_append, List.mem_cons, or_left_comm, ← List.mem_append, List.take_append_drop]

/-- The current task goes to sleep. -/
theorem Queued.sleep (h : Queued s) (hlt : s.currentIdx < maxTasks)
    (hawake : s.cur.state ≠ .blocked)
    {d n : Nat} {q : Nat → SleepEntry} {p : Pit}
    (hq : Inserted s { deadline := d, taskId := s.currentIdx } q n) :
    Queued { s.modify s.currentIdx fun t => { t with wakeupMs := d, state := .blocked } with
      sleepQueue := q, sleepCount := n, pit := p } := by
  have hno := h.no_entry hawake
  have hmem := fun e => hq.mem (e := e) (h.room hlt hno)
  obtain ⟨k, hk, hl, hlater, hearlier⟩ := hq (h.room hlt hno)
  have hother : ∀ e ∈ s.queue, (if e.taskId = s.currentIdx then
      { s.tasks e.taskId with wakeupMs := d, state := .blocked } else s.tasks e.taskId) =
        s.tasks e.taskId := fun e he => if_neg (hno e he)
  constructor
  · change (toList q n).Pairwise _
    rw [hl]
    refine pairwise_insert (R := fun a b : SleepEntry => a.deadline ≤ b.deadline)
      (fun _ _ _ => Nat.le_trans) h.sorted (by rw [length_queue]; exact hk) ?_ ?_
    · intro h0 hb
      rw [List.get_eq_getElem, getElem_queue]
      exact hearlier h0
    · intro y hy
      obtain ⟨j, hj, rfl⟩ := List.getElem_of_mem hy
      rw [List.length_drop, length_queue] at hj
      rw [List.getElem_drop, getElem_queue]
      exact Nat.le_of_lt (hlater (k + j) (by omega) (by omega))
  · change ((toList q n).map SleepEntry.taskId).Nodup
    rw [hl, List.map_append, List.map_cons]
    rw [List.perm_middle.nodup_iff, List.nodup_cons, ← List.map_append, List.take_append_drop]
    refine ⟨fun hin => ?_, h.nodup⟩
    obtain ⟨e, he, hid⟩ := List.mem_map.mp hin
    exact hno e he hid
  · intro e he
    rcases (hmem e).mp he with rfl | he
    · exact hlt
    · exact h.bound e he
  · intro e he
    rcases (hmem e).mp he with rfl | he
    · simp
    · simp only [modify_tasks, hother e he]
      exact h.entry e he
  · intro i hl hne
    by_cases hi : i = s.currentIdx
    · exact ⟨_, (hmem _).mpr (.inl rfl), hi.symm⟩
    · simp only [modify_tasks, hi, if_false] at hl hne
      obtain ⟨e, he, hid⟩ := h.sleeper i hl hne
      exact ⟨e, (hmem e).mpr (.inr he), hid⟩

/-- The head of a queue that is not empty. -/
theorem queue_eq_cons (h0 : 0 < s.sleepCount) : s.queue = s.sleepQueue 0 :: s.queue.tail := by
  obtain ⟨k, hk⟩ : ∃ k, s.sleepCount = k + 1 := ⟨s.sleepCount - 1, by omega⟩
  simp [queue, toList, hk, List.range_succ_eq_map]

/-- The head leaves the queue. -/
theorem Queued.pop (h : Queued s) (h0 : 0 < s.sleepCount) {q : Nat → SleepEntry} {n : Nat}
    (hq : Beheaded s q n) :
    Queued { s.modify (s.sleepQueue 0).taskId popped with sleepQueue := q, sleepCount := n } := by
  have hcons := queue_eq_cons h0
  have herase : s.queue.tail = s.queue.eraseP (SleepEntry.isOf (s.sleepQueue 0).taskId) := by
    rw [hcons, List.eraseP_cons_of_pos (by simp [SleepEntry.isOf]), List.tail_cons]
  have htail := hq h0 h.fits
  refine h.erase (htail.trans herase) (.inr ?_) ?_ ?_
  · simp [popped]
  · intro j hj
    simp only [modify_tasks, hj, if_false]
  · intro j hj
    simp only [modify_tasks, hj, if_false]

/-- A switch: the task that is left keeps its state unless it was RUNNING,
the task that is installed was READY. -/
theorem Queued.switch (h : Queued s) {next : Nat} (hready : (s.leave.tasks next).state = .ready) :
    Queued (s.leave.install next) := by
  have hleft : Queued s.leave := by
    refine h.restate rfl (fun i => ?_) fun i => ?_
    · rw [leave_tasks]
      unfold left
      split
      · split
        · next hr =>
            right
            rw [hr]
            exact ⟨by decide, .inr (by decide)⟩
        · exact .inl rfl
      · exact .inl rfl
    · rw [leave_tasks]
      unfold left
      split
      · split <;> rfl
      · rfl
  refine hleft.restate rfl (fun i => ?_) fun i => ?_
  · rw [install_tasks]
    split
    · next hi =>
        right
        rw [hi, hready]
        exact ⟨by decide, .inr (by decide)⟩
    · exact .inl rfl
  · rw [install_tasks]
    split <;> rfl

/-- **Queue step**: every effect of an operation in which nobody sleeps while
BLOCKED keeps the queue invariant. -/
theorem Effect.queued (he : Effect s₀ op s s') (hc : SleepsAwake s₀ op) (ht : Table s)
    (h : Queued s) : Queued s' := by
  cases he with
  | init => exact init_queued s
  | quiet hq => exact h.congr hq.queue hq.state fun i => hq.field Task.wakeupMs i fun _ => rfl
  | timer m p => exact h.congr rfl (fun _ => rfl) fun _ => rfl
  | notify tasks hu _ =>
      refine h.congr rfl (fun i => ?_) fun i => ?_
      · obtain ⟨u, hu⟩ := hu i
        have hs := congrArg Task.state hu
        exact hs
      · obtain ⟨u, hu⟩ := hu i
        have hw := congrArg Task.wakeupMs hu
        exact hw
  | reap k _ => exact h.modify _ fun _ => ⟨rfl, rfl⟩
  | mark i code _ _ => exact h.modify _ fun _ => ⟨rfl, rfl⟩
  | block =>
      refine h.restate rfl (fun i => ?_) fun i => ?_
      · rw [modify_tasks]
        split
        · next hi => exact .inr ⟨by rw [hi]; exact ht.cur_live, .inl rfl⟩
        · exact .inl rfl
      · rw [modify_tasks]
        split <;> rfl
  | sleep hop hs hlt hq =>
      subst hs hop
      exact h.sleep hlt hc hq
  | wake _ _ _ hq =>
      refine h.erase (hq h.fits) (.inr ?_) (fun k hk => ?_) fun k hk => ?_
      · simp [woken]
      · simp only [modify_tasks, hk, if_false]
      · simp only [modify_tasks, hk, if_false]
  | pop h0 hq => exact h.pop h0 hq
  | switch _ hready => exact h.switch hready
  | @exit code next q n _ _ hq _ hne hready =>
      have hd : Queued (s.departed code q n) := by
        refine h.erase (i := s.currentIdx) (hq h.fits) (.inl ?_) (fun k hk => ?_) fun k hk => ?_
        · rw [departed_cur]
        · obtain ⟨ppid, hp⟩ := departed_tasks s code q n hk
          rw [hp]
        · obtain ⟨ppid, hp⟩ := departed_tasks s code q n hk
          rw [hp]
      refine hd.switch ?_
      obtain ⟨ppid, hp⟩ := departed_tasks s code q n hne
      rw [leave_tasks, departed_currentIdx, if_neg hne, hp]
      exact hready
  | @kill i q n _ _ _ _ hq =>
      refine h.erase (i := i) (hq h.fits) (.inl ?_) (fun k hk => ?_) fun k hk => ?_
      · have hs := congrArg Task.state (killed_self s i)
        exact hs
      · obtain ⟨ppid, hp⟩ := killed_tasks s i hk
        have hs := congrArg Task.state hp
        exact hs
      · obtain ⟨ppid, hp⟩ := killed_tasks s i hk
        have hw := congrArg Task.wakeupMs hp
        exact hw
  | @create _ slot _ hcr =>
      have hfree : (s.tasks slot).state = .dead := by
        rcases hcr.free with ⟨_, hd⟩ | ⟨hz, _⟩
        · exact hd
        · exact ht.beyond slot (by omega)
      have hq : s'.queue = s.queue := by rw [queue, hcr.sleepQueue, hcr.sleepCount, queue]
      have hno : s.queue.eraseP (SleepEntry.isOf slot) = s.queue := by
        refine List.eraseP_of_forall_not fun e he => ?_
        have hb := (h.entry e he).1
        simp only [SleepEntry.isOf, decide_eq_true_eq]
        rintro rfl
        rw [hfree] at hb
        contradiction
      refine h.erase (hq.trans hno.symm) (.inr hcr.awake) (fun k hk => ?_) fun k hk => ?_
      · obtain ⟨cs, fs, he⟩ := hcr.others k hk
        rw [he]
      · obtain ⟨cs, fs, he⟩ := hcr.others k hk
        rw [he]
  | image _ _ hf =>
      refine h.modify _ fun t => ⟨?_, ?_⟩
      · have hs := congrArg Task.state (hf t)
        exact hs
      · have hw := congrArg Task.wakeupMs (hf t)
        exact hw
  | fpu => exact h.congr rfl (fun _ => rfl) fun _ => rfl

/-! ## what an effect can do to one task -/

/-- The ways in which an effect of `op` can change the state of slot `i`. -/
inductive Moves (s₀ : Sched) (op : Op) (s s' : Sched) (i : Nat) : Prop where
  | same (h : (s'.tasks i).state = (s.tasks i).state)
  | init (hop : op = .init)
  | blocks (hi : i = s₀.currentIdx)
      (hop : op = .blockCurrentTask ∨ (∃ status, op = .waitpid status) ∨ ∃ ms, op = .sleep ms)
      (h : (s'.tasks i).state = .blocked)
  | wakes (hwhy : s₀.Wakes op i) (hb : (s.tasks i).state = .blocked)
    (h : (s'.tasks i).state = .ready)
  | expires (he : ∃ e ∈ s.queue, e.taskId = i) (h : (s'.tasks i).state = .ready)
  | runs (h : (s.tasks i).state = .ready ∨ (s.tasks i).state = .running)
      (h' : (s'.tasks i).state = .ready ∨ (s'.tasks i).state = .running)
  | dies (hwhy : s₀.ends op = some i) (h : (s'.tasks i).state = .dead)
  | born (h : (s.tasks i).state = .dead)

/-- The states a switch changes are READY and RUNNING. -/
theorem switch_moves {next : Nat} (hready : (s.leave.tasks next).state = .ready) (i : Nat) :
    ((s.leave.install next).tasks i).state = (s.tasks i).state ∨
      ((s.tasks i).state = .ready ∨ (s.tasks i).state = .running) ∧
        (((s.leave.install next).tasks i).state = .ready ∨
          ((s.leave.install next).tasks i).state = .running) := by
  have hleft : (s.leave.tasks i).state = (s.tasks i).state ∨
      (s.tasks i).state = .running ∧ (s.leave.tasks i).state = .ready := by
    rw [leave_tasks]
    unfold left
    split
    · split
      · next hr => exact .inr ⟨hr, rfl⟩
      · exact .inl rfl
    · exact .inl rfl
  rw [install_tasks]
  split
  · next hi =>
      right
      subst hi
      refine ⟨?_, .inr rfl⟩
      rcases hleft with he | ⟨hr, _⟩
      · exact .inl (he.symm.trans hready)
      · exact .inr hr
  · rcases hleft with he | ⟨hr, hr'⟩
    · exact .inl he
    · exact .inr ⟨.inr hr, .inl hr'⟩

/-- **Moves**: the state of a task changes in one of these ways only. -/
theorem Effect.moves (he : Effect s₀ op s s') (ht : Table s) (h : Queued s) (i : Nat) :
    Moves s₀ op s s' i := by
  cases he with
  | init hop => exact .init hop
  | quiet hq => exact .same (hq.state i)
  | timer => exact .same rfl
  | notify tasks hu _ =>
      obtain ⟨u, hu⟩ := hu i
      have hs := congrArg Task.state hu
      exact .same hs
  | reap | mark =>
      refine .same ?_
      rw [modify_tasks]
      split <;> rfl
  | block hcur hop =>
      by_cases hi : i = s.currentIdx
      · refine .blocks (hi.trans hcur) ?_ (by simp [hi])
        rcases hop with hop | hop
        · exact .inl hop
        · exact .inr (.inl hop)
      · exact .same (by rw [modify_tasks, if_neg hi])
  | @sleep ms _ _ _ hop hs =>
      by_cases hi : i = s.currentIdx
      · exact .blocks (by rw [hi, hs]) (.inr (.inr ⟨ms, hop⟩)) (by simp [hi])
      · exact .same (by simp [hi])
  | @wake j _ _ _ hwhy _ hb =>
      by_cases hi : i = j
      · subst hi
        exact .wakes hwhy hb (by simp [woken])
      · exact .same (by simp [hi])
  | pop h0 _ =>
      by_cases hi : i = (s.sleepQueue 0).taskId
      · have hmem : s.sleepQueue 0 ∈ s.queue := by
          rw [queue_eq_cons h0]
          exact List.mem_cons_self
        have hb := (h.entry _ hmem).1
        subst hi
        exact .expires ⟨_, hmem, rfl⟩ (by simp [popped, hb])
      · exact .same (by simp [hi])
  | switch _ hready =>
      rcases switch_moves hready i with hs | ⟨hr, hr'⟩
      · exact .same hs
      · exact .runs hr hr'
  | @exit code next q n hcur hwhy _ _ hne hready =>
      by_cases hi : i = s.currentIdx
      · subst hi
        refine .dies hwhy ?_
        rw [exited, install_tasks, if_neg hne.symm, leave_tasks, departed_currentIdx, if_pos rfl,
          departed_cur]
        rfl
      · obtain ⟨ppid, hp⟩ := departed_tasks s code q n hi
        rw [exited] at *
        have hstate : (((s.departed code q n).leave.install next).tasks i).state =
            if i = next then .running else (s.tasks i).state := by
          rw [install_tasks, leave_tasks, departed_currentIdx, if_neg hi, hp]
          split <;> rfl
        by_cases hn : i = next
        · refine .runs (.inl (by rw [hn]; exact hready)) (.inr ?_)
          rw [hstate, if_pos hn]
        · refine .same ?_
          rw [hstate, if_neg hn]
  | @kill j q n _ _ _ hwhy =>
      by_cases hi : i = j
      · subst hi
        have hs := congrArg Task.state (killed_self s i)
        exact .dies hwhy hs
      · obtain ⟨ppid, hp⟩ := killed_tasks s j hi
        have hs := congrArg Task.state hp
        exact .same hs
  | @create _ slot _ hc =>
      by_cases hi : i = slot
      · refine .born ?_
        rw [hi]
        rcases hc.free with ⟨_, hd⟩ | ⟨hz, _⟩
        · exact hd
        · exact ht.beyond slot (by omega)
      · obtain ⟨cs, fs, he⟩ := hc.others i hi
        exact .same (by rw [he])
  | image _ _ hf =>
      refine .same ?_
      rw [modify_tasks]
      split
      · have hs := congrArg Task.state (hf (s.tasks i))
        exact hs
      · rfl
  | fpu => exact .same rfl

/-- **Entries**: only `sleep` adds one, for the task that sleeps. -/
theorem Effect.mem_queue (he : Effect s₀ op s s') (hc : SleepsAwake s₀ op) (h : Queued s)
    {e : SleepEntry} (hmem : e ∈ s'.queue) :
    e ∈ s.queue ∨ ∃ ms, op = .sleep ms ∧
      e = { deadline := add64 s₀.pit.uptimeMs ms, taskId := s₀.currentIdx } := by
  cases he with
  | init =>
      change e ∈ [] at hmem
      contradiction
  | quiet hq =>
      rw [hq.queue] at hmem
      exact .inl hmem
  | @sleep ms q n _ hop hs hlt hq =>
      subst hs hop
      have hroom := h.room hlt (h.no_entry hc)
      rcases (hq.mem hroom).mp hmem with rfl | hmem
      · exact .inr ⟨ms, rfl, rfl⟩
      · exact .inl hmem
  | @wake j q n _ _ _ _ hq =>
      change e ∈ toList q n at hmem
      rw [hq h.fits] at hmem
      exact .inl (List.mem_of_mem_eraseP hmem)
  | @pop q n h0 hq =>
      change e ∈ toList q n at hmem
      rw [hq h0 h.fits] at hmem
      exact .inl (List.mem_of_mem_tail hmem)
  | @exit code next q n _ _ hq =>
      change e ∈ toList q n at hmem
      rw [hq h.fits] at hmem
      exact .inl (List.mem_of_mem_eraseP hmem)
  | @kill j q n _ _ _ _ hq =>
      change e ∈ toList q n at hmem
      rw [hq h.fits] at hmem
      exact .inl (List.mem_of_mem_eraseP hmem)
  | create _ hcr =>
      rw [queue, hcr.sleepQueue, hcr.sleepCount] at hmem
      exact .inl hmem
  | timer | notify | reap | mark | block | switch | image | fpu => exact .inl hmem

/-! ## the wakeup loop -/

/-- **Wakeup loop**: with enough rounds no expired entry is left. -/
theorem wakeExpired_late {now k : Nat} (h : Queued s) (hk : s.sleepCount ≤ k)
    (hw : wakeExpired now k s = .ok s') : ∀ e ∈ s'.queue, now < e.deadline := by
  induction k generalizing s with
  | zero =>
      simp only [wakeExpired, Except.ok.injEq] at hw
      subst hw
      have hnil : s.queue = [] := List.length_eq_zero_iff.mp (by rw [length_queue]; omega)
      simp [hnil]
  | succ k ih =>
      unfold wakeExpired at hw
      split at hw
      · next h0 =>
          rw [read_of_lt (by decide)] at hw
          simp only [bind_eq_ok, Except.ok.injEq, exists_eq_left'] at hw
          split at hw
          · rw [bind_eq_ok] at hw
            obtain ⟨s₁, hp, hw⟩ := hw
            obtain ⟨q, n, hq, rfl⟩ := popSleeper_ok hp
            have hlen := congrArg List.length (hq h0 h.fits)
            rw [length_toList, List.length_tail, length_queue] at hlen
            exact ih (h.pop h0 hq) (show n ≤ k by omega) hw
          · next hlate =>
              simp only [Except.ok.injEq] at hw
              subst hw
              have hs := h.sorted
              rw [queue_eq_cons h0, List.pairwise_cons] at hs
              intro e he
              rw [queue_eq_cons h0, List.mem_cons] at he
              rcases he with rfl | he
              · omega
              · have := hs.1 e he
                omega
      · next h0 =>
          simp only [Except.ok.injEq] at hw
          subst hw
          have hnil : s.queue = [] := List.length_eq_zero_iff.mp (by rw [length_queue]; omega)
          simp [hnil]

theorem reschedule_queue {now e : Nat} (h : s.reschedule now = .ok (e, s')) :
    s'.queue = s.queue := by
  rcases reschedule_ok h with ⟨m, _, rfl⟩ | ⟨next, _, _, _, _, rfl⟩
  · rfl
  · rfl

/-! ## runs -/

theorem Effect.initialized (he : Effect s₀ op s s') (h : s.initialized = true) :
    s'.initialized = true := by
  cases he with
  | init => rfl
  | quiet hq =>
      obtain ⟨_, _, _, _, rfl⟩ := hq.rest
      exact h
  | create _ hc => exact hc.initialized.trans h
  | timer | notify | reap | mark | block | sleep | wake | pop | switch | exit | kill | image
  | fpu =>
      exact h

/-- The three properties every effect keeps. -/
def SleepInv (s : Sched) : Prop := Table s ∧ Queued s ∧ s.initialized = true

theorem Effect.sleepInv (he : Effect s₀ op s s') (hc : SleepsAwake s₀ op) (h : SleepInv s) :
    SleepInv s' :=
  ⟨he.table h.1, he.queued hc h.1 h.2.1, he.initialized h.2.2⟩

theorem reach_sleepInv {tr : List Op} (h : Reach step SleepsAwake s₀.init tr s) : SleepInv s := by
  refine h.inv (P := SleepInv) ⟨init_table s₀, init_queued s₀, rfl⟩ ?_
  intro s op s' hP hc hs
  exact step_inv hP.1.cur_lt hP.1.cur_live (fun _ _ he => he.sleepInv hc) hP hs

/-- No access to the sleep queue fails while the invariant holds. -/
theorem queue_not_stuck (hc : SleepsAwake s₀ op) (a : Sched) (h : SleepInv a) :
    ¬ Stuck s₀ op a .sleepQueueBounds := by
  obtain ⟨ht, hq, _⟩ := h
  have hfits := hq.fits
  intro hst
  cases hst with
  | queue hlong => omega
  | insert hop hs hlong =>
      subst hs hop
      have hlt : a.currentIdx < maxTasks := Nat.lt_of_lt_of_le ht.cur_lt ht.count_le
      have hroom := hq.room hlt (hq.no_entry hc)
      omega

/-- A tick that runs to its end leaves no expired entry. -/
theorem tick_late {esp e : Nat} {intact : Bool} (h : SleepInv s)
    (ht : s.tick esp intact = .ok (some e, s')) : ∀ x ∈ s'.queue, s.pit.uptimeMs < x.deadline := by
  rcases tick_ok ht with ⟨hi, _⟩ | ⟨hr, _⟩ | ⟨_, s₁, s₂, _, _, hq, hw, hr⟩
  · rw [h.2.2] at hi
    contradiction
  · contradiction
  · have hquiet : Effect s .init s s₁ := .quiet hq
    have hq₁ : Queued s₁ := hquiet.queued trivial h.1 h.2.1
    rw [reschedule_queue hr]
    exact wakeExpired_late hq₁ (Nat.le_refl _) hw

/-- **Sleep queue invariant**: in every state reached from `init` while nobody
goes to sleep BLOCKED, the queue fits into its array, is sorted, has no
duplicates and consists of the sleeping tasks with their deadlines; no
operation leaves the array; and a tick at time `now` that runs to its end
leaves no entry with a deadline up to `now`. -/
theorem sleep_queue_invariant {tr : List Op} (h : Reach step SleepsAwake s₀.init tr s) :
    s.sleepCount ≤ maxSleepers ∧
    s.queue.Pairwise (fun a b => a.deadline ≤ b.deadline) ∧
    (s.queue.map SleepEntry.taskId).Nodup ∧
    (∀ e ∈ s.queue, (s.tasks e.taskId).state = .blocked ∧
      (s.tasks e.taskId).wakeupMs = e.deadline) ∧
    (∀ i, (s.tasks i).state ≠ .dead → (s.tasks i).wakeupMs ≠ 0 → ∃ e ∈ s.queue, e.taskId = i) ∧
    (∀ op, SleepsAwake s op → s.step op ≠ .error .sleepQueueBounds) ∧
    ∀ esp frame intact e s', { s with frames := set s.frames esp frame }.tick esp intact =
      .ok (some e, s') → ∀ x ∈ s'.queue, s.pit.uptimeMs < x.deadline := by
  have hP := reach_sleepInv h
  have hq := hP.2.1
  refine ⟨hq.fits, hq.sorted, hq.nodup, hq.entry, hq.sleeper, fun op hc => ?_, ?_⟩
  · exact step_safe (fun _ _ he => he.sleepInv hc) hP (queue_not_stuck hc)
  · intro esp frame intact e s' hs
    have hpush : Effect s .init s { s with frames := set s.frames esp frame } :=
      .quiet (.frames s _)
    have hP' := hpush.sleepInv trivial hP
    have hlate := tick_late hP' hs
    exact hlate

/-- Two tasks go to sleep one after the other, the second one for a shorter
time. -/
def sleepersRun : List Op :=
  [.addTask true 0x1000 0 Task.priorityNormal 0x8000,
    .addTask true 0x2000 0 Task.priorityNormal 0xA000,
    .tick 0 {} true, .pitTick, .tick 0 {} true, .sleep 50, .pitTick, .tick 0 {} true, .sleep 10]

theorem sleep_queue_invariant_sleepersRun :
    ∃ s : Sched, Reach step SleepsAwake (init {}) sleepersRun s ∧
      s.queue = [⟨50, 2⟩, ⟨70, 1⟩] ∧ s.sleepCount ≤ maxSleepers := by
  obtain ⟨s, hr, hp⟩ := Reach.of_runsTo step SleepsAwake (init {}) sleepersRun
    (fun s => s.queue = [⟨50, 2⟩, ⟨70, 1⟩]) (by decide)
  exact ⟨s, hr, of_decide_eq_true hp, (sleep_queue_invariant hr).1⟩

end Sched

end Doors
