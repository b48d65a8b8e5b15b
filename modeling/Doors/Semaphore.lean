import Mathlib.Algebra.Group.Int.Defs
import Doors.Scheduler.SleepQueue

/-!
# Doors.Semaphore

Counting semaphores (`kernel/Semaphore.cc`) over the scheduler.

`SemSys` is the scheduler, one semaphore, and where each task is inside
`wait`: a task that found no permit loops until it is no longer BLOCKED.
`wait`, `signal` and the loop are steps of their own, so that interrupts and
other tasks come in between; `Legal` is the order in which one task executes
its own code.

The waiter queue is edited by `signal` alone.  The permits are conserved as
long as nothing else wakes or ends a task inside `wait` (`Spares`):

* `SemSys.Inv` — the queue consists of distinct BLOCKED tasks inside `wait`,
  and permits, granted waits and returned waits add up;
* `permits_conserved` — the invariant in every such run;
* `permits_not_conserved` — a signal to a waiting task lets `wait` return
  without a permit.
-/

namespace Doors

open Cells Run Scheduler

/-- `int` arithmetic. -/
def int32 (n : Int) : Int := n.bmod (2 ^ 32)

/-- `Scheduler::taskState`. -/
def Sched.taskState (s : Sched) (id : Nat) : Option TaskState :=
  if id < s.taskCount then some (s.tasks id).state else none

/-- The scheduler and one semaphore.  `inWait i` says that the task in slot
`i` is in the loop of `wait`; `returned` and `signals` count the calls. -/
structure SemSys where
  sched : Sched
  count : Int
  waiters : List Nat := []
  inWait : Nat → Bool := fun _ => false
  returned : Nat := 0
  signals : Nat := 0

/-- What can happen. -/
inductive SemOp where
  | wait
  /-- The current task tests the condition of the loop in `wait`. -/
  | loop
  | signal
  | sched (op : Op)

namespace SemSys

def maxWaiters : Nat := maxTasks

/-- `Semaphore(initialCount)` after `Scheduler::init`. -/
def start (s : Sched) (n : Int) : SemSys := { sched := s.init, count := n }

/-- `Semaphore::wait` up to its loop. -/
def wait (m : SemSys) : Except Fault SemSys :=
  if m.count > 0 then .ok { m with count := int32 (m.count - 1), returned := m.returned + 1 }
  else if m.sched.taskCount = 0 then .ok { m with returned := m.returned + 1 }
  else if m.waiters.length ≥ maxWaiters then .error (.panic .semaphoreWaiters)
  else do
    let id := m.sched.currentIdx
    let sched ← m.sched.blockCurrentTask
    .ok { m with sched, waiters := m.waiters ++ [id], inWait := set m.inWait id true }

/-- The loop of `wait`: the call returns once the task is not BLOCKED. -/
def loop (m : SemSys) : SemSys :=
  let id := m.sched.currentIdx
  if m.inWait id ∧ m.sched.taskState id ≠ some .blocked then
    { m with inWait := set m.inWait id false, returned := m.returned + 1 }
  else m

/-- `Semaphore::signal`. -/
def signal (m : SemSys) : Except Fault SemSys :=
  match m.waiters with
  | id :: rest => do
      let sched ← m.sched.unblockTask id
      .ok { m with sched, waiters := rest, signals := m.signals + 1 }
  | [] => .ok { m with count := int32 (m.count + 1), signals := m.signals + 1 }

/-- One step.  A task that dies is no longer inside `wait`. -/
def step (m : SemSys) : SemOp → Except Fault SemSys
  | .wait => m.wait
  | .loop => .ok m.loop
  | .signal => m.signal
  | .sched op => do
      let sched ← m.sched.step op
      .ok { m with sched, inWait := fun i => m.inWait i && (sched.tasks i).state ≠ .dead }

/-! ## the order of execution -/

/-- Operations that interrupt handlers perform, whatever the current task is
doing. -/
def atInterrupt : Op → Bool
  | .pitTick | .tick _ _ _ | .unblockTask _ | .sendSignal _ _ | .killTask _ => true
  | _ => false

/-- The scheduler is not initialised again, and the current task calls
something only when it is neither BLOCKED nor in the loop of `wait`. -/
def Legal (m : SemSys) : SemOp → Prop
  | .wait => m.sched.cur.state ≠ .blocked ∧ m.inWait m.sched.currentIdx = false
  | .loop | .signal => True
  | .sched .init => False
  | .sched op => atInterrupt op = true ∨
      m.sched.cur.state ≠ .blocked ∧ m.inWait m.sched.currentIdx = false

/-- Nothing but `signal` wakes or ends a task inside `wait`, and `signal` does
not overflow the count. -/
def Spares (m : SemSys) : SemOp → Prop
  | .sched op => ∀ i < maxTasks, m.inWait i = true →
      m.sched.ends op ≠ some i ∧ ¬ m.sched.Wakes op i
  | .signal => m.waiters = [] → m.count < 2 ^ 31 - 1
  | _ => True

instance (m : SemSys) (op : SemOp) : Decidable (m.Legal op) := by
  match op with
  | .wait | .loop | .signal => unfold Legal; infer_instance
  | .sched op => apply @Op.casesOn _ op <;> intros <;> unfold Legal <;> infer_instance

instance (m : SemSys) (op : SemOp) : Decidable (m.Spares op) := by
  apply @SemOp.casesOn _ op <;> intros <;> unfold Spares <;> infer_instance

/-! ## the property -/

/-- Permits are conserved: no `wait` returned without a permit, the queue is
made of distinct live BLOCKED tasks that are inside `wait`, and while nobody
is inside `wait` the count is what is left. -/
structure Conserved (n : Int) (m : SemSys) : Prop where
  returned : (m.returned : Int) ≤ n + m.signals
  nodup : m.waiters.Nodup
  waiting : ∀ i ∈ m.waiters, m.inWait i = true ∧ (m.sched.tasks i).state = .blocked
  left : (∀ i, m.inWait i = false) → m.count = n + m.signals - m.returned

/-! ## the invariant -/

/-- Tasks inside `wait` that have been given a permit and not returned yet. -/
def granted (m : SemSys) : Nat :=
  (List.range maxTasks).countP fun i => m.inWait i && !m.waiters.contains i

/-- The invariant of runs that spare the tasks inside `wait`. -/
structure Inv (n : Int) (m : SemSys) : Prop where
  sleep : m.sched.SleepInv
  nodup : m.waiters.Nodup
  waiting : ∀ i ∈ m.waiters, m.inWait i = true ∧ (m.sched.tasks i).state = .blocked
  awake : ∀ i ∈ m.waiters, ∀ e ∈ m.sched.queue, e.taskId ≠ i
  alive : ∀ i, m.inWait i = true → i < maxTasks ∧ (m.sched.tasks i).state ≠ .dead
  count_nonneg : 0 ≤ m.count
  count_lt : m.count < 2 ^ 31
  balance : m.count + m.returned + m.granted = n + m.signals

variable {n : Int} {m m' : SemSys}

theorem Inv.conserved (h : Inv n m) : Conserved n m := by
  have hb := h.balance
  have hc := h.count_nonneg
  refine ⟨by omega, h.nodup, h.waiting, fun hnone => ?_⟩
  have h0 : m.granted = 0 := by
    unfold granted
    rw [List.countP_eq_zero]
    intro i _
    simp [hnone i]
  omega

/-- A number in range is itself. -/
theorem int32_of_range {k : Int} (h0 : 0 ≤ k) (h1 : k < 2 ^ 31) : int32 k = k := by
  unfold int32
  rw [Int.bmod_eq_of_le] <;> omega

/-- Turning a predicate on at one element of a list without duplicates adds
one to the count. -/
theorem countP_flip {l : List Nat} (hn : l.Nodup) {i : Nat} (hi : i ∈ l) {p q : Nat → Bool}
    (hp : p i = false) (hq : q i = true) (hsame : ∀ j, j ≠ i → p j = q j) :
    l.countP q = l.countP p + 1 := by
  induction l with
  | nil => contradiction
  | cons a l ih =>
      rw [List.nodup_cons] at hn
      rw [List.countP_cons, List.countP_cons]
      by_cases ha : a = i
      · subst ha
        have hrest : l.countP q = l.countP p := by
          refine List.countP_congr fun j hj => ?_
          rw [hsame j (by rintro rfl; exact hn.1 hj)]
        simp [hp, hq, hrest]
      · have hil : i ∈ l := by
          rcases List.mem_cons.mp hi with h | h
          · exact absurd h.symm ha
          · exact h
        rw [ih hn.2 hil, hsame a ha]
        omega

/-- One more task is let through. -/
theorem granted_flip (m m' : SemSys) {i : Nat} (hi : i < maxTasks)
    (hold : (m.inWait i && !m.waiters.contains i) = false)
    (hnew : (m'.inWait i && !m'.waiters.contains i) = true)
    (hsame : ∀ j, j ≠ i → m.inWait j = m'.inWait j ∧ (j ∈ m.waiters ↔ j ∈ m'.waiters)) :
    m'.granted = m.granted + 1 := by
  refine countP_flip List.nodup_range (List.mem_range.mpr hi) hold hnew fun j hj => ?_
  obtain ⟨h1, h2⟩ := hsame j hj
  have h3 : m.waiters.contains j = m'.waiters.contains j := by
    rw [Bool.eq_iff_iff, List.contains_iff_mem, List.contains_iff_mem]
    exact h2
  rw [h1, h3]

/-- A new semaphore. -/
theorem start_inv (s : Sched) (h0 : 0 ≤ n) (h1 : n < 2 ^ 31) : Inv n (start s n) where
  sleep := ⟨Sched.init_table s, Sched.init_queued s, rfl⟩
  nodup := .nil
  waiting := by simp [start]
  awake := by simp [start]
  alive := by simp [start]
  count_nonneg := h0
  count_lt := h1
  balance := by
    have hg : (start s n).granted = 0 := by simp [granted, start]
    rw [hg]
    simp [start]

/-! ## wait, loop and signal -/

/-- A call of `wait`. -/
theorem wait_inv (h : Inv n m) (hl : m.Legal .wait) (hs : m.wait = .ok m') : Inv n m' := by
  obtain ⟨hnb, hout⟩ := hl
  have hbal := h.balance
  have hc := h.count_nonneg
  have hlt := h.count_lt
  have htab := h.sleep.1
  unfold wait at hs
  split at hs
  · next hpos =>
      simp only [Except.ok.injEq] at hs
      subst hs
      have hcount : int32 (m.count - 1) = m.count - 1 := int32_of_range (by omega) (by omega)
      refine ⟨h.sleep, h.nodup, h.waiting, h.awake, h.alive, ?_, ?_, ?_⟩
      · dsimp only
        omega
      · dsimp only
        omega
      · have hg : granted { m with count := int32 (m.count - 1), returned := m.returned + 1 } =
          m.granted := rfl
        rw [hg]
        dsimp only
        push_cast
        omega
  split at hs
  · next h0 =>
      have := htab.cur_lt
      omega
  split at hs
  · contradiction
  · rw [bind_eq_ok] at hs
    obtain ⟨sched, hb, hs⟩ := hs
    simp only [Except.ok.injEq] at hs
    obtain ⟨hcur, rfl⟩ := Sched.blockOr_ok hb
    subst hs
    have hnew : m.sched.currentIdx ∉ m.waiters := by
      intro hin
      rw [(h.waiting _ hin).1] at hout
      contradiction
    have hblock : Sched.Effect m.sched .blockCurrentTask m.sched
        (m.sched.modify m.sched.currentIdx fun t => { t with state := .blocked }) :=
      .block rfl (.inl rfl)
    refine ⟨hblock.sleepInv trivial h.sleep, ?_, ?_, ?_, ?_,
      hc, hlt, ?_⟩
    · rw [List.nodup_append]
      refine ⟨h.nodup, by simp, ?_⟩
      intro a ha b hb hab
      rw [List.mem_singleton] at hb
      rw [hab, hb] at ha
      exact hnew ha
    · intro i hi
      rcases List.mem_append.mp hi with hi | hi
      · have hne : i ≠ m.sched.currentIdx := by
          rintro rfl
          exact hnew hi
        obtain ⟨h1, h2⟩ := h.waiting i hi
        refine ⟨(set_of_ne m.inWait true hne).trans h1, ?_⟩
        rw [Sched.modify_tasks, if_neg hne]
        exact h2
      · rw [List.mem_singleton] at hi
        subst hi
        simp
    · intro i hi e he
      rcases List.mem_append.mp hi with hi | hi
      · exact h.awake i hi e he
      · rw [List.mem_singleton] at hi
        subst hi
        intro hid
        have hb := (h.sleep.2.1.entry e he).1
        rw [hid] at hb
        exact hnb hb
    · intro i hi
      by_cases hic : i = m.sched.currentIdx
      · subst hic
        exact ⟨hcur, by simp⟩
      · dsimp only at hi
        rw [set_of_ne _ _ hic] at hi
        rw [Sched.modify_tasks, if_neg hic]
        exact h.alive i hi
    · have hg : granted { m with
          sched := m.sched.modify m.sched.currentIdx fun t => { t with state := .blocked }
          waiters := m.waiters ++ [m.sched.currentIdx]
          inWait := set m.inWait m.sched.currentIdx true } = m.granted := by
        unfold granted
        refine List.countP_congr fun i _ => ?_
        by_cases hic : i = m.sched.currentIdx
        · subst hic
          simp [hout]
        · simp [set_of_ne _ _ hic, hic]
      rw [hg]
      exact hbal

/-- A round of the loop in `wait`. -/
theorem loop_inv (h : Inv n m) : Inv n m.loop := by
  unfold loop
  dsimp only
  split
  · next hc =>
      obtain ⟨hin, hstate⟩ := hc
      have hlt := h.sleep.1.cur_lt
      have hnb : (m.sched.tasks m.sched.currentIdx).state ≠ .blocked := by
        simpa [Sched.taskState, hlt] using hstate
      have hout : m.sched.currentIdx ∉ m.waiters := fun hw => hnb (h.waiting _ hw).2
      have hne : ∀ i ∈ m.waiters, i ≠ m.sched.currentIdx := by
        rintro i hi rfl
        exact hout hi
      refine ⟨h.sleep, h.nodup, fun i hi => ?_, h.awake, fun i hi => ?_, h.count_nonneg,
        h.count_lt, ?_⟩
      · dsimp only
        rw [set_of_ne _ _ (hne i hi)]
        exact h.waiting i hi
      · dsimp only at hi
        by_cases hic : i = m.sched.currentIdx
        · rw [hic, set_self] at hi
          contradiction
        · rw [set_of_ne _ _ hic] at hi
          exact h.alive i hi
      · have hg := granted_flip { m with
            inWait := set m.inWait m.sched.currentIdx false, returned := m.returned + 1 } m
          (h.alive _ hin).1 (by simp) (by simp [hin, hout])
          (fun j hj => ⟨set_of_ne _ _ hj, Iff.rfl⟩)
        have hb := h.balance
        rw [hg] at hb
        dsimp only
        push_cast at hb ⊢
        omega
  · exact h

/-- What `signal` does to the scheduler: one task may be woken. -/
theorem signal_frame {s s' : Sched} {id : Nat} (h : s.SleepInv) (hu : s.unblockTask id = .ok s') :
    s'.SleepInv ∧ (∀ i, i ≠ id → (s'.tasks i).state = (s.tasks i).state) ∧
      (∀ e ∈ s'.queue, e ∈ s.queue) ∧
      ∀ i, (s.tasks i).state ≠ .dead → (s'.tasks i).state ≠ .dead := by
  rcases Sched.unblockTask_ok hu with rfl | ⟨j, q, k, p, hj, hjlt, hb, hq, hp, rfl⟩
  · exact ⟨h, fun _ _ => rfl, fun _ he => he, fun _ hi => hi⟩
  obtain rfl : id = j := by omega
  have hwake : Sched.Effect s (.unblockTask id) s
      { s.modify id Sched.woken with sleepQueue := q, sleepCount := k, pit := p } :=
    .wake (.inl rfl) hjlt hb hq hp
  refine ⟨hwake.sleepInv trivial h, ?_, ?_, ?_⟩
  · intro i hi
    simp only [Sched.modify_tasks, hi, if_false]
  · intro e he
    have hqueue := hq h.2.1.fits
    change e ∈ toList q k at he
    rw [hqueue] at he
    exact List.mem_of_mem_eraseP he
  · intro i hi
    simp only [Sched.modify_tasks]
    split
    · simp [Sched.woken]
    · exact hi

/-- A call of `signal`. -/
theorem signal_inv (h : Inv n m) (hsp : m.Spares .signal) (hs : m.signal = .ok m') : Inv n m' := by
  have hbal := h.balance
  have hc := h.count_nonneg
  have hlt := h.count_lt
  unfold signal at hs
  split at hs
  · next id rest hw =>
      rw [bind_eq_ok] at hs
      obtain ⟨sched, hu, hs⟩ := hs
      simp only [Except.ok.injEq] at hs
      subst hs
      have hnodup := h.nodup
      rw [hw, List.nodup_cons] at hnodup
      have hid : id ∈ m.waiters := by
        rw [hw]
        exact List.mem_cons_self
      have hrest : ∀ i ∈ rest, i ∈ m.waiters := by
        intro i hi
        rw [hw]
        exact List.mem_cons_of_mem id hi
      have hin := (h.waiting id hid).1
      obtain ⟨hsleep, hother, hqueue, halive⟩ := signal_frame h.sleep hu
      refine ⟨hsleep, hnodup.2, fun i hi => ?_, fun i hi e he => ?_, fun i hi => ?_, hc, hlt, ?_⟩
      · obtain ⟨h1, h2⟩ := h.waiting i (hrest i hi)
        refine ⟨h1, (hother i ?_).trans h2⟩
        rintro rfl
        exact hnodup.1 hi
      · exact h.awake i (hrest i hi) e (hqueue e he)
      · exact ⟨(h.alive i hi).1, halive i (h.alive i hi).2⟩
      · have hg := granted_flip m { m with sched, waiters := rest, signals := m.signals + 1 }
          (h.alive id hin).1
          (by simp [hid]) (by simp [hin, hnodup.1])
          (fun j hj => ⟨rfl, by simp [hw, hj]⟩)
        rw [hg]
        dsimp only
        push_cast
        omega
  · next hw =>
      simp only [Except.ok.injEq] at hs
      subst hs
      have hmax := hsp hw
      have hcount : int32 (m.count + 1) = m.count + 1 := int32_of_range (by omega) (by omega)
      refine ⟨h.sleep, h.nodup, h.waiting, h.awake, h.alive, ?_, ?_, ?_⟩
      · dsimp only
        omega
      · dsimp only
        omega
      · have hg : granted { m with count := int32 (m.count + 1), signals := m.signals + 1 } =
          m.granted := rfl
        rw [hg]
        dsimp only
        push_cast
        omega

/-! ## the scheduler -/

/-- What an operation of the scheduler has to leave to the tasks inside
`wait`. -/
structure Waits (m : SemSys) (s : Sched) : Prop where
  sleep : s.SleepInv
  blocked : ∀ i ∈ m.waiters, (s.tasks i).state = .blocked
  awake : ∀ i ∈ m.waiters, ∀ e ∈ s.queue, e.taskId ≠ i
  alive : ∀ i, m.inWait i = true → (s.tasks i).state ≠ .dead

/-- **Waiters step**: an effect of an operation that spares the tasks inside
`wait` leaves them where they are. -/
theorem effect_waits {op : Op} (hl : m.Legal (.sched op)) (hsp : m.Spares (.sched op))
    (hin : ∀ i ∈ m.waiters, m.inWait i = true) (hlt : ∀ i, m.inWait i = true → i < maxTasks)
    (a b : Sched) (he : Sched.Effect m.sched op a b) (h : Waits m a) : Waits m b := by
  -- a call of the current task: it is not inside `wait`
  have hcall : atInterrupt op = false → m.sched.cur.state ≠ .blocked ∧
      m.inWait m.sched.currentIdx = false := by
    intro hirq
    cases op with
    | init => exact absurd hl id
    | addTask | addUserElfTask | fork | exec | pitTick | tick | sleep | blockCurrentTask
    | unblockTask
    | sendSignal | killTask | exitCurrentTask | setUnblockOnExit | waitpid | waitpidResume
    | deliverSignals | fpu =>
        rcases hl with hl | hl
        · rw [hirq] at hl
          contradiction
        · exact hl
  have hawake : Sched.SleepsAwake m.sched op := by
    cases op with
    | sleep ms => exact (hcall rfl).1
    | init | addTask | addUserElfTask | fork | exec | pitTick | tick | blockCurrentTask
    | unblockTask
    | sendSignal | killTask | exitCurrentTask | setUnblockOnExit | waitpid | waitpidResume
    | deliverSignals | fpu => trivial
  have hspare : ∀ i, m.inWait i = true → m.sched.ends op ≠ some i ∧ ¬ m.sched.Wakes op i :=
    fun i hi => hsp i (hlt i hi) hi
  have hmove : ∀ i, m.inWait i = true → (b.tasks i).state ≠ .dead ∧
      (i ∈ m.waiters → (b.tasks i).state = .blocked) := by
    intro i hi
    have hlive := h.alive i hi
    cases he.moves h.sleep.1 h.sleep.2.1 i with
    | same hs =>
        rw [hs]
        exact ⟨hlive, h.blocked i⟩
    | init hop =>
        subst hop
        exact absurd hl id
    | blocks hcur hop hb =>
        have hout : m.inWait m.sched.currentIdx = false := by
          rcases hop with rfl | ⟨_, rfl⟩ | ⟨_, rfl⟩
          · exact (hcall rfl).2
          · exact (hcall rfl).2
          · exact (hcall rfl).2
        rw [hcur, hout] at hi
        contradiction
    | wakes hwhy => exact absurd hwhy (hspare i hi).2
    | expires hentry hr =>
        refine ⟨by rw [hr]; decide, fun hw => ?_⟩
        obtain ⟨e, he, hid⟩ := hentry
        exact absurd hid (h.awake i hw e he)
    | runs hr hr' =>
        refine ⟨by rcases hr' with hr' | hr' <;> rw [hr'] <;> decide, fun hw => ?_⟩
        rw [h.blocked i hw] at hr
        rcases hr with hr | hr <;> contradiction
    | dies hwhy => exact absurd hwhy (hspare i hi).1
    | born hd => exact absurd hd hlive
  refine ⟨he.sleepInv hawake h.sleep, fun i hi => (hmove i (hin i hi)).2 hi, ?_, fun i hi =>
    (hmove i hi).1⟩
  intro i hi e hmem
  rcases he.mem_queue hawake h.sleep.2.1 hmem with hold | ⟨ms, rfl, rfl⟩
  · exact h.awake i hi e hold
  · rintro rfl
    have hout := (hcall rfl).2
    rw [hin _ hi] at hout
    contradiction

/-- A step of the scheduler. -/
theorem sched_inv {op : Op} (h : Inv n m) (hl : m.Legal (.sched op)) (hsp : m.Spares (.sched op))
    (hs : m.step (.sched op) = .ok m') : Inv n m' := by
  simp only [step, bind_eq_ok] at hs
  obtain ⟨sched, hstep, hs⟩ := hs
  simp only [Except.ok.injEq] at hs
  subst hs
  have hwaits : Waits m sched := by
    refine Sched.step_inv (P := Waits m) h.sleep.1.cur_lt h.sleep.1.cur_live
      (effect_waits hl hsp (fun i hi => (h.waiting i hi).1) fun i hi => (h.alive i hi).1) ?_ hstep
    exact ⟨h.sleep, fun i hi => (h.waiting i hi).2, h.awake, fun i hi => (h.alive i hi).2⟩
  have hsame : (fun i => m.inWait i && (sched.tasks i).state ≠ .dead) = m.inWait := by
    funext i
    by_cases hi : m.inWait i = true
    · simp [hi, hwaits.alive i hi]
    · simp [hi]
  have hlive : ∀ i, m.inWait i = true → i < maxTasks ∧ (sched.tasks i).state ≠ .dead :=
    fun i hi => ⟨(h.alive i hi).1, hwaits.alive i hi⟩
  simp only [hsame]
  exact ⟨hwaits.sleep, h.nodup, fun i hi => ⟨(h.waiting i hi).1, hwaits.blocked i hi⟩, hwaits.awake,
    hlive, h.count_nonneg, h.count_lt, h.balance⟩

/-! ## runs -/

/-- **Permits**: in every run in which each task executes its own code in
order, nothing but `signal` wakes or ends a task inside `wait` and the count
does not overflow, the permits are conserved. -/
theorem permits_conserved {s₀ : Sched} {tr : List SemOp} (h0 : 0 ≤ n) (h1 : n < 2 ^ 31)
    (h : Reach step (fun m op => m.Legal op ∧ m.Spares op) (start s₀ n) tr m) : Conserved n m := by
  refine Inv.conserved (h.inv (P := Inv n) (start_inv s₀ h0 h1) ?_)
  intro m op m' hI hc hs
  cases op with
  | wait => exact wait_inv hI hc.1 hs
  | loop =>
      simp only [step, Except.ok.injEq] at hs
      rw [← hs]
      exact loop_inv hI
  | signal => exact signal_inv hI hc.2 hs
  | sched op => exact sched_inv hI hc.1 hc.2 hs

/-- Task 1 waits on an empty semaphore, which the idle task signals later. -/
def handoverRun : List SemOp :=
  [.sched (.addTask true 0x1000 0 Task.priorityNormal 0x8000), .sched (.tick 0 {} true),
    .sched .pitTick, .sched (.tick 0 {} true), .wait, .sched .pitTick, .sched (.tick 0 {} true),
    .signal, .sched .pitTick, .sched (.tick 0 {} true), .sched .pitTick, .sched (.tick 0 {} true),
    .loop]

/-- A permit is handed over to a task that waits. -/
theorem permits_conserved_handoverRun :
    ∃ m, Reach step (fun m op => m.Legal op ∧ m.Spares op) (start {} 0) handoverRun m ∧
      m.returned = 1 ∧ Conserved 0 m := by
  obtain ⟨m, hr, hp⟩ := Reach.of_runsTo step (fun m op => m.Legal op ∧ m.Spares op) (start {} 0)
    handoverRun (fun m => m.returned = 1) (by decide)
  exact ⟨m, hr, of_decide_eq_true hp, permits_conserved (by decide) (by decide) hr⟩

/-- Task 1, with pid 0, waits on an empty semaphore and is sent a signal. -/
def spuriousRun : List SemOp :=
  [.sched (.addTask true 0x1000 0 Task.priorityNormal 0x8000), .sched (.tick 0 {} true),
    .sched .pitTick, .sched (.tick 0 {} true), .wait, .sched (.sendSignal 0 2), .loop]

/-- A wait returns although the semaphore was empty and never signalled. -/
theorem permits_not_conserved :
    ∃ m, Reach step Legal (start {} 0) spuriousRun m ∧ ¬ Conserved 0 m := by
  obtain ⟨m, hr, hp⟩ := Reach.of_runsTo step Legal (start {} 0) spuriousRun
    (fun m => m.returned = 1 ∧ m.signals = 0) (by decide)
  obtain ⟨h1, h2⟩ := of_decide_eq_true hp
  refine ⟨m, hr, fun hc => ?_⟩
  have := hc.returned
  omega

end SemSys

end Doors
