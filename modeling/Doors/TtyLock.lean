import Doors.Semaphore
import Doors.Scheduler.Bystander

/-!
# Doors.TtyLock

Who holds the terminal lock.

Every terminal operation is `Tty::lock`, its body, `Tty::unlock`; the lock is a
semaphore with one permit.  `LockSys` records which tasks are between the two.
A task can be preempted there, and it can be ended there: by a signal that the
timer interrupt delivers, by `SIGKILL` and by `killTask`.

The code ends a task in three ways that can strike inside a terminal operation:
`killTask`, `SIGKILL` and a tick that delivers a signal without a handler.
`Unstruck` says, for each of them, which task it would find and what it would
find there.

* `holders_alive_iff` — as long as every step is `Unstruck` no DEAD task holds the
  lock, and the first step that is not leaves a DEAD holder behind;
* `holder_killed` — a task that is killed inside a terminal operation.
-/

namespace Doors

open Cells Run

/-- The terminal lock; `holds i` says that the task in slot `i` acquired it and
has not released it. -/
structure LockSys where
  sem : SemSys
  holds : Nat → Bool := fun _ => false

namespace LockSys

/-- `Tty::lock_(1)` after `Scheduler::init`. -/
def start (s : Sched) : LockSys := { sem := SemSys.start s 1 }

/-- The current task acquires the lock if its `wait` returned. -/
def acquired (m : LockSys) (sem : SemSys) : LockSys :=
  { sem, holds :=
      if m.sem.returned < sem.returned then set m.holds m.sem.sched.currentIdx true else m.holds }

/-- One step.  The holder in a slot is forgotten when the slot gets a new
task. -/
def step (m : LockSys) : SemOp → Except Fault LockSys
  | .wait => do
      let sem ← m.sem.step .wait
      .ok (m.acquired sem)
  | .loop => do
      let sem ← m.sem.step .loop
      .ok (m.acquired sem)
  | .signal => do
      let sem ← m.sem.step .signal
      .ok { sem, holds := set m.holds m.sem.sched.currentIdx false }
  | .sched op => do
      let sem ← m.sem.step (.sched op)
      .ok { sem, holds := fun i =>
        m.holds i && ((m.sem.sched.tasks i).state ≠ .dead || (sem.sched.tasks i).state = .dead) }

/-- A terminal operation locks once and unlocks once, and does nothing of its
own accord in between. -/
def Legal (m : LockSys) : SemOp → Prop
  | .wait => m.sem.Legal .wait ∧ m.holds m.sem.sched.currentIdx = false
  | .loop => True
  | .signal => m.holds m.sem.sched.currentIdx = true
  | .sched op => m.sem.Legal (.sched op) ∧
      (SemSys.atInterrupt op = true ∨ m.holds m.sem.sched.currentIdx = false)

/-- What the current task has pending first, if it is a user task, has a handler. -/
def Handled (s : Sched) : Prop :=
  s.cur.userStackPageCount = 0 ∨ ∀ sig < Task.signalMax, Sched.lowestPending s.cur = some sig →
    s.cur.signalHandlers sig ≠ 0

/-- The operations that can end a task find no terminal operation under way: `killTask`
in the slot it is called with (unless that is the caller's own), `SIGKILL` in the
slot of the pid, and a tick in the task it interrupts (unless a handler takes the
signal). -/
def Unstruck (m : LockSys) : SemOp → Prop
  | .sched (.killTask id) => 0 ≤ id → id ≠ m.sem.sched.currentIdx → m.holds id.toNat = false
  | .sched (.sendSignal pid sig) =>
      sig = Task.sigkill → ∀ i < Scheduler.maxTasks, m.sem.sched.findTarget pid = some i →
        m.holds i = false
  | .sched (.tick _ _ _) =>
      m.sem.sched.initialized = true → m.holds m.sem.sched.currentIdx = true → Handled m.sem.sched
  | _ => True

instance (m : LockSys) (op : SemOp) : Decidable (m.Legal op) := by
  apply @SemOp.casesOn _ op <;> intros <;> unfold Legal <;> infer_instance

instance (s : Sched) : Decidable (Handled s) := inferInstanceAs (Decidable (_ ∨ _))

instance (m : LockSys) (op : SemOp) : Decidable (m.Unstruck op) := by
  match op with
  | .sched op => apply @Op.casesOn _ op <;> intros <;> unfold Unstruck <;> infer_instance
  | .wait | .loop | .signal => exact inferInstanceAs (Decidable True)

/-- No DEAD task holds the lock. -/
def HoldersAlive (m : LockSys) : Prop := ∀ i, (m.sem.sched.tasks i).state = .dead →
    m.holds i = false

variable {m m' : LockSys}

/-! ## the invariant -/

/-- What holds between the effects of an operation. -/
structure Alive (holds : Nat → Bool) (s : Sched) : Prop where
  sleep : s.SleepInv
  alive : ∀ i, holds i = true → (s.tasks i).state ≠ .dead

/-- An operation that ends no holder keeps the holders alive. -/
theorem step_alive {holds : Nat → Bool} {s s' : Sched} {op : Op} (h : Alive holds s)
    (hawake : s.SleepsAwake op) (hinit : op ≠ .init)
    (hends : ∀ i, s.ends op = some i → holds i = false)
    (hs : s.step op = .ok s') : Alive holds s' := by
  refine Sched.step_inv (P := Alive holds) h.sleep.1.cur_lt h.sleep.1.cur_live ?_ h hs
  intro a b he ha
  refine ⟨he.sleepInv hawake ha.sleep, fun i hi => ?_⟩
  have hlive := ha.alive i hi
  cases he.moves ha.sleep.1 ha.sleep.2.1 i with
  | same hs => rwa [hs]
  | init hop => exact absurd hop hinit
  | blocks _ _ hb =>
      rw [hb]
      decide
  | wakes _ _ hr =>
      rw [hr]
      decide
  | expires _ hr =>
      rw [hr]
      decide
  | runs _ hr => rcases hr with hr | hr <;> rw [hr] <;> decide
  | dies hwhy =>
      rw [hends i hwhy] at hi
      contradiction
  | born hd => exact absurd hd hlive

/-- The current task is alive when it acquires the lock. -/
theorem Alive.acquire {holds : Nat → Bool} {s : Sched} {c : Prop} [Decidable c] (h : Alive holds s)
    (i : Nat)
    (hi : (if c then set holds s.currentIdx true else holds) i = true) :
    (s.tasks i).state ≠ .dead := by
  split at hi
  · by_cases hcur : i = s.currentIdx
    · rw [hcur]
      exact h.sleep.1.cur_live
    · rw [set_of_ne _ _ hcur] at hi
      exact h.alive i hi
  · exact h.alive i hi

theorem wait_alive (h : Alive m.holds m.sem.sched) (hs : m.step .wait = .ok m') :
    Alive m'.holds m'.sem.sched := by
  simp only [step, SemSys.step, bind_eq_ok] at hs
  obtain ⟨sem, hwait, hs⟩ := hs
  rw [← Except.ok.inj hs]
  unfold SemSys.wait at hwait
  split at hwait
  · rw [← Except.ok.inj hwait]
    exact ⟨h.sleep, h.acquire⟩
  split at hwait
  · rw [← Except.ok.inj hwait]
    exact ⟨h.sleep, h.acquire⟩
  split at hwait
  · contradiction
  · rw [bind_eq_ok] at hwait
    obtain ⟨sched, hblock, hwait⟩ := hwait
    rw [← Except.ok.inj hwait]
    have hstep : m.sem.sched.step .blockCurrentTask = .ok sched := hblock
    have hawake : m.sem.sched.SleepsAwake .blockCurrentTask := trivial
    have hnext : Alive m.holds sched :=
      step_alive h hawake (by simp) (fun _ hi => by contradiction) hstep
    refine ⟨hnext.sleep, ?_⟩
    simpa [acquired] using hnext.alive

theorem loop_alive (h : Alive m.holds m.sem.sched) (hs : m.step .loop = .ok m') :
    Alive m'.holds m'.sem.sched := by
  simp only [step, SemSys.step, bind_eq_ok] at hs
  obtain ⟨sem, hloop, hs⟩ := hs
  rw [← Except.ok.inj hs, ← Except.ok.inj hloop]
  unfold SemSys.loop
  dsimp only
  split
  · exact ⟨h.sleep, h.acquire⟩
  · refine ⟨h.sleep, ?_⟩
    simpa [acquired] using h.alive

theorem signal_alive (h : Alive m.holds m.sem.sched) (hs : m.step .signal = .ok m') :
    Alive m'.holds m'.sem.sched := by
  simp only [step, SemSys.step, bind_eq_ok] at hs
  obtain ⟨sem, hsignal, hs⟩ := hs
  rw [← Except.ok.inj hs]
  have hnext : Alive m.holds sem.sched := by
    unfold SemSys.signal at hsignal
    split at hsignal
    · rw [bind_eq_ok] at hsignal
      obtain ⟨sched, hwake, hsignal⟩ := hsignal
      rw [← Except.ok.inj hsignal]
      obtain ⟨hsleep, _, _, hlive⟩ := SemSys.signal_frame h.sleep hwake
      exact ⟨hsleep, fun i hi => hlive i (h.alive i hi)⟩
    · rw [← Except.ok.inj hsignal]
      exact h
  refine ⟨hnext.sleep, fun i hi => hnext.alive i ?_⟩
  change set m.holds m.sem.sched.currentIdx false i = true at hi
  by_cases hcur : i = m.sem.sched.currentIdx
  · rw [hcur, set_self] at hi
    contradiction
  · rwa [set_of_ne _ _ hcur] at hi

/-- A tick dooms the current task exactly when nothing handles its signal. -/
theorem doomed_iff (s : Sched) : s.doomed = true ↔ ¬ Handled s := by
  unfold Handled Sched.doomed
  rw [Bool.and_eq_true, decide_eq_true_eq, not_or]
  refine and_congr_right fun _ => ?_
  cases hsig : Sched.lowestPending s.cur with
  | none => simp
  | some sig =>
      have hlt : sig < Task.signalMax := by
        have hmem := List.mem_of_find?_eq_some hsig
        rw [List.mem_range'_1] at hmem
        unfold Task.signalMax at *
        omega
      simp [hlt]

/-- **Blows**: among the legal steps, those that end a task inside a terminal
operation are the ones that are not `Unstruck`. -/
theorem unstruck_iff {op : Op} (h : Alive m.holds m.sem.sched) (hl : m.Legal (.sched op)) :
    m.Unstruck (.sched op) ↔ ∀ i, m.sem.sched.ends op = some i → m.holds i = false := by
  have htable := h.sleep.1
  have hcur : SemSys.atInterrupt op = false → m.holds m.sem.sched.currentIdx = false := by
    intro hop
    rcases hl.2 with hirq | hcur
    · rw [hop] at hirq
      contradiction
    · exact hcur
  cases op with
  | killTask id =>
      simp only [Unstruck, Sched.ends]
      constructor
      · intro hsafe i hi
        split at hi
        · next hc =>
            obtain rfl := Option.some.inj hi
            exact hsafe hc.1 hc.2.2.1
        · contradiction
      · intro hends h0 hne
        by_contra hholds
        have hlive := h.alive id.toNat (by simpa using hholds)
        have hlt : id.toNat < m.sem.sched.taskCount := by
          by_contra hge
          exact hlive (htable.beyond _ (by omega))
        exact hholds (hends _ (if_pos ⟨h0, by omega, hne, hlive⟩))
  | sendSignal pid sig =>
      simp only [Unstruck, Sched.ends]
      constructor
      · intro hsafe i hi
        split at hi
        · next hk =>
            obtain ⟨-, hlt, -, -⟩ := Sched.findTarget_some hi
            exact hsafe hk i (Nat.lt_of_lt_of_le hlt htable.count_le) hi
        · contradiction
      · intro hends hk i _ hi
        exact hends i (by rw [if_pos hk, hi])
  | tick esp frame intact =>
      simp only [Unstruck, Sched.ends]
      constructor
      · intro hsafe i hi
        split at hi
        · next hc =>
            obtain rfl := Option.some.inj hi
            by_contra hholds
            exact (doomed_iff _).mp hc.2 (hsafe hc.1 (by simpa using hholds))
        · contradiction
      · intro hends hinit hholds
        by_contra hno
        have := hends _ (if_pos ⟨hinit, (doomed_iff _).mpr hno⟩)
        rw [hholds] at this
        contradiction
  | exitCurrentTask =>
      refine iff_of_true trivial fun i hi => ?_
      obtain rfl := Option.some.inj hi
      exact hcur rfl
  | deliverSignals =>
      refine iff_of_true trivial fun i hi => ?_
      simp only [Sched.ends] at hi
      split at hi
      · obtain rfl := Option.some.inj hi
        exact hcur rfl
      · contradiction
  | exec out =>
      refine iff_of_true trivial fun i hi => ?_
      cases out with
      | noStack | loadFailed =>
          simp only [Sched.ends] at hi
          split at hi
          · obtain rfl := Option.some.inj hi
            exact hcur rfl
          · contradiction
      | noModule | invalidElf | loaded => contradiction
  | init | addTask | addUserElfTask | fork | pitTick | sleep | blockCurrentTask | unblockTask
  | setUnblockOnExit | waitpid | waitpidResume | fpu =>
      exact iff_of_true trivial fun i hi => by contradiction

theorem sched_alive {op : Op} (h : Alive m.holds m.sem.sched) (hl : m.Legal (.sched op))
    (hsafe : m.Unstruck (.sched op)) (hs : m.step (.sched op) = .ok m') :
    Alive m'.holds m'.sem.sched := by
  simp only [step, SemSys.step, bind_eq_ok] at hs
  obtain ⟨sem, ⟨sched, hstep, hsem⟩, hs⟩ := hs
  rw [← Except.ok.inj hs, ← Except.ok.inj hsem]
  have hinit : op ≠ .init := by
    rintro rfl
    exact hl.1
  have hawake : m.sem.sched.SleepsAwake op := by
    cases op with
    | sleep ms =>
        rcases hl.1 with hirq | hrun
        · contradiction
        · exact hrun.1
    | _ => trivial
  have hnext := step_alive h hawake hinit ((unstruck_iff h hl).mp hsafe) hstep
  refine ⟨hnext.sleep, fun i hi => hnext.alive i ?_⟩
  rw [Bool.and_eq_true] at hi
  exact hi.1

/-- A task that is struck inside a terminal operation holds the lock DEAD. -/
theorem struck_dead {op : Op} (h : Alive m.holds m.sem.sched) (hl : m.Legal (.sched op))
    (hstruck : ¬ m.Unstruck (.sched op)) (hs : m.step (.sched op) = .ok m') :
    ¬ HoldersAlive m' := by
  simp only [step, SemSys.step, bind_eq_ok] at hs
  obtain ⟨sem, ⟨sched, hstep, hsem⟩, hs⟩ := hs
  rw [← Except.ok.inj hs, ← Except.ok.inj hsem]
  obtain ⟨i, hi, hholds⟩ : ∃ i, m.sem.sched.ends op = some i ∧ m.holds i = true := by
    rw [unstruck_iff h hl] at hstruck
    simpa using hstruck
  have hdead : (sched.tasks i).state = .dead := (Sched.step_ends h.sleep.1 hi hstep).dead
  intro halive
  have hfree := halive i hdead
  simp [hholds, hdead] at hfree

/-- **Holders are alive**: in every run of terminal operations whose steps are all
`Unstruck` no DEAD task holds the lock, and of the next step that is so exactly when
it is `Unstruck` too. -/
theorem holders_alive_iff {s₀ : Sched} {tr : List SemOp}
    (h : Reach step (fun m op => m.Legal op ∧ m.Unstruck op) (start s₀) tr m) :
    HoldersAlive m ∧ ∀ op m', m.Legal op → m.step op = .ok m' →
      (HoldersAlive m' ↔ m.Unstruck op) := by
  have halive : ∀ {m : LockSys}, Alive m.holds m.sem.sched → HoldersAlive m := by
    intro m hm i hdead
    by_contra hi
    exact hm.alive i (Bool.not_eq_false _ ▸ hi) hdead
  have hkeep : ∀ (m : LockSys) (op : SemOp) (m' : LockSys), Alive m.holds m.sem.sched →
    m.Legal op ∧ m.Unstruck op →
      m.step op = .ok m' → Alive m'.holds m'.sem.sched := by
    intro m op m' hm hc hs
    cases op with
    | wait => exact wait_alive hm hs
    | loop => exact loop_alive hm hs
    | signal => exact signal_alive hm hs
    | sched op => exact sched_alive hm hc.1 hc.2 hs
  have hinv : Alive m.holds m.sem.sched := by
    refine h.inv (P := fun m => Alive m.holds m.sem.sched) ?_ hkeep
    exact ⟨⟨Sched.init_table s₀, Sched.init_queued s₀, rfl⟩, fun _ hi => by contradiction⟩
  refine ⟨halive hinv,
    fun op m' hl hs => ⟨fun hnext => ?_, fun hsafe => halive (hkeep m op m' hinv ⟨hl, hsafe⟩ hs)⟩⟩
  by_contra hstruck
  cases op with
  | wait | loop | signal => exact hstruck trivial
  | sched op => exact struck_dead hinv hl hstruck hs hnext

/-- Task 1 runs and locks the terminal, and is preempted by task 2. -/
def lockRun : List SemOp :=
  [.sched (.addTask true 0x1000 0 Task.priorityNormal 0x8000),
    .sched (.addTask true 0x2000 0 Task.priorityNormal 0xA000), .sched (.tick 0 {} true),
      .sched .pitTick,
    .sched (.tick 0 {} true), .wait, .sched .pitTick, .sched (.tick 0 {} true)]

/-- Task 2 runs while task 1 holds the lock; killing task 1 leaves it with a DEAD task. -/
theorem holders_alive_iff_lockRun :
    ∃ m, Reach step (fun m op => m.Legal op ∧ m.Unstruck op) (start {}) lockRun m ∧
      m.holds 1 = true ∧
      HoldersAlive m ∧ ∀ m', m.step (.sched (.killTask 1)) = .ok m' → ¬ HoldersAlive m' := by
  obtain ⟨m, hr, hp⟩ := Reach.of_runsTo step (fun m op => m.Legal op ∧ m.Unstruck op)
    (start {}) lockRun
    (fun m => m.holds 1 = true ∧ m.Legal (.sched (.killTask 1)) ∧
      ¬ m.Unstruck (.sched (.killTask 1))) (by decide)
  obtain ⟨hholds, hlegal, hstruck⟩ := of_decide_eq_true hp
  obtain ⟨halive, hnext⟩ := holders_alive_iff hr
  exact ⟨m, hr, hholds, halive, fun m' hs hm' => hstruck ((hnext _ m' hlegal hs).mp hm')⟩

/-- **A dead holder**: task 1 is preempted while it holds the lock, and killed
by task 2. -/
theorem holder_killed :
    ∃ m, Reach step Legal (start {}) (lockRun ++ [.sched (.killTask 1)]) m ∧ ¬ HoldersAlive m := by
  obtain ⟨m, hr, hp⟩ := Reach.of_runsTo step Legal (start {}) (lockRun ++ [.sched (.killTask 1)])
    (fun m => m.holds 1 = true ∧ (m.sem.sched.tasks 1).state = .dead) (by decide)
  obtain ⟨hh, hd⟩ := of_decide_eq_true hp
  refine ⟨m, hr, fun h => ?_⟩
  rw [h 1 hd] at hh
  contradiction

end LockSys

end Doors
