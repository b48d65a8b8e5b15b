import Doors.Scheduler.Invariant

/-!
# Doors.Scheduler.Bystander

What the operations that neither create tasks nor read or register children
do to parents, children and waiters.

* `step_calm` — pids and lists of children stay, DEAD slots stay as they are,
  only the task that an operation ends dies, and `unblockOnExit` stays in all
  others;
* `step_ends` — the task that an operation ends is DEAD afterwards, and the
  task it names is not BLOCKED.
-/

namespace Doors

open Cells Run

/-- The parts of a task that its parent and its waiter depend on, besides its
state. -/
def Task.kin (t : Task) : Nat × List Nat × Int × Int :=
  (t.pid, t.children, t.exitCode, t.unblockOnExit)

namespace Sched

open Scheduler

variable {s₀ s s' : Sched} {op : Op}

/-! ## calm changes -/

/-- `s'` differs from `s` in nothing that matters to parents and children,
except that the task ended by `op` may have died. -/
structure Calm (s₀ : Sched) (op : Op) (s s' : Sched) : Prop where
  taskCount : s'.taskCount = s.taskCount
  nextPid : s'.nextPid = s.nextPid
  pid : ∀ i, (s'.tasks i).pid = (s.tasks i).pid
  children : ∀ i, (s'.tasks i).children = (s.tasks i).children
  dead : ∀ i, (s.tasks i).state = .dead →
    (s'.tasks i).state = .dead ∧ (s'.tasks i).exitCode = (s.tasks i).exitCode
  ended : ∀ i, s₀.ends op ≠ some i → (s.tasks i).state ≠ .dead → (s'.tasks i).state ≠ .dead
  waker : ∀ i, s₀.ends op ≠ some i → (s'.tasks i).unblockOnExit = (s.tasks i).unblockOnExit
  blocked : ∀ i, (s'.tasks i).state = .blocked → (s.tasks i).state = .blocked ∨
    i = s₀.currentIdx ∧ op.blocks = true

theorem Calm.refl (s₀ : Sched) (op : Op) (s : Sched) : Calm s₀ op s s where
  taskCount := rfl
  nextPid := rfl
  pid := fun _ => rfl
  children := fun _ => rfl
  dead := fun _ hd => ⟨hd, rfl⟩
  ended := fun _ _ hl => hl
  waker := fun _ _ => rfl
  blocked := fun _ hb => .inl hb

theorem Calm.trans {s₁ : Sched} (h : Calm s₀ op s s₁) (h' : Calm s₀ op s₁ s') :
    Calm s₀ op s s' where
  taskCount := h'.taskCount.trans h.taskCount
  nextPid := h'.nextPid.trans h.nextPid
  pid := fun i => (h'.pid i).trans (h.pid i)
  children := fun i => (h'.children i).trans (h.children i)
  dead := by
    intro i hd
    obtain ⟨hd₁, he₁⟩ := h.dead i hd
    obtain ⟨hd', he'⟩ := h'.dead i hd₁
    exact ⟨hd', he'.trans he₁⟩
  ended := fun i hi hl => h'.ended i hi (h.ended i hi hl)
  waker := fun i hi => (h'.waker i hi).trans (h.waker i hi)
  blocked := by
    intro i hb
    rcases h'.blocked i hb with hb | hc
    · exact h.blocked i hb
    · exact .inr hc

/-- Nobody is born, dies or is registered. -/
theorem Calm.of_kin (hn : s'.taskCount = s.taskCount) (hp : s'.nextPid = s.nextPid)
    (hkin : ∀ i, (s'.tasks i).kin = (s.tasks i).kin)
    (hstate : ∀ i, (s'.tasks i).state = (s.tasks i).state ∨ (s.tasks i).state ≠ .dead ∧
      (s'.tasks i).state ≠ .dead ∧
        ((s'.tasks i).state = .blocked → i = s₀.currentIdx ∧ op.blocks = true)) :
    Calm s₀ op s s' := by
  simp only [Task.kin, Prod.mk.injEq] at hkin
  refine ⟨hn, hp, fun i => (hkin i).1, fun i => (hkin i).2.1, fun i hd => ⟨?_, (hkin i).2.2.1⟩,
    fun i _ hl => ?_, fun i _ => (hkin i).2.2.2, fun i hb => ?_⟩
  · rcases hstate i with h | h
    · rw [h]
      exact hd
    · exact absurd hd h.1
  · rcases hstate i with h | h
    · rw [h]
      exact hl
    · exact h.2.1
  · rcases hstate i with h | h
    · exact .inl (h ▸ hb)
    · exact .inr (h.2.2 hb)

/-- A change that keeps kin and states. -/
theorem Calm.modify {i : Nat} {f : Task → Task} (hkin : ∀ t, (f t).kin = t.kin)
    (hstate : (f (s.tasks i)).state = (s.tasks i).state ∨ (s.tasks i).state ≠ .dead ∧
      (f (s.tasks i)).state ≠ .dead ∧ ((f (s.tasks i)).state = .blocked →
        i = s₀.currentIdx ∧ op.blocks = true)) :
    Calm s₀ op s (s.modify i f) := by
  refine .of_kin rfl rfl (fun j => ?_) fun j => ?_
  · rw [modify_tasks]
    split
    · exact hkin _
    · rfl
  · rw [modify_tasks]
    split
    · next hj =>
        subst hj
        exact hstate
    · exact .inl rfl

/-- What a switch does to a task. -/
theorem switch_task {next : Nat} (hready : (s.leave.tasks next).state = .ready) (j : Nat) :
    ((s.leave.install next).tasks j).kin = (s.tasks j).kin ∧
      (((s.leave.install next).tasks j).state = (s.tasks j).state ∨ (s.tasks j).state ≠ .dead ∧
        ((s.leave.install next).tasks j).state ≠ .dead ∧
        ((s.leave.install next).tasks j).state ≠ .blocked) := by
  have hleave : (s.leave.tasks j).kin = (s.tasks j).kin ∧
      ((s.leave.tasks j).state = (s.tasks j).state ∨ (s.tasks j).state = .running ∧
        (s.leave.tasks j).state = .ready) := by
    rw [leave_tasks]
    split
    · unfold left
      split
      · next hr => exact ⟨rfl, .inr ⟨hr, rfl⟩⟩
      · exact ⟨rfl, .inl rfl⟩
    · exact ⟨rfl, .inl rfl⟩
  rw [install_tasks]
  split
  · next hj =>
      rw [← hj] at hready
      refine ⟨hleave.1, .inr ⟨?_, by simp, by simp⟩⟩
      rcases hleave.2 with h | h
      · rw [← h, hready]
        decide
      · rw [h.1]
        decide
  · refine ⟨hleave.1, ?_⟩
    rcases hleave.2 with h | h
    · exact .inl h
    · exact .inr ⟨by rw [h.1]; decide, by rw [h.2]; decide, by rw [h.2]; decide⟩

/-- A switch is calm. -/
theorem switch_calm {next : Nat} (hready : (s.leave.tasks next).state = .ready) :
    Calm s₀ op s (s.leave.install next) := by
  refine .of_kin rfl rfl (fun i => (switch_task hready i).1) fun i => ?_
  rcases (switch_task hready i).2 with h | ⟨h1, h2, h3⟩
  · exact .inl h
  · exact .inr ⟨h1, h2, fun hb => absurd hb h3⟩

/-- One task dies. -/
theorem Calm.of_death {i : Nat} (hn : s'.taskCount = s.taskCount) (hp : s'.nextPid = s.nextPid)
    (hwhy : s₀.ends op = some i) (hlive : (s.tasks i).state ≠ .dead)
    (hdead : (s'.tasks i).state = .dead) (hpid : (s'.tasks i).pid = (s.tasks i).pid)
    (hchildren : (s'.tasks i).children = (s.tasks i).children)
    (hother : ∀ j, j ≠ i → ∃ ppid, s'.tasks j = { s.tasks j with ppid := ppid }) :
    Calm s₀ op s s' := by
  have hne : ∀ j, s₀.ends op ≠ some j → j ≠ i := by
    rintro j hj rfl
    exact hj hwhy
  refine ⟨hn, hp, fun j => ?_, fun j => ?_, fun j hd => ?_, fun j hj hl => ?_, fun j hj => ?_,
    fun j hb => ?_⟩
  · by_cases hj : j = i
    · rw [hj, hpid]
    · obtain ⟨ppid, h⟩ := hother j hj
      rw [h]
  · by_cases hj : j = i
    · rw [hj, hchildren]
    · obtain ⟨ppid, h⟩ := hother j hj
      rw [h]
  · have hj : j ≠ i := by
      rintro rfl
      exact hlive hd
    obtain ⟨ppid, h⟩ := hother j hj
    rw [h]
    exact ⟨hd, rfl⟩
  · obtain ⟨ppid, h⟩ := hother j (hne j hj)
    rw [h]
    exact hl
  · obtain ⟨ppid, h⟩ := hother j (hne j hj)
    rw [h]
  · by_cases hj : j = i
    · rw [hj, hdead] at hb
      contradiction
    · obtain ⟨ppid, h⟩ := hother j hj
      rw [h] at hb
      exact .inl hb

/-- **Bystanders**: the effects of an operation that neither creates tasks nor
reads or registers children. -/
theorem Effect.calm (he : Effect s₀ op s s') (hop : op.bystands = true) (h : Table s) :
    Calm s₀ op s s' := by
  have hcreates : op.creates = false := by
    cases op <;> first | rfl | contradiction
  have hwaits : op.waits = false := by
    cases op <;> first | rfl | contradiction
  cases he with
  | init hinit =>
      subst hinit
      contradiction
  | quiet hq =>
      have hkin : ∀ i, (s'.tasks i).kin = (s.tasks i).kin :=
        fun i => hq.field Task.kin i fun _ => rfl
      exact .of_kin hq.taskCount hq.nextPid hkin fun i => .inl (hq.state i)
  | timer => exact .of_kin rfl rfl (fun _ => rfl) fun _ => .inl rfl
  | notify tasks hu hwhy =>
      have hfields : ∀ i, (tasks i).pid = (s.tasks i).pid ∧
        (tasks i).children = (s.tasks i).children ∧
          (tasks i).exitCode = (s.tasks i).exitCode ∧ (tasks i).state = (s.tasks i).state := by
        intro i
        obtain ⟨u, hu⟩ := hu i
        rw [hu]
        exact ⟨rfl, rfl, rfl, rfl⟩
      rcases hwhy with hw | hwhy
      · rw [hwaits] at hw
        contradiction
      · refine ⟨rfl, rfl, fun i => (hfields i).1, fun i => (hfields i).2.1, fun i hd => ?_,
          fun i _ hl => ?_, fun i hi => congrArg Task.unblockOnExit (hwhy i hi),
            fun i hb => .inl ?_⟩
        · exact ⟨(hfields i).2.2.2.trans hd, (hfields i).2.2.1⟩
        · exact fun hd => hl ((hfields i).2.2.2 ▸ hd)
        · exact (hfields i).2.2.2 ▸ hb
  | reap k hw =>
      rw [hwaits] at hw
      contradiction
  | mark i code hwhy hlive =>
      have hfield : ∀ {α : Type} (f : Task → α) (j : Nat),
        (∀ t c, f { t with exitCode := c } = f t) →
          f ((s.modify i fun t => { t with exitCode := code }).tasks j) = f (s.tasks j) := by
        intro α f j hf
        rw [modify_tasks]
        split
        · exact hf _ _
        · rfl
      refine ⟨rfl, rfl, fun j => hfield Task.pid j fun _ _ => rfl,
        fun j => hfield Task.children j fun _ _ => rfl,
        fun j hd => ⟨(hfield Task.state j fun _ _ => rfl).trans hd, ?_⟩, fun j _ hl => ?_,
        fun j _ => hfield Task.unblockOnExit j fun _ _ => rfl, fun j hb => .inl ?_⟩
      · have hj : j ≠ i := by
          rintro rfl
          exact hlive hd
        rw [modify_tasks, if_neg hj]
      · rw [hfield Task.state j fun _ _ => rfl]
        exact hl
      · rw [hfield Task.state j fun _ _ => rfl] at hb
        exact hb
  | block hcur hblock =>
      have hblocks : op.blocks = true := by
        rcases hblock with rfl | ⟨_, rfl⟩ <;> rfl
      exact .modify (fun _ => rfl) (.inr ⟨h.cur_live, by simp, fun _ => ⟨hcur, hblocks⟩⟩)
  | @sleep ms q n p hsleep hs =>
      have hcalm : Calm s₀ op s (s.modify s.currentIdx fun t =>
          { t with wakeupMs := add64 s.pit.uptimeMs ms, state := .blocked }) :=
        .modify (fun _ => rfl)
          (.inr ⟨h.cur_live, by simp, fun _ => ⟨by rw [hs], by rw [hsleep]; rfl⟩⟩)
      exact hcalm.trans (.of_kin rfl rfl (fun _ => rfl) fun _ => .inl rfl)
  | @wake j q n p _ _ hb =>
      have hcalm : Calm s₀ op s (s.modify j woken) :=
        .modify (fun _ => rfl) (.inr ⟨by rw [hb]; decide, by simp [woken], by simp [woken]⟩)
      exact hcalm.trans (.of_kin rfl rfl (fun _ => rfl) fun _ => .inl rfl)
  | @pop q n =>
      have hcalm : Calm s₀ op s (s.modify (s.sleepQueue 0).taskId popped) := by
        refine .modify (fun _ => rfl) ?_
        unfold popped
        dsimp only
        split
        · next hb => exact .inr ⟨by rw [hb]; decide, by decide, by simp⟩
        · exact .inl rfl
      exact hcalm.trans (.of_kin rfl rfl (fun _ => rfl) fun _ => .inl rfl)
  | switch _ hready => exact switch_calm hready
  | @exit code next q n _ hwhy _ _ hne hready =>
      have hself := departed_cur s code q n
      have hdied : Calm s₀ op s (s.departed code q n) :=
        .of_death rfl rfl hwhy h.cur_live (by rw [hself]) (by rw [hself]; rfl) (by rw [hself]; rfl)
          fun j hj => departed_tasks s code q n hj
      refine hdied.trans (switch_calm ?_)
      obtain ⟨ppid, hp⟩ := departed_tasks s code q n hne
      rw [leave_tasks, departed_currentIdx, if_neg hne, hp]
      exact hready
  | @kill i q n _ hcur hlive hwhy =>
      have hself := killed_self s i
      have hkilled : Calm s₀ op s (s.killed i) :=
        .of_death rfl rfl hwhy hlive (by rw [hself]) (by rw [hself]) (by rw [hself])
          fun j hj => killed_tasks s i hj
      exact hkilled.trans (.of_kin rfl rfl (fun _ => rfl) fun _ => .inl rfl)
  | create hc =>
      rw [hcreates] at hc
      contradiction
  | @image f _ _ hf =>
      refine .modify (fun t => ?_) (.inl ?_)
      · have := congrArg Task.kin (hf t)
        exact this
      · have := congrArg Task.state (hf (s.tasks s.currentIdx))
        exact this
  | fpu => exact .of_kin rfl rfl (fun _ => rfl) fun _ => .inl rfl

/-- **Calm**: a step of a bystander. -/
theorem step_calm (hop : op.bystands = true) (h : Table s) (hs : s.step op = .ok s') :
    Calm s op s s' := by
  have hkeep : ∀ a b, Effect s op a b → Table a ∧ Calm s op s a → Table b ∧ Calm s op s b :=
    fun a b he ha => ⟨he.table ha.1, ha.2.trans (he.calm hop ha.1)⟩
  exact (step_inv h.cur_lt h.cur_live hkeep ⟨h, .refl s op s⟩ hs).2

/-! ## lives -/

/-- A change that ends nobody. -/
theorem modify_lives {i p : Nat} {f : Task → Task} (hp : (s.tasks p).state ≠ .dead)
    (hf : ∀ t, t.state ≠ .dead → (f t).state ≠ .dead) : ((s.modify i f).tasks p).state ≠ .dead := by
  rw [modify_tasks]
  split
  · exact hf _ hp
  · exact hp

/-- A switch ends nobody. -/
theorem switch_lives {next p : Nat} (hready : (s.leave.tasks next).state = .ready)
    (hp : (s.tasks p).state ≠ .dead) : ((s.leave.install next).tasks p).state ≠ .dead := by
  rcases (switch_task hready p).2 with h | h
  · rw [h]
    exact hp
  · exact h.2.1

/-- A live task that the operation does not end stays alive. -/
theorem Effect.lives (he : Effect s₀ op s s') (hop : op ≠ .init) (h : Table s) {p : Nat}
    (hp : (s.tasks p).state ≠ .dead) (hend : s₀.ends op ≠ some p) : (s'.tasks p).state ≠ .dead := by
  cases he with
  | init hinit => exact absurd hinit hop
  | quiet hq =>
      rw [hq.state]
      exact hp
  | timer => exact hp
  | notify tasks hu _ =>
      obtain ⟨u, hu⟩ := hu p
      have hstate := congrArg Task.state hu
      exact fun hd => hp (hstate.symm.trans hd)
  | reap | mark => exact modify_lives hp fun _ ht => ht
  | block => exact modify_lives hp fun _ _ => by simp
  | @sleep ms =>
      have hasleep : ((s.modify s.currentIdx fun t =>
          { t with wakeupMs := add64 s.pit.uptimeMs ms, state := .blocked }).tasks p).state ≠
            .dead :=
        modify_lives hp fun _ _ => by simp
      exact hasleep
  | @wake j =>
      have hawake : ((s.modify j woken).tasks p).state ≠ .dead :=
        modify_lives hp fun _ _ => by simp [woken]
      exact hawake
  | pop =>
      change ((s.modify (s.sleepQueue 0).taskId popped).tasks p).state ≠ .dead
      refine modify_lives hp fun t ht => ?_
      unfold popped
      dsimp only
      split
      · simp
      · exact ht
  | switch _ hready => exact switch_lives hready hp
  | @exit code next q n _ hwhy _ _ hne hready =>
      have hpc : p ≠ s.currentIdx := by
        rintro rfl
        exact hend hwhy
      obtain ⟨ppid, hd⟩ := departed_tasks s code q n hpc
      refine switch_lives ?_ (by rw [hd]; exact hp)
      obtain ⟨ppid, hn⟩ := departed_tasks s code q n hne
      rw [leave_tasks, departed_currentIdx, if_neg hne, hn]
      exact hready
  | @kill i q n _ _ _ hwhy =>
      have hpi : p ≠ i := by
        rintro rfl
        exact hend hwhy
      obtain ⟨ppid, hk⟩ := killed_tasks s i hpi
      change ((s.killed i).tasks p).state ≠ .dead
      rw [hk]
      exact hp
  | @create _ slot _ hc =>
      have hne : p ≠ slot := by
        rintro rfl
        rcases hc.free with ⟨_, hd⟩ | ⟨heq, _⟩
        · exact hp hd
        · exact hp (h.beyond p (by omega))
      obtain ⟨cs, fs, hsame⟩ := hc.others p hne
      rw [hsame]
      exact hp
  | @image f _ _ hf =>
      refine modify_lives hp fun t ht => ?_
      have hstate := congrArg Task.state (hf t)
      exact fun hd => ht (hstate.symm.trans hd)
  | fpu => exact hp

/-- Only those live on whom the step does not end. -/
theorem step_lives {p : Nat} (hop : op ≠ .init) (h : Table s) (hp : (s.tasks p).state ≠ .dead)
    (hend : s.ends op ≠ some p) (hs : s.step op = .ok s') : (s'.tasks p).state ≠ .dead := by
  have hkeep : ∀ a b, Effect s op a b → Table a ∧ (a.tasks p).state ≠ .dead →
      Table b ∧ (b.tasks p).state ≠ .dead :=
    fun a b he ha => ⟨he.table ha.1, he.lives hop ha.1 ha.2 hend⟩
  exact (step_inv h.cur_lt h.cur_live hkeep ⟨h, hp⟩ hs).2

/-! ## deaths -/

/-- `unblockTask` leaves its target awake. -/
theorem unblockTask_awake {j : Nat} (h : s.unblockTask j = .ok s') (hj : j < s.taskCount) :
    (s'.tasks j).state ≠ .blocked := by
  rcases unblockTask_ok h with rfl | ⟨k, q, n, p, hk, _, _, _, _, rfl⟩
  · intro hb
    unfold unblockTask at h
    rw [if_pos ⟨by omega, by omega, hb⟩, bind_eq_ok] at h
    obtain ⟨s₁, hw, h⟩ := h
    obtain ⟨q, n, _, rfl⟩ := wake_ok hw
    simp only [Except.ok.injEq] at h
    have hstate : (s'.tasks j).state = .ready := by
      rw [← h]
      split <;> simp [programForMs, woken]
    rw [hb] at hstate
    contradiction
  · obtain rfl : j = k := by omega
    simp [woken]

/-- The end of the task in slot `i`: it is DEAD, and whom it names is not
BLOCKED. -/
structure Ended (s : Sched) (i : Nat) (s' : Sched) : Prop where
  dead : (s'.tasks i).state = .dead
  awake : ∀ j : Nat, (s.tasks i).unblockOnExit = j → j < s.taskCount → j < 128 →
    (s'.tasks j).state ≠ .blocked

/-- An exit ends the current task. -/
theorem exit_ended {code : Int} (h : s.exitCurrentTask code = .ok s') :
    Ended s s.currentIdx s' := by
  obtain ⟨_, q, n, next, s₁, s₂, _, hs₁, _, _, hready, hs₂, hend⟩ := exitCurrentTask_ok h
  subst hs₁
  obtain ⟨hne, _⟩ := exit_next hready
  have hdead : (s₂.tasks s.currentIdx).state = .dead := by
    have hd : ((s.departed code q n).tasks s.currentIdx).state = .dead := by rw [departed_cur]
    rw [hs₂]
    rcases (switch_task hready s.currentIdx).2 with h | h
    · exact h.trans hd
    · exact absurd hd h.1
  have hself := congrArg Task.unblockOnExit (died_cur s code)
  have hun : (({ s.died code with sleepQueue := q, sleepCount := n } : Sched)).cur.unblockOnExit =
      s.cur.unblockOnExit := hself
  have hcount : s₂.taskCount = s.taskCount := by
    rw [hs₂]
    rfl
  rw [hun] at hend
  rcases hend with ⟨rfl, hno⟩ | hend
  · refine ⟨hdead, fun j hj _ _ => ?_⟩
    change s.cur.unblockOnExit = j at hj
    omega
  · obtain ⟨_, _, hd⟩ := unblockTask_frame hend
    refine ⟨(hd _).mpr hdead, fun j hj hlt _ => ?_⟩
    change s.cur.unblockOnExit = j at hj
    rw [hj] at hend
    exact unblockTask_awake hend (by rw [hcount]; exact hlt)

/-- The slot of a task that exits keeps its exit code. -/
theorem exit_exitCode {code : Int} (h : s.exitCurrentTask code = .ok s') :
    (s'.tasks s.currentIdx).exitCode = code := by
  obtain ⟨_, q, n, next, s₁, s₂, _, hs₁, _, _, hready, hs₂, hend⟩ := exitCurrentTask_ok h
  subst hs₁
  have hkin := (switch_task hready s.currentIdx).1
  simp only [Task.kin, Prod.mk.injEq] at hkin
  have hcode : (s₂.tasks s.currentIdx).exitCode = code := by
    have hd : ((s.departed code q n).tasks s.currentIdx).exitCode = code := by rw [departed_cur]
    rw [hs₂]
    exact hkin.2.2.1.trans hd
  rcases hend with ⟨rfl, _⟩ | hend
  · exact hcode
  · rcases unblockTask_ok hend with rfl | ⟨j, q, n, p, _, _, _, _, _, rfl⟩
    · exact hcode
    · simp only [modify_tasks]
      split
      · exact hcode
      · exact hcode

/-- A kill ends its target. -/
theorem kill_ended {i : Nat} (h : s.kill i = .ok s') : Ended s i s' := by
  obtain ⟨q, n, s₁, hwake, _, rfl⟩ := kill_ok h
  refine ⟨congrArg Task.state (killed_self s₁ i), fun j hj hlt hsmall => ?_⟩
  have hu : uchar (s.tasks i).unblockOnExit = j := by
    rw [hj, uchar]
    omega
  rw [hu] at hwake
  have hawake := unblockTask_awake hwake hlt
  change ((s₁.killed i).tasks j).state ≠ .blocked
  by_cases hji : j = i
  · rw [hji, killed_self]
    simp
  · obtain ⟨ppid, hp⟩ := killed_tasks s₁ i hji
    rw [hp]
    exact hawake

/-- The end of a task, seen from before. -/
theorem Ended.of_eq {i : Nat} {s₁ : Sched} (h : Ended s₁ i s') (hn : s₁.taskCount = s.taskCount)
    (hu : (s₁.tasks i).unblockOnExit = (s.tasks i).unblockOnExit) : Ended s i s' :=
  ⟨h.dead, fun j hj hlt => h.awake j (hu.trans hj) (hn ▸ hlt)⟩

/-- Only live tasks of the table are ended. -/
theorem ends_live {i : Nat} (h : Table s) (hi : s.ends op = some i) :
    i < s.taskCount ∧ (s.tasks i).state ≠ .dead := by
  have hcur : s.currentIdx = i → i < s.taskCount ∧ (s.tasks i).state ≠ .dead := by
    rintro rfl
    exact ⟨h.cur_lt, h.cur_live⟩
  cases op with
  | exitCurrentTask => exact hcur (Option.some.inj hi)
  | killTask id =>
      simp only [ends] at hi
      split at hi
      · next hc =>
          obtain rfl := Option.some.inj hi
          exact ⟨by omega, hc.2.2.2⟩
      · contradiction
  | sendSignal pid sig =>
      simp only [ends] at hi
      split at hi
      · obtain ⟨_, hlt, _, hl⟩ := findTarget_some hi
        exact ⟨hlt, hl⟩
      · contradiction
  | tick | deliverSignals =>
      simp only [ends] at hi
      split at hi
      · exact hcur (Option.some.inj hi)
      · contradiction
  | exec out =>
      cases out with
      | noStack | loadFailed =>
          simp only [ends] at hi
          split at hi
          · exact hcur (Option.some.inj hi)
          · contradiction
      | noModule | invalidElf | loaded => contradiction
  | init | addTask | addUserElfTask | fork | pitTick | sleep | blockCurrentTask | unblockTask
  | setUnblockOnExit | waitpid | waitpidResume | fpu => contradiction

/-- The operation runs `exitCurrentTask` or `killTask` on slot `i` in the end. -/
structure Death (s : Sched) (i : Nat) (s₁ s' : Sched) : Prop where
  taskCount : s₁.taskCount = s.taskCount
  waker : (s₁.tasks i).unblockOnExit = (s.tasks i).unblockOnExit
  ends : (∃ code, i = s₁.currentIdx ∧ s₁.exitCurrentTask code = .ok s') ∨ s₁.kill i = .ok s'

/-- A quiet step and an exit. -/
theorem Quiet.death {s₁ : Sched} {code : Int} (hq : Quiet s s₁)
    (h : s₁.exitCurrentTask code = .ok s') :
    Death s s.currentIdx s₁ s' :=
  ⟨hq.taskCount, hq.field Task.unblockOnExit _ fun _ => rfl, .inl ⟨code, hq.currentIdx.symm, h⟩⟩

/-- **Deaths**: an operation that ends a task runs one of the two ways to do
so. -/
theorem step_death {i : Nat} (h : Table s) (hi : s.ends op = some i) (hs : s.step op = .ok s') :
    ∃ s₁, Death s i s₁ s' := by
  have hlt : s.currentIdx < maxTasks := Nat.lt_of_lt_of_le h.cur_lt h.count_le
  cases op with
  | exitCurrentTask code =>
      obtain rfl := Option.some.inj hi
      exact ⟨s, rfl, rfl, .inl ⟨code, rfl, hs⟩⟩
  | killTask id =>
      simp only [ends] at hi
      split at hi
      · next hc =>
          obtain rfl := Option.some.inj hi
          have hs' : s.killTask id = .ok s' := hs
          unfold killTask at hs'
          rw [if_neg (by omega), if_neg hc.2.2.1, if_neg hc.2.2.2] at hs'
          exact ⟨s, rfl, rfl, .inr hs'⟩
      · contradiction
  | sendSignal pid sig =>
      simp only [ends] at hi
      split at hi
      · next hk =>
          rcases sendSignal_ok hs with ⟨_, hnone⟩ | ⟨j, hj, hcase⟩
          · rw [hnone hk] at hi
            contradiction
          · rw [hi, Option.some.injEq] at hj
            subst hj
            rcases hcase with ⟨_, hc, he⟩ | ⟨_, _, he⟩ | ⟨_, ⟨_, _, hno⟩, _⟩
            · exact ⟨s, rfl, rfl, .inl ⟨_, hc, he⟩⟩
            · exact ⟨s.modify i fun t => { t with exitCode := 137 }, rfl, by simp, .inr he⟩
            · exact absurd hk hno
      · contradiction
  | tick esp frame intact =>
      simp only [ends] at hi
      split at hi
      · next hc =>
          obtain rfl := Option.some.inj hi
          simp only [step, bind_eq_ok, Except.ok.injEq] at hs
          obtain ⟨⟨r, s₁⟩, ht, rfl⟩ := hs
          rcases tick_ok ht with ⟨hno, _⟩ | ⟨_, _, _, s₂, code, hq, he⟩ | ⟨_, _, _, _, hno, _⟩
          · have hinit := hc.1
            change s.initialized = false at hno
            rw [hno] at hinit
            contradiction
          · exact ⟨s₂, ((Quiet.frames s _).trans hq).death he⟩
          · have hdoom := hc.2
            have hno' : s.doomed = false := hno hlt
            rw [hno'] at hdoom
            contradiction
      · contradiction
  | deliverSignals esp =>
      simp only [ends] at hi
      split at hi
      · next hc =>
          obtain rfl := Option.some.inj hi
          simp only [step, bind_eq_ok, Except.ok.injEq] at hs
          obtain ⟨⟨b, s₁⟩, hd, rfl⟩ := hs
          rcases deliverPendingSignalsAtEsp_ok hd with ⟨hno, _⟩ | ⟨_, s₂, code, hq, he⟩
          · rw [hno hlt] at hc
            contradiction
          · exact ⟨s₂, hq.death he⟩
      · contradiction
  | exec out =>
      simp only [step, bind_eq_ok, Except.ok.injEq] at hs
      obtain ⟨⟨r, s₁⟩, he, rfl⟩ := hs
      have hcur : i = s.currentIdx ∧ s.cur.pageDir ≠ 0 ∧
          (out = .noStack ∨ ∃ phys, out = .loadFailed phys) := by
        cases out with
        | noStack | loadFailed phys =>
            simp only [ends] at hi
            split at hi
            · next hd => exact ⟨(Option.some.inj hi).symm, hd, by simp⟩
            · contradiction
        | noModule | invalidElf | loaded => contradiction
      obtain ⟨rfl, hd, hout⟩ := hcur
      rcases exec_ok he with ⟨_, hno⟩ | ⟨_, _, f, hf, _, ⟨hno, _⟩ | ⟨_, hexit⟩⟩
      · rcases hno with hge | rfl | h0
        · omega
        · rcases hout with h | ⟨_, h⟩ <;> contradiction
        · exact absurd h0 hd
      · rcases hno with rfl | ⟨_, _, rfl⟩ <;> rcases hout with h | ⟨_, h⟩ <;> contradiction
      · refine ⟨s.modify s.currentIdx f, rfl, ?_, .inl ⟨1, rfl, hexit⟩⟩
        have hun := congrArg Task.unblockOnExit (hf (s.tasks s.currentIdx))
        rw [modify_tasks, if_pos rfl]
        exact hun
  | init | addTask | addUserElfTask | fork | pitTick | sleep | blockCurrentTask | unblockTask
  | setUnblockOnExit | waitpid | waitpidResume | fpu => contradiction

/-- The task that an operation ends is DEAD afterwards, and the task it was to
wake is awake. -/
theorem step_ends {i : Nat} (h : Table s) (hi : s.ends op = some i) (hs : s.step op = .ok s') :
    Ended s i s' := by
  obtain ⟨s₁, hd⟩ := step_death h hi hs
  rcases hd.ends with ⟨code, hc, he⟩ | he
  · have hended := exit_ended he
    rw [← hc] at hended
    exact hended.of_eq hd.taskCount hd.waker
  · exact (kill_ended he).of_eq hd.taskCount hd.waker

/-- Waking a task leaves all registrations alone. -/
theorem unblockTask_waker {id : Int} (h : s.unblockTask id = .ok s') (i : Nat) :
    (s'.tasks i).unblockOnExit = (s.tasks i).unblockOnExit := by
  rcases unblockTask_ok h with rfl | ⟨j, q, n, p, _, _, _, _, _, rfl⟩
  · rfl
  · simp only [modify_tasks]
    split <;> rfl

/-- Whom the exiting task named is forgotten. -/
theorem exit_waker {code : Int} (h : s.exitCurrentTask code = .ok s') :
    (s'.tasks s.currentIdx).unblockOnExit = -1 := by
  obtain ⟨_, q, n, next, s₁, s₂, _, hs₁, _, _, hready, hs₂, hend⟩ := exitCurrentTask_ok h
  subst hs₁
  have hkin := (switch_task hready s.currentIdx).1
  simp only [Task.kin, Prod.mk.injEq] at hkin
  have hleft : (s₂.tasks s.currentIdx).unblockOnExit = -1 := by
    have hd : ((s.departed code q n).tasks s.currentIdx).unblockOnExit = -1 := by rw [departed_cur]
    rw [hs₂]
    exact hkin.2.2.2.trans hd
  rcases hend with ⟨rfl, _⟩ | hend
  · exact hleft
  · rw [unblockTask_waker hend]
    exact hleft

/-- Whom the killed task named is forgotten. -/
theorem kill_waker {i : Nat} (h : s.kill i = .ok s') : (s'.tasks i).unblockOnExit = -1 := by
  obtain ⟨q, n, s₁, hwake, _, rfl⟩ := kill_ok h
  have hkilled : ((s₁.killed i).tasks i).unblockOnExit = (s₁.tasks i).unblockOnExit := by
    rw [killed_self]
  refine hkilled.trans ((unblockTask_waker hwake i).trans ?_)
  rw [modify_tasks, if_pos rfl]

/-- The slot of a task that was ended names nobody. -/
theorem step_unnamed {i : Nat} (h : Table s) (hi : s.ends op = some i) (hs : s.step op = .ok s') :
    (s'.tasks i).unblockOnExit = -1 := by
  obtain ⟨s₁, hd⟩ := step_death h hi hs
  rcases hd.ends with ⟨code, hc, he⟩ | he
  · rw [hc]
    exact exit_waker he
  · exact kill_waker he

end Sched

end Doors
