import Doors.Scheduler.Timer

/-!
# Doors.Scheduler.Clock

The kernel's clock and real time.

`Pit::tick` advances the clock by what the timer was loaded with, and between two
interrupts the clock stands still.  When the timer is loaded again before it fired,
the time since it was loaded last is lost; when a task goes to sleep on the way, its
deadline is counted from the last interrupt.

* `clock_keeps_time` — in every run in which neither happens the clock shows real time
  at every interrupt, and nobody is woken early.
-/

namespace Doors

open Cells Run Sched Scheduler

/-- The kernel in real time, in milliseconds from `Pit::init` on.  `since` is when the
timer was loaded or has fired last, `pending` says that it has not fired since, and
`asked i` is the moment up to which the task in slot `i` has asked to sleep. -/
structure Clock where
  sched : Sched
  now : Nat
  since : Nat
  pending : Bool
  asked : Nat → Nat

/-- Time passes, the timer is loaded, it fires, or the kernel does something else. -/
inductive ClockOp where
  | pass (ms : Nat)
  | program (ms : Nat)
  | irq (esp : Nat) (frame : TrapFrame) (intact : Bool)
  | sys (op : Op)

/-- Why there is no next state: a fault of the kernel, or the timer does not fire at
that moment. -/
inductive ClockError where
  | fault (f : Fault)
  | impossible

namespace Clock

variable (c : Clock)

/-- After `Pit::init` and `Scheduler::init`. -/
def boot (s : Sched) : Clock where
  sched := s.boot
  now := 0
  since := 0
  pending := true
  asked _ := 0

/-- The scheduler did something; if it loaded the timer, that was now. -/
def after (s : Sched) : Clock :=
  if s.pit.loads = c.sched.pit.loads then { c with sched := s }
    else { c with sched := s, since := c.now, pending := true }

/-- The timer has fired. -/
def fired : Clock :=
  { c with sched := { c.sched with pit := c.sched.pit.tick }, since := c.now, pending := false }

/-- The moment at which the timer fires. -/
def Due : Prop := c.pending = true ∧ c.now = c.since + c.sched.pit.loadedMs

instance : Decidable c.Due := inferInstanceAs (Decidable (_ ∧ _))

def asks : Op → Nat → Nat
  | .sleep ms => set c.asked c.sched.currentIdx (c.now + ms)
  | _ => c.asked

def step (c : Clock) : ClockOp → Except ClockError Clock
  | .pass ms =>
      if c.pending = true ∧ c.since + c.sched.pit.loadedMs < c.now + ms then .error .impossible
        else .ok { c with now := c.now + ms }
  | .program ms => .ok (c.after { c.sched with pit := c.sched.pit.programForMs ms })
  | .irq esp frame intact =>
      if c.Due then
        match c.fired.sched.step (.tick esp frame intact) with
        | .ok s => .ok (c.fired.after s)
        | .error f => .error (.fault f)
      else .error .impossible
  | .sys op =>
      match c.sched.step op with
      | .ok s => .ok { c.after s with asked := c.asks op }
      | .error f => .error (.fault f)

/-- The operation leaves the timer alone. -/
def LeavesTimer (op : Op) : Prop :=
  match c.sched.step op with
  | .ok s => s.pit.loads = c.sched.pit.loads
  | .error _ => True

instance (op : Op) : Decidable (c.LeavesTimer op) := by
  unfold LeavesTimer
  cases c.sched.step op <;> infer_instance

/-- Programs, as far as the 64-bit clock goes. -/
def Regularly (c : Clock) : ClockOp → Prop
  | .sys op => Regular c.sched (.sys op) ∧ Unwrapped c.sched (.sys op)
  | .irq .. => c.sched.pit.ticks + Pit.pitMaxMs < 2 ^ 64
  | _ => True

/-- The timer is loaded, and tasks go to sleep, only at the moment at which the timer
was loaded or has fired last. -/
def OnTime (c : Clock) (op : ClockOp) : Prop :=
  Regularly c op ∧
    match op with
    | .program _ => c.now = c.since
    | .sys (.sleep _) => c.now = c.since
    | .sys op => c.LeavesTimer op ∨ c.now = c.since
    | _ => True

instance (op : ClockOp) : Decidable (Regularly c op) := by
  apply @ClockOp.casesOn _ op <;> intros <;> unfold Regularly <;> infer_instance

instance (op : ClockOp) : Decidable (OnTime c op) := by
  match op with
  | .pass _ | .irq .. | .program _ => exact inferInstanceAs (Decidable (_ ∧ _))
  | .sys op => apply @Op.casesOn _ op <;> intros <;> unfold OnTime <;> infer_instance

/-- **The clock is right**: when the timer fires the clock shows real time, and the
tasks that `tick` wakes have slept for as long as they asked to. -/
structure KeepsTime (c : Clock) : Prop where
  shows : ∀ esp frame intact c', c.step (.irq esp frame intact) = .ok c' →
    c'.sched.pit.ticks = c'.now
  patient : c.Due → ∀ esp frame intact e s',
    { c.fired.sched with frames := set c.fired.sched.frames esp frame }.tick esp intact =
      .ok (some e, s') →
    ∀ i, (c.sched.tasks i).state = .blocked → (s'.tasks i).state ≠ .blocked → c.asked i ≤ c.now

variable {s₀ s s' : Sched} {op : Op} {p₀ p : Pit} {c c' : Clock} {ms t : Nat} {asked : Nat → Nat}

/-! ## the timer -/

/-- The timer is as it was, or it has been loaded. -/
def Reloaded (p₀ p : Pit) : Prop :=
  p = p₀ ∨ p₀.loads < p.loads ∧ p.deadlineMs = add64 p.ticks p.loadedMs ∧ p.loadedMs ≤ Pit.pitMaxMs

/-- The counter holds so many milliseconds. -/
theorem loadedMs_le (p : Pit) (ms : Nat) : (p.programForMs ms).loadedMs ≤ Pit.pitMaxMs := by
  unfold Pit.programForMs
  dsimp only
  generalize (if ms = 0 then 1 else ms) = m
  split
  · exact Nat.le_refl _
  · next h => exact Nat.not_lt.mp h

/-- The timer is programmed once more. -/
theorem Reloaded.program (h : Reloaded p₀ p) (ms : Nat) : Reloaded p₀ (p.programForMs ms) := by
  refine .inr ⟨?_, rfl, loadedMs_le p ms⟩
  show p₀.loads < p.loads + 1
  rcases h with rfl | ⟨hlt, -⟩
  · exact Nat.lt_succ_self _
  · exact Nat.lt_succ_of_lt hlt

/-- An operation programs the timer or leaves it. -/
theorem effect_reloaded (he : Effect s₀ op s s') (hpit : op ≠ .pitTick) (hinit : op ≠ .init)
    (h : Reloaded p₀ s.pit) :
    Reloaded p₀ s'.pit := by
  cases he with
  | init hop => exact absurd hop hinit
  | quiet hq =>
      obtain ⟨_, _, _, _, rfl⟩ := hq.rest
      exact h
  | timer m p hp =>
      rcases hp with ⟨hop, _⟩ | ⟨_, rfl⟩
      · exact absurd hop hpit
      · exact h.program _
  | sleep _ _ _ _ hp =>
      subst hp
      show Reloaded p₀ (if _ then _ else _)
      split
      · exact h.program _
      · exact h
  | wake _ _ _ _ hp =>
      rcases hp with rfl | rfl
      · exact h
      · exact h.program 1
  | switch => exact h.program _
  | exit => exact h.program _
  | create _ hcr =>
      rw [hcr.pit]
      exact h
  | notify | reap | mark | block | pop | kill | image | fpu => exact h

/-! ## the sleepers -/

/-- Nobody's deadline comes before the moment up to which it has asked to sleep. -/
def Patient (asked : Nat → Nat) (s : Sched) : Prop := ∀ e ∈ s.queue, asked e.taskId ≤ e.deadline

/-- An operation keeps the sleepers patient. -/
theorem effect_patient (he : Effect s₀ op s s') (hc : SleepsAwake s₀ op) (hq : Queued s)
    (hsleep : ∀ ms, op = .sleep ms → asked s₀.currentIdx ≤ add64 s₀.pit.uptimeMs ms)
    (h : Patient asked s) : Patient asked s' := by
  intro e hmem
  rcases he.mem_queue hc hq hmem with hold | ⟨ms, hop, rfl⟩
  · exact h e hold
  · exact hsleep ms hop

/-- **The wakeup loop** wakes the tasks that are due only. -/
theorem wakeExpired_due {now k i : Nat} (h : Queued s) (hw : wakeExpired now k s = .ok s')
    (hb : (s.tasks i).state = .blocked)
    (hr : (s'.tasks i).state ≠ .blocked) : ∃ e ∈ s.queue, e.taskId = i ∧ e.deadline ≤ now := by
  induction k generalizing s with
  | zero =>
      simp only [wakeExpired, Except.ok.injEq] at hw
      subst hw
      exact absurd hb hr
  | succ k ih =>
      unfold wakeExpired at hw
      split at hw
      · next h0 =>
          rw [read_of_lt (by decide)] at hw
          simp only [bind_eq_ok, Except.ok.injEq, exists_eq_left'] at hw
          split at hw
          · next hdue =>
              rw [bind_eq_ok] at hw
              obtain ⟨s₁, hp, hw⟩ := hw
              obtain ⟨q, n, hq, rfl⟩ := popSleeper_ok hp
              by_cases hi : i = (s.sleepQueue 0).taskId
              · exact ⟨_, head_mem h0, hi.symm, hdue⟩
              · obtain ⟨e, he, hid, hle⟩ :=
                  ih (h.pop h0 hq) hw (by simp only [modify_tasks, hi, if_false]; exact hb)
                change e ∈ toList q n at he
                rw [hq h0 h.fits] at he
                exact ⟨e, List.mem_of_mem_tail he, hid, hle⟩
          · simp only [Except.ok.injEq] at hw
            subst hw
            exact absurd hb hr
      · simp only [Except.ok.injEq] at hw
        subst hw
        exact absurd hb hr

/-- The switch at the end of `tick` wakes nobody. -/
theorem reschedule_blocked {now e i : Nat} (h : s.reschedule now = .ok (e, s'))
    (hb : (s.tasks i).state = .blocked) :
    (s'.tasks i).state = .blocked := by
  rcases reschedule_ok h with ⟨m, _, rfl⟩ | ⟨next, _, _, _, hready, rfl⟩
  · exact hb
  · rcases switch_moves hready i with hs | ⟨hr, -⟩
    · exact hs.trans hb
    · rw [hb] at hr
      rcases hr with hr | hr
      · contradiction
      · contradiction

/-! ## runs -/

/-- What holds in every run that is on time. -/
structure Kept (c : Clock) : Prop where
  prepared : Prepared c.since c.sched
  loaded : c.pending = true → c.sched.pit.deadlineMs = add64 c.since c.sched.pit.loadedMs
  loaded_le : c.sched.pit.loadedMs ≤ Pit.pitMaxMs
  patient : Patient c.asked c.sched

/-- The scheduler did something, and the timer was loaded at the right moment. -/
theorem Kept.after (h : Kept c) (hprepared : Prepared c.since s) (hpit : Reloaded c.sched.pit s.pit)
    (hmoment : s.pit.loads = c.sched.pit.loads ∨ c.now = c.since) (hpatient : Patient asked s) :
    Kept { c.after s with asked } := by
  unfold Clock.after
  split
  · next hloads =>
      have hsame : s.pit = c.sched.pit := by
        rcases hpit with heq | ⟨hlt, -⟩
        · exact heq
        · omega
      refine ⟨hprepared, fun hp => ?_, ?_, hpatient⟩
      · rw [hsame]
        exact h.loaded hp
      · rw [hsame]
        exact h.loaded_le
  · next hloads =>
      have hnow := hmoment.resolve_left hloads
      rcases hpit with heq | ⟨-, hdead, hle⟩
      · exact absurd (congrArg Pit.loads heq) hloads
      · rw [hprepared.ticks] at hdead
        refine ⟨?_, fun _ => ?_, hle, hpatient⟩
        · rw [hnow]
          exact hprepared
        · rw [hnow]
          exact hdead

/-- **An operation** other than the timer's. -/
theorem Kept.step (h : Kept c) (hc : SleepsAwake c.sched op) (hpit : op ≠ .pitTick)
    (hinit : op ≠ .init)
    (hsleep : ∀ ms, op = .sleep ms → c.now = c.since ∧ c.sched.pit.ticks + ms < 2 ^ 64)
    (hmoment : s.pit.loads = c.sched.pit.loads ∨ c.now = c.since) (hs : c.sched.step op = .ok s) :
    Kept { c.after s with asked := c.asks op } := by
  have hinv := h.prepared.inv
  have hdeadline : ∀ ms, op = .sleep ms → c.asks op c.sched.currentIdx ≤
      add64 c.sched.pit.uptimeMs ms := by
    rintro ms rfl
    obtain ⟨hnow, hfits⟩ := hsleep ms rfl
    have hsum : add64 c.sched.pit.uptimeMs ms = c.sched.pit.ticks + ms := Nat.mod_eq_of_lt hfits
    have hasked : c.asks (.sleep ms) c.sched.currentIdx = c.now + ms := set_self ..
    rw [hsum, h.prepared.ticks, hasked]
    exact Nat.add_le_add_right (Nat.le_of_eq hnow) ms
  have hstart : Patient (c.asks op) c.sched := by
    intro e hmem
    unfold asks
    split
    · rw [set_of_ne _ _ (hinv.2.1.no_entry hc e hmem)]
      exact h.patient e hmem
    · exact h.patient e hmem
  obtain ⟨hprepared, hreloaded, hpatient⟩ := step_inv
    (P := fun a => Prepared c.since a ∧ Reloaded c.sched.pit a.pit ∧ Patient (c.asks op) a)
      hinv.1.cur_lt hinv.1.cur_live
    (fun a b he ha => ⟨he.prepared hc hpit hinit h.prepared.ticks ha.1,
        effect_reloaded he hpit hinit ha.2.1,
      effect_patient he hc ha.1.inv.2.1 hdeadline ha.2.2⟩) ⟨h.prepared, .inl rfl, hstart⟩ hs
  exact h.after hprepared hreloaded hmoment hpatient

/-- The clock after the timer has fired. -/
theorem Kept.fired_ticks (h : Kept c) (hdue : c.Due)
    (hroom : c.sched.pit.ticks + Pit.pitMaxMs < 2 ^ 64) : c.sched.pit.deadlineMs = c.now := by
  obtain ⟨hpending, hnow⟩ := hdue
  have hticks := h.prepared.ticks
  have hle := h.loaded_le
  have hsum : add64 c.since c.sched.pit.loadedMs = c.since + c.sched.pit.loadedMs :=
    Nat.mod_eq_of_lt (by omega)
  rw [h.loaded hpending, hsum, hnow]

/-- **The timer fires**. -/
theorem Kept.fired (h : Kept c) (hdue : c.Due) (hroom : c.sched.pit.ticks + Pit.pitMaxMs < 2 ^ 64) :
    Kept c.fired where
  prepared := by
    have hinv := h.prepared.inv
    refine ⟨⟨?_, ?_, hinv.2.2⟩, h.fired_ticks hdue hroom, ?_⟩
    · exact hinv.1.congr rfl rfl (fun _ => rfl) fun _ => rfl
    · exact hinv.2.1.congr rfl (fun _ => rfl) fun _ => rfl
    · have hstarted := h.prepared.started
      have hnow := hdue.2
      show c.sched.quantumStartMs ≤ c.now
      omega
  loaded hp := by simp [Clock.fired] at hp
  loaded_le := h.loaded_le
  patient := h.patient

/-- Nothing passes between. -/
theorem after_same (c : Clock) (s : Sched) : { c.after s with asked := c.asked } = c.after s := by
  unfold Clock.after
  split
  · rfl
  · rfl

/-- The clock at the start. -/
theorem boot_kept (s : Sched) : Kept (boot s) where
  prepared := (boot_clocked s).prepared
  loaded _ := rfl
  loaded_le := loadedMs_le _ 1
  patient := by
    intro e hmem
    exact Nat.zero_le _

/-- **The timer interrupt**. -/
theorem Kept.irq {esp : Nat} {frame : TrapFrame} {intact : Bool} (h : Kept c) (hdue : c.Due)
    (hroom : c.sched.pit.ticks + Pit.pitMaxMs < 2 ^ 64)
    (hs : c.fired.sched.step (.tick esp frame intact) = .ok s) :
    Kept (c.fired.after s) := by
  have hawake : SleepsAwake c.fired.sched (.tick esp frame intact) := trivial
  have hkept := (h.fired hdue hroom).step hawake (by simp) (by simp) (fun ms hop => by simp at hop)
    (.inr rfl) hs
  rwa [show { c.fired.after s with asked := c.fired.asks (.tick esp frame intact) } =
    c.fired.after s from after_same _ _] at hkept

/-- An operation takes no time. -/
theorem after_moment (c : Clock) (s : Sched) (h : c.since = c.now) :
    (c.after s).since = c.now ∧ (c.after s).now = c.now := by
  unfold Clock.after
  split
  · exact ⟨h, rfl⟩
  · exact ⟨rfl, rfl⟩

/-- **Every step** that is on time. -/
theorem kept_step {o : ClockOp} (h : Kept c) (hop : OnTime c o) (hs : c.step o = .ok c') :
    Kept c' := by
  obtain ⟨hregular, hmoment⟩ := hop
  cases o with
  | pass ms =>
      unfold Clock.step at hs
      dsimp only at hs
      split at hs
      · contradiction
      · obtain rfl := Except.ok.inj hs
        exact { h with }
  | program ms =>
      obtain rfl := Except.ok.inj hs
      have hprepared : Prepared c.since { c.sched with pit := c.sched.pit.programForMs ms } := by
        have hinv := h.prepared.inv
        refine ⟨⟨?_, ?_, hinv.2.2⟩, h.prepared.ticks, h.prepared.started⟩
        · exact hinv.1.congr rfl rfl (fun _ => rfl) fun _ => rfl
        · exact hinv.2.1.congr rfl (fun _ => rfl) fun _ => rfl
      have hreloaded : Reloaded c.sched.pit (c.sched.pit.programForMs ms) :=
        Reloaded.program (.inl rfl) ms
      have hafter := h.after hprepared hreloaded (.inr hmoment) h.patient
      rwa [after_same] at hafter
  | irq esp frame intact =>
      unfold Clock.step at hs
      dsimp only at hs
      split at hs
      · next hdue =>
          split at hs
          · next s hstep =>
              obtain rfl := Except.ok.inj hs
              exact h.irq hdue hregular hstep
          · contradiction
      · contradiction
  | sys op =>
      unfold Clock.step at hs
      dsimp only at hs
      split at hs
      · next s hstep =>
          obtain rfl := Except.ok.inj hs
          obtain ⟨⟨hc, hinit, hpit, -⟩, hunwrapped⟩ := hregular
          refine h.step hc hpit hinit ?_ ?_ hstep
          · rintro ms rfl
            exact ⟨hmoment, hunwrapped⟩
          · have heq : c.LeavesTimer op ↔ s.pit.loads = c.sched.pit.loads := by
              unfold LeavesTimer
              rw [hstep]
            cases op with
            | sleep ms => exact .inr hmoment
            | _ => exact hmoment.imp_left heq.mp
      · contradiction

/-- **A state that is on time** keeps time. -/
theorem Kept.keepsTime (h : Kept c) (hroom : c.sched.pit.ticks + Pit.pitMaxMs < 2 ^ 64) :
    KeepsTime c where
  shows := by
    intro esp frame intact c' hs
    unfold Clock.step at hs
    dsimp only at hs
    split at hs
    · next hdue =>
        split at hs
        · next s hstep =>
            obtain rfl := Except.ok.inj hs
            have hticks := (h.irq hdue hroom hstep).prepared.ticks
            obtain ⟨hsince, hnow⟩ := after_moment c.fired s rfl
            rw [hticks, hsince, hnow]
        · contradiction
    · contradiction
  patient := by
    intro hdue esp frame intact e s' ht i hb hr
    have hfired := h.fired hdue hroom
    have hdead := h.fired_ticks hdue hroom
    have hinv := hfired.prepared.inv
    rcases tick_ok ht with ⟨hi, -⟩ | ⟨hnone, -⟩ | ⟨e', s₁, s₂, -, -, hquiet, hwake, hresched⟩
    · exact absurd hi (by rw [show _ = true from hinv.2.2]; decide)
    · contradiction
    · have hquiet' : Quiet c.fired.sched s₁ := (Quiet.frames c.fired.sched _).trans hquiet
      have heffect : Effect c.fired.sched .blockCurrentTask c.fired.sched s₁ := .quiet hquiet'
      have hqueued : Queued s₁ := heffect.queued trivial hinv.1 hinv.2.1
      have hstill : (s₂.tasks i).state ≠ .blocked := fun hb₂ => hr (reschedule_blocked hresched hb₂)
      obtain ⟨x, hmem, rfl, hle⟩ :=
        wakeExpired_due hqueued hwake ((hquiet'.state i).trans hb) hstill
      rw [hquiet'.queue] at hmem
      have hasked := h.patient x hmem
      change x.deadline ≤ c.sched.pit.deadlineMs at hle
      omega

/-- **The clock keeps time** in every run in which the timer is loaded, and tasks go to
sleep, only at the moments at which the timer was loaded or has fired. -/
theorem clock_keeps_time {s₀ : Sched} {tr : List ClockOp}
    (h : Reach Clock.step OnTime (boot s₀) tr c)
    (hroom : c.sched.pit.ticks + Pit.pitMaxMs < 2 ^ 64) : KeepsTime c :=
  (h.inv (boot_kept s₀) fun _ _ _ hk hop hs => kept_step hk hop hs).keepsTime hroom

/-- Two tasks, of which the second goes to sleep at an interrupt. -/
def sleepAtIrq : List ClockOp :=
  [.sys (.addTask true 0x1000 0 Task.priorityNormal 0x8000),
    .sys (.addTask true 0x2000 0 Task.priorityNormal 0xA000),
    .pass 1, .irq 0 {} true, .pass 19, .irq 0 {} true, .sys (.sleep 5), .pass 5]

/-- A task that goes to sleep right after an interrupt. -/
theorem clock_keeps_time_sleepAtIrq :
    ∃ c, Reach Clock.step OnTime (boot {}) sleepAtIrq c ∧ c.Due ∧ c.now = 25 ∧ KeepsTime c := by
  obtain ⟨c, hr, hp⟩ := Reach.of_runsTo Clock.step OnTime (boot {}) sleepAtIrq
    (fun c => decide (c.Due ∧ c.now = 25 ∧ c.sched.pit.ticks + Pit.pitMaxMs < 2 ^ 64)) (by decide)
  obtain ⟨hdue, hnow, hroom⟩ := of_decide_eq_true hp
  exact ⟨c, hr, hdue, hnow, clock_keeps_time hr hroom⟩

/-- The next interrupt finds the clock wrong. -/
def drifts (c : Clock) : Bool :=
  match c.step (.irq 0 {} true) with
  | .ok c' => decide (c'.sched.pit.ticks ≠ c'.now)
  | .error _ => false

/-- A clock that drifts. -/
theorem not_keepsTime (h : c.drifts = true) : ¬ KeepsTime c := by
  intro hkeeps
  unfold drifts at h
  split at h
  · next c' hs => exact of_decide_eq_true h (hkeeps.shows 0 {} true c' hs)
  · contradiction

/-- The timer is loaded for 10 ms, and loaded again after 5 of them: they are lost. -/
theorem clock_drifts :
    ¬ ∀ (tr : List ClockOp) (c : Clock), Reach Clock.step Regularly (boot {}) tr c →
      c.sched.pit.ticks + Pit.pitMaxMs < 2 ^ 64 → KeepsTime c := by
  intro hall
  obtain ⟨c, hrun, hp⟩ :=
    Reach.of_runsTo Clock.step Regularly (boot {}) [.program 10, .pass 5, .program 10, .pass 10]
    (fun c => decide (c.drifts = true ∧ c.sched.pit.ticks + Pit.pitMaxMs < 2 ^ 64)) (by decide)
  obtain ⟨hdrifts, hroom⟩ := of_decide_eq_true hp
  exact not_keepsTime hdrifts (hall _ c hrun hroom)

end Clock

end Doors
