import Doors.Scheduler.SleepQueue

/-!
# Doors.Scheduler.Timer

The one-shot timer is armed in time.

In tickless mode the timer fires once for every time it is programmed, so in
every state it has to be programmed for a moment that is not too late for the
earliest sleeper, for the end of the running quantum and for the 16-bit
counter.  `Armed` says so; `programNextTick` establishes it (`programNextTick_armed`)
and the two other places that program the timer keep it.

The arithmetic is 64-bit.  `timer_armed` needs that no sum of it wraps; the
deadline of `sleep` is the sum that a caller can make wrap (`timer_late`).
-/

namespace Doors

open Cells Run

/-- A timer interrupt, `Pit::tick` followed by `Scheduler::tick`, or another
operation. -/
inductive TimerOp where
  | irq (esp : Nat) (frame : TrapFrame) (intact : Bool)
  | sys (op : Op)

namespace Sched

open Scheduler

/-- The kernel after `Pit::init` and `Scheduler::init`. -/
def boot (s : Sched) : Sched := { s.init with pit := s.pit.init }

/-- One step with the timer interrupt as a whole. -/
def timerStep (s : Sched) : TimerOp → Except Fault Sched
  | .irq esp frame intact => do
      let s ← s.step .pitTick
      s.step (.tick esp frame intact)
  | .sys op => s.step op

/-- The timer is armed in time. -/
structure Armed (s : Sched) : Prop where
  later : s.pit.uptimeMs < s.pit.deadline
  soon : s.pit.deadline ≤ s.pit.uptimeMs + Pit.pitMaxMs
  sleeper : 0 < s.sleepCount → s.pit.deadline ≤ max (s.pit.uptimeMs + 1) (s.sleepQueue 0).deadline
  quantum : sub64 s.pit.uptimeMs s.quantumStartMs < quantumMs →
    s.pit.deadline ≤ s.quantumStartMs + quantumMs

/-- Programs: the scheduler is initialised once and whoever goes to sleep is
awake; the timer interrupt is a step of its own. -/
def Regular (s : Sched) : TimerOp → Prop
  | .irq _ _ _ => True
  | .sys op => SleepsAwake s op ∧ op ≠ .init ∧ op ≠ .pitTick ∧ ∀ esp frame intact,
      op ≠ .tick esp frame intact

/-- No sum wraps: the clock is at least one longest delay away from its end,
and so is the end of every sleep. -/
def Unwrapped (s : Sched) : TimerOp → Prop
  | .irq _ _ _ => s.pit.deadlineMs + Pit.pitMaxMs < 2 ^ 64
  | .sys (.sleep ms) => s.pit.ticks + ms < 2 ^ 64
  | .sys _ => True

/-- The steps of the runs in which the timer is armed in time. -/
def InTime (s : Sched) (op : TimerOp) : Prop := Regular s op ∧ Unwrapped s op

instance (s : Sched) (op : TimerOp) : Decidable (Regular s op) := by
  match op with
  | .irq .. => exact inferInstanceAs (Decidable True)
  | .sys .init => exact isFalse fun h => h.2.1 rfl
  | .sys .pitTick => exact isFalse fun h => h.2.2.1 rfl
  | .sys (.tick esp frame intact) => exact isFalse fun h => h.2.2.2 esp frame intact rfl
  | .sys (.sleep ms) =>
      exact decidable_of_iff (s.cur.state ≠ .blocked)
        ⟨fun h => ⟨h, by simp, by simp, by simp⟩, fun h => h.1⟩
  | .sys (.addTask ..) | .sys (.addUserElfTask ..) | .sys (.fork ..) | .sys (.exec _)
  | .sys .blockCurrentTask | .sys (.unblockTask _) | .sys (.sendSignal ..) | .sys (.killTask _)
  | .sys (.exitCurrentTask _) | .sys (.setUnblockOnExit ..) | .sys
    (.waitpid _) | .sys .waitpidResume
  | .sys (.deliverSignals _) | .sys (.fpu _) => exact isTrue ⟨trivial, by simp, by simp, by simp⟩

instance (s : Sched) (op : TimerOp) : Decidable (Unwrapped s op) := by
  match op with
  | .irq .. => unfold Unwrapped; infer_instance
  | .sys op => apply @Op.casesOn _ op <;> intros <;> unfold Unwrapped <;> infer_instance

instance (s : Sched) (op : TimerOp) : Decidable (InTime s op) := inferInstanceAs (Decidable (_ ∧ _))

variable {s₀ s s' : Sched} {op : Op}

/-! ## arming -/

/-- The clock is not about to wrap, and the quantum started before now. -/
structure Timely (s : Sched) : Prop where
  room : s.pit.ticks + Pit.pitMaxMs < 2 ^ 64
  started : s.quantumStartMs ≤ s.pit.ticks

/-- A difference that does not wrap. -/
theorem sub64_of_le {a b : Nat} (hb : b ≤ a) (ha : a < 2 ^ 64) : sub64 a b = a - b := by
  rw [sub64]
  omega

/-- A difference that is cut to 32 bits is never stretched. -/
theorem sub64_mod_le {a b : Nat} (hb : b < a) : sub64 a b % 2 ^ 32 ≤ a - b := by
  have h : sub64 a b = (a - b) % 2 ^ 64 := by
    rw [sub64, show a + 2 ^ 64 - b = (a - b) + 2 ^ 64 by omega, Nat.add_mod_right]
  rw [h]
  exact Nat.le_trans (Nat.mod_le _ _) (Nat.mod_le _ _)

/-- The delay before the quantum and the limits of the counter are looked at. -/
def sleeperMs (s : Sched) : Nat :=
  if s.sleepCount > 0 then
    if (s.sleepQueue 0).deadline > s.pit.ticks then
      sub64 (s.sleepQueue 0).deadline s.pit.ticks % 2 ^ 32
    else 1
  else Pit.pitMaxMs

/-- The time to the first sleeper. -/
theorem sleeperMs_le (h0 : 0 < s.sleepCount) :
    s.pit.ticks + max 1 s.sleeperMs ≤ max (s.pit.ticks + 1) (s.sleepQueue 0).deadline := by
  unfold sleeperMs
  rw [if_pos h0]
  by_cases hlate : (s.sleepQueue 0).deadline > s.pit.ticks
  · have hcut := sub64_mod_le hlate
    rw [if_pos hlate]
    generalize sub64 (s.sleepQueue 0).deadline s.pit.ticks % 2 ^ 32 = c at hcut ⊢
    omega
  · rw [if_neg hlate]
    omega

/-- The next tick is due at the end of the quantum or for the first sleeper. -/
theorem nextTickMs_eq (hroom : s.pit.ticks < 2 ^ 64) (hstart : s.quantumStartMs ≤ s.pit.ticks) :
    s.nextTickMs =
      max 1
        (min (if s.pit.ticks - s.quantumStartMs < 20 ∧
          20 - (s.pit.ticks - s.quantumStartMs) < s.sleeperMs
        then 20 - (s.pit.ticks - s.quantumStartMs) else s.sleeperMs) 54) := by
  have helapsed := sub64_of_le hstart hroom
  rw [← helapsed]
  rfl

/-- The delay that `programNextTick` asks for. -/
theorem nextTickMs_bounds (h : Timely s) :
    1 ≤ s.nextTickMs ∧ s.nextTickMs ≤ Pit.pitMaxMs ∧
      (0 < s.sleepCount → s.pit.ticks + s.nextTickMs ≤
        max (s.pit.ticks + 1) (s.sleepQueue 0).deadline) ∧
      (s.pit.ticks < s.quantumStartMs + quantumMs →
        s.pit.ticks + s.nextTickMs ≤ s.quantumStartMs + quantumMs) := by
  have hstart := h.started
  have hroom : s.pit.ticks < 2 ^ 64 := Nat.lt_of_le_of_lt (Nat.le_add_right _ _) h.room
  have hhead : 0 < s.sleepCount → _ := sleeperMs_le
  rw [nextTickMs_eq hroom hstart, show Pit.pitMaxMs = 54 from rfl, show quantumMs = 20 from rfl]
  clear hroom h
  generalize s.sleeperMs = d at hhead ⊢
  generalize max (s.pit.ticks + 1) (s.sleepQueue 0).deadline = m at hhead ⊢
  refine ⟨by omega, by omega, fun h0 => ?_, fun hq => ?_⟩
  · have := hhead h0
    split <;> omega
  · split <;> omega

-- from here on only the bounds of the delay are used, and it is not unfolded
seal nextTickMs

/-- `programForMs` within the limits of the counter and of the clock. -/
theorem programForMs_deadline {p : Pit} {ms : Nat} (h1 : 1 ≤ ms) (hmax : ms ≤ Pit.pitMaxMs)
    (hroom : p.ticks + Pit.pitMaxMs < 2 ^ 64) : (p.programForMs ms).deadlineMs = p.ticks + ms := by
  have hzero : ¬ ms = 0 := Nat.pos_iff_ne_zero.mp h1
  have hfits : p.ticks + ms < 2 ^ 64 := Nat.lt_of_le_of_lt (Nat.add_le_add_left hmax _) hroom
  unfold Pit.programForMs
  dsimp only
  rw [if_neg hzero, if_neg (Nat.not_lt.mpr hmax)]
  exact Nat.mod_eq_of_lt hfits

/-- A delay that is short enough for the counter, the earliest sleeper and the
quantum arms the timer in time. -/
theorem programForMs_armed {ms : Nat} (h : Timely s) (h1 : 1 ≤ ms) (hmax : ms ≤ Pit.pitMaxMs)
    (hsleep : 0 < s.sleepCount → s.pit.ticks + ms ≤ max (s.pit.ticks + 1) (s.sleepQueue 0).deadline)
    (hquantum : s.pit.ticks < s.quantumStartMs + quantumMs →
      s.pit.ticks + ms ≤ s.quantumStartMs + quantumMs) : Armed (s.programForMs ms) := by
  have hdead : (s.programForMs ms).pit.deadlineMs = s.pit.ticks + ms :=
    programForMs_deadline h1 hmax h.room
  have hroom : s.pit.ticks < 2 ^ 64 := Nat.lt_of_le_of_lt (Nat.le_add_right _ _) h.room
  have hrun : sub64 s.pit.ticks s.quantumStartMs < quantumMs →
      s.pit.ticks < s.quantumStartMs + quantumMs := by
    rw [sub64_of_le h.started hroom]
    exact (Nat.sub_lt_iff_lt_add' h.started).mp
  constructor
  · exact Nat.lt_of_lt_of_le (Nat.lt_add_of_pos_right h1) (Nat.le_of_eq hdead.symm)
  · exact Nat.le_trans (Nat.le_of_eq hdead) (Nat.add_le_add_left hmax _)
  · exact fun h0 => Nat.le_trans (Nat.le_of_eq hdead) (hsleep h0)
  · exact fun hq => Nat.le_trans (Nat.le_of_eq hdead) (hquantum (hrun hq))

/-- **Arming**: `programNextTick` arms the timer in time. -/
theorem programNextTick_armed (h : Timely s) : Armed s.programNextTick := by
  obtain ⟨h1, hmax, hsleep, hquantum⟩ := nextTickMs_bounds h
  unfold programNextTick
  exact programForMs_armed h h1 hmax hsleep hquantum

/-- A new deadline between now and the old one is in time as well. -/
theorem Armed.sooner (h : Armed s) (hticks : s'.pit.ticks = s.pit.ticks)
    (hstart : s'.quantumStartMs = s.quantumStartMs) (hlater : s.pit.ticks < s'.pit.deadlineMs)
    (hsooner : s'.pit.deadlineMs ≤ s.pit.deadlineMs)
    (hhead : 0 < s'.sleepCount → s'.pit.deadlineMs ≤
    max (s.pit.ticks + 1) (s'.sleepQueue 0).deadline) :
    Armed s' := by
  have hsoon := h.soon
  have hquantum := h.quantum
  unfold Pit.uptimeMs Pit.deadline at hsoon hquantum
  constructor
  · unfold Pit.uptimeMs Pit.deadline
    omega
  · unfold Pit.uptimeMs Pit.deadline
    omega
  · unfold Pit.uptimeMs Pit.deadline
    rw [hticks]
    exact hhead
  · unfold Pit.uptimeMs Pit.deadline
    rw [hticks, hstart]
    intro hq
    exact Nat.le_trans hsooner (hquantum hq)

/-! ## the earliest sleeper -/

/-- No entry is earlier than the head. -/
theorem head_le (hq : Queued s) {e : SleepEntry} (hmem : e ∈ s.queue) :
    0 < s.sleepCount ∧ (s.sleepQueue 0).deadline ≤ e.deadline := by
  have hpos : 0 < s.sleepCount := by
    by_contra hz
    have hnil : s.queue = [] := List.length_eq_zero_iff.mp (by rw [length_queue]; omega)
    rw [hnil] at hmem
    contradiction
  have hsorted := hq.sorted
  rw [queue_eq_cons hpos, List.pairwise_cons] at hsorted
  rw [queue_eq_cons hpos, List.mem_cons] at hmem
  refine ⟨hpos, ?_⟩
  rcases hmem with he | he
  · exact Nat.le_of_eq (congrArg SleepEntry.deadline he.symm)
  · exact hsorted.1 _ he

/-- The head is in the queue. -/
theorem head_mem (h0 : 0 < s.sleepCount) : s.sleepQueue 0 ∈ s.queue := by
  rw [queue_eq_cons h0]
  exact List.mem_cons_self

/-- The timer, the quantum and the queue stay, or the queue shrinks. -/
theorem Armed.shrink (h : Armed s) (hq : Queued s) (hsub : ∀ e ∈ s'.queue, e ∈ s.queue)
    (hpit : s'.pit = s.pit) (hstart : s'.quantumStartMs = s.quantumStartMs) : Armed s' := by
  have hlater := h.later
  unfold Pit.uptimeMs Pit.deadline at hlater
  have hticks : s'.pit.ticks = s.pit.ticks := by rw [hpit]
  have hdead : s'.pit.deadlineMs = s.pit.deadlineMs := by rw [hpit]
  refine h.sooner hticks hstart (by omega) (by omega) fun h0 => ?_
  obtain ⟨hpos, hle⟩ := head_le hq (hsub _ (head_mem h0))
  have hsleep := h.sleeper hpos
  unfold Pit.uptimeMs Pit.deadline at hsleep
  rw [hdead]
  omega

/-! ## effects -/

/-- The invariant between the effects of an operation at time `now`. -/
structure Prepared (now : Nat) (s : Sched) : Prop where
  inv : SleepInv s
  ticks : s.pit.ticks = now
  started : s.quantumStartMs ≤ now

variable {now : Nat}

/-- What is prepared is timely. -/
theorem Prepared.timely (h : Prepared now s) (hroom : now + Pit.pitMaxMs < 2 ^ 64) : Timely s :=
  ⟨by rw [h.ticks]; exact hroom, by rw [h.ticks]; exact h.started⟩

/-- An operation leaves the timer prepared. -/
theorem Effect.prepared (he : Effect s₀ op s s') (hc : SleepsAwake s₀ op) (hpit : op ≠ .pitTick)
    (hinit : op ≠ .init) (hnow : s₀.pit.ticks = now) (h : Prepared now s) : Prepared now s' := by
  have hinv := he.sleepInv hc h.inv
  have hprogram : ∀ ms, (s.pit.programForMs ms).ticks = now := fun ms =>
    (Pit.programForMs_ticks s.pit ms).trans h.ticks
  cases he with
  | init hop => exact absurd hop hinit
  | quiet hq =>
      obtain ⟨_, _, _, _, rfl⟩ := hq.rest
      exact ⟨hinv, h.ticks, h.started⟩
  | timer m p hp =>
      rcases hp with ⟨hop, _⟩ | ⟨hm, rfl⟩
      · exact absurd hop hpit
      · refine ⟨hinv, hprogram _, ?_⟩
        rcases hm with rfl | rfl
        · exact h.started
        · exact Nat.le_of_eq hnow
  | @sleep ms q n p _ _ _ _ hp =>
      have hp' : p.ticks = now := by
        rw [hp]
        split
        · exact hprogram _
        · exact h.ticks
      exact ⟨hinv, hp', h.started⟩
  | @wake j q n p _ _ _ _ hp =>
      have hp' : p.ticks = now := by
        rcases hp with rfl | rfl
        · exact h.ticks
        · exact hprogram 1
      exact ⟨hinv, hp', h.started⟩
  | switch => exact ⟨hinv, hprogram _, Nat.le_of_eq h.ticks⟩
  | exit => exact ⟨hinv, hprogram _, Nat.le_of_eq h.ticks⟩
  | create _ hcr =>
      exact ⟨hinv, by rw [hcr.pit]; exact h.ticks, by rw [hcr.quantumStartMs]; exact h.started⟩
  | notify | reap | mark | block | pop | kill | image | fpu => exact ⟨hinv, h.ticks, h.started⟩

/-- A switch arms the timer. -/
theorem install_armed (s : Sched) (next : Nat) (hroom : s.pit.ticks + Pit.pitMaxMs < 2 ^ 64) :
    Armed (s.install next) := by
  unfold install
  exact programNextTick_armed ⟨hroom, Nat.le_refl _⟩

/-- The timer of a task that is woken may be set to the next millisecond. -/
theorem Armed.wake {p : Pit} (h : Armed s) (hq : Queued s)
    (hroom : s.pit.ticks + Pit.pitMaxMs < 2 ^ 64)
    (hp : p = s.pit ∨ p = s.pit.programForMs 1) (hpit : s'.pit = p)
    (hsub : ∀ e ∈ s'.queue, e ∈ s.queue)
    (hstart : s'.quantumStartMs = s.quantumStartMs) : Armed s' := by
  rcases hp with rfl | rfl
  · exact h.shrink hq hsub hpit hstart
  · have hdead : (s.pit.programForMs 1).deadlineMs = s.pit.ticks + 1 :=
      programForMs_deadline (Nat.le_refl 1) (by decide) hroom
    have hticks : s'.pit.ticks = s.pit.ticks := by rw [hpit, Pit.programForMs_ticks]
    have hnew : s'.pit.deadlineMs = s.pit.ticks + 1 := by rw [hpit, hdead]
    have hlater := h.later
    unfold Pit.uptimeMs Pit.deadline at hlater
    exact h.sooner hticks hstart (by omega) (by omega) fun _ => by omega

/-- **Sleep** keeps the timer armed, for the new sleeper as well. -/
theorem Armed.sleep {ms : Nat} (h : Armed s) (hq : Queued s)
    (hroom : s.pit.ticks + Pit.pitMaxMs < 2 ^ 64)
    (hms : s.pit.ticks + ms < 2 ^ 64)
    (hpit : s'.pit = if add64 s.pit.uptimeMs ms < s.pit.deadline
    then s.pit.programForMs (ms % 2 ^ 32)
      else s.pit)
    (hmem : ∀ e ∈ s'.queue, e.deadline = add64 s.pit.uptimeMs ms ∨ e ∈ s.queue)
    (hstart : s'.quantumStartMs = s.quantumStartMs) : Armed s' := by
  have hmax : Pit.pitMaxMs = 54 := rfl
  have hlater := h.later
  have hsoon := h.soon
  have hsleep := h.sleeper
  unfold Pit.uptimeMs Pit.deadline at hlater hsoon hsleep hpit
  unfold Pit.uptimeMs at hmem
  have hsum : add64 s.pit.ticks ms = s.pit.ticks + ms := Nat.mod_eq_of_lt hms
  rw [hsum] at hpit hmem
  have hnew : s'.pit.ticks = s.pit.ticks ∧ s'.pit.deadlineMs =
      if s.pit.ticks + ms < s.pit.deadlineMs then s.pit.ticks + max 1 ms else s.pit.deadlineMs := by
    rw [hpit]
    split
    · refine ⟨rfl, ?_⟩
      have hmod : ms % 2 ^ 32 = ms := Nat.mod_eq_of_lt (by omega)
      rw [hmod]
      by_cases h0 : ms = 0
      · subst h0
        have hone : s.pit.programForMs 0 = s.pit.programForMs 1 := rfl
        rw [hone, programForMs_deadline (Nat.le_refl 1) (by decide) hroom]
        rfl
      · rw [programForMs_deadline (by omega) (by omega) hroom]
        omega
    · exact ⟨rfl, rfl⟩
  obtain ⟨hticks, hdead⟩ := hnew
  refine h.sooner hticks hstart ?_ ?_ fun h0 => ?_
  · split at hdead <;> omega
  · split at hdead <;> omega
  · rcases hmem _ (head_mem h0) with he | he
    · rw [he]
      split at hdead <;> omega
    · -- an old entry is not earlier than the old head
      obtain ⟨hpos, hle⟩ := head_le hq he
      have := hsleep hpos
      split at hdead <;> omega

/-- An operation leaves the timer armed. -/
theorem Effect.armed (he : Effect s₀ op s s') (hc : SleepsAwake s₀ op) (hpit : op ≠ .pitTick)
    (hinit : op ≠ .init) (hroom : now + Pit.pitMaxMs < 2 ^ 64)
    (hsleep : ∀ ms, op = .sleep ms → now + ms < 2 ^ 64) (hnow : s₀.pit.ticks = now)
    (h : Prepared now s)
    (ha : Armed s) : Armed s' := by
  have hq := h.inv.2.1
  have hroom' : s.pit.ticks + Pit.pitMaxMs < 2 ^ 64 := by
    rw [h.ticks]
    exact hroom
  cases he with
  | init hop => exact absurd hop hinit
  | quiet hquiet =>
      have hsame := hquiet.queue
      obtain ⟨_, _, _, _, rfl⟩ := hquiet.rest
      exact ha.shrink hq (fun e hm => hsame ▸ hm) rfl rfl
  | timer m p hp =>
      rcases hp with ⟨hop, _⟩ | ⟨hm, rfl⟩
      · exact absurd hop hpit
      · have hm' : m ≤ s.pit.ticks := by
          rw [h.ticks]
          rcases hm with rfl | rfl
          · exact h.started
          · exact Nat.le_of_eq hnow
        have harmed := programNextTick_armed (s := { s with quantumStartMs := m }) ⟨hroom', hm'⟩
        exact harmed
  | @sleep ms q n p hop hs hlt hins hp =>
      subst hs hop
      have hmsroom := hsleep ms rfl
      rw [← hnow] at hmsroom
      have hcount := hq.room hlt (hq.no_entry hc)
      refine ha.sleep hq hroom' hmsroom hp (fun e hm => ?_) rfl
      rcases (hins.mem hcount).mp hm with rfl | hm
      · exact .inl rfl
      · exact .inr hm
  | @wake j q n p hwhy hlt hb hq' hp =>
      refine ha.wake hq hroom' hp rfl (fun e hm => ?_) rfl
      change e ∈ toList q n at hm
      rw [hq' hq.fits] at hm
      exact List.mem_of_mem_eraseP hm
  | @pop q n h0 hq' =>
      refine ha.shrink hq (fun e hm => ?_) rfl rfl
      change e ∈ toList q n at hm
      rw [hq' h0 hq.fits] at hm
      exact List.mem_of_mem_tail hm
  | @switch next =>
      have harmed := install_armed s.leave next hroom'
      exact harmed
  | @exit code next q n =>
      have harmed := install_armed (s.departed code q n).leave next hroom'
      exact harmed
  | @kill j q n _ _ _ _ hq' =>
      refine ha.shrink hq (fun e hm => ?_) rfl rfl
      change e ∈ toList q n at hm
      rw [hq' hq.fits] at hm
      exact List.mem_of_mem_eraseP hm
  | create _ hcr =>
      refine ha.shrink hq (fun e hm => ?_) hcr.pit hcr.quantumStartMs
      rw [queue, hcr.sleepQueue, hcr.sleepCount] at hm
      exact hm
  | notify | reap | mark | block | image | fpu => exact ha.shrink hq (fun _ hm => hm) rfl rfl

/-! ## the timer interrupt -/

/-- A quiet step leaves the timer prepared. -/
theorem Quiet.prepared {s₁ : Sched} (hq : Quiet s s₁) (h : Prepared now s) : Prepared now s₁ := by
  have he : Effect s .blockCurrentTask s s₁ := .quiet hq
  exact he.prepared trivial nofun nofun h.ticks h

/-- **Exit** arms the timer, whatever it was set to before. -/
theorem exit_armed {code : Int} (h : Prepared now s) (hroom : now + Pit.pitMaxMs < 2 ^ 64)
    (hs : s.exitCurrentTask code = .ok s') : Armed s' := by
  obtain ⟨_, q, n, next, s₁, s₂, hq, hs₁, _, hlt, hready, hs₂, hend⟩ := exitCurrentTask_ok hs
  subst hs₁
  have hroom' : s.pit.ticks + Pit.pitMaxMs < 2 ^ 64 := by
    rw [h.ticks]
    exact hroom
  have hnext := exit_next hready
  have hexit : Effect s (.exitCurrentTask code) s (s.exited code next q n) :=
    .exit rfl rfl hq hlt hnext.1 hnext.2
  have hprep := hexit.prepared trivial nofun nofun h.ticks h
  have harmed : Armed (s.exited code next q n) := by
    have hinst := install_armed (s.departed code q n).leave next hroom'
    exact hinst
  have hsame : s₂ = s.exited code next q n := hs₂
  rw [hsame] at hend
  rcases hend with ⟨rfl, _⟩ | hu
  · exact harmed
  · rcases unblockTask_ok hu with rfl | ⟨j, q', n', p, _, _, _, hq', hp, rfl⟩
    · exact harmed
    · have hfits := hprep.inv.2.1
      refine harmed.wake hfits ?_ hp rfl (fun e hm => ?_) rfl
      · rw [hprep.ticks]
        exact hroom
      · change e ∈ toList q' n' at hm
        rw [hq' hfits.fits] at hm
        exact List.mem_of_mem_eraseP hm

/-- **Tick** arms the timer. -/
theorem tick_armed {esp : Nat} {intact : Bool} {r : Option Nat} (h : Prepared now s)
    (hroom : now + Pit.pitMaxMs < 2 ^ 64) (ht : s.tick esp intact = .ok (r, s')) : Armed s' := by
  rcases tick_ok ht with ⟨hi, _⟩ | ⟨_, _, _, s₁, code, hq, he⟩ | ⟨e, s₁, s₂, _, _, hq, hw, hr⟩
  · rw [h.inv.2.2] at hi
    contradiction
  · exact exit_armed (hq.prepared h) hroom he
  · have hpops : Effects s .blockCurrentTask s₁ s₂ := wakeExpired_effects hw
    have hkeep : ∀ a b, Effect s .blockCurrentTask a b → Prepared now a → Prepared now b :=
      fun a b he ha => he.prepared trivial nofun nofun h.ticks ha
    have h₂ : Prepared now s₂ := effects_inv hkeep hpops (hq.prepared h)
    have hroom' : s₂.pit.ticks + Pit.pitMaxMs < 2 ^ 64 := by
      rw [h₂.ticks]
      exact hroom
    rcases reschedule_ok hr with ⟨m, hm, rfl⟩ | ⟨next, _, _, _, _, rfl⟩
    · refine programNextTick_armed (s := { s₂ with quantumStartMs := m }) ⟨hroom', ?_⟩
      change m ≤ s₂.pit.ticks
      rw [h₂.ticks]
      rcases hm with rfl | rfl
      · exact h₂.started
      · exact Nat.le_of_eq h.ticks
    · exact install_armed s₂.leave next hroom'

unseal nextTickMs

/-! ## runs -/

/-- What holds in every run in which no sum wraps. -/
structure Clocked (s : Sched) : Prop where
  inv : SleepInv s
  timely : Timely s
  armed : Armed s

/-- The timer at the start. -/
theorem boot_clocked (s : Sched) : Clocked s.boot where
  inv := by
    have hinit : SleepInv s.init := ⟨init_table s, init_queued s, rfl⟩
    exact ⟨hinit.1.congr rfl rfl (fun _ => rfl) fun _ => rfl,
      hinit.2.1.congr rfl (fun _ => rfl) fun _ => rfl, rfl⟩
  timely := by
    refine ⟨?_, Nat.le_refl 0⟩
    change 0 + Pit.pitMaxMs < 2 ^ 64
    decide
  armed := by
    refine ⟨?_, ?_, fun h => ?_, fun _ => ?_⟩
    · change 0 < 1
      decide
    · change 1 ≤ 0 + Pit.pitMaxMs
      decide
    · exact absurd h (Nat.lt_irrefl 0)
    · change 1 ≤ 0 + quantumMs
      decide

/-- Between interrupts the timer is prepared. -/
theorem Clocked.prepared (h : Clocked s) : Prepared s.pit.ticks s := ⟨h.inv, rfl, h.timely.started⟩

/-- An operation. -/
theorem sys_clocked (h : Clocked s) (hr : Regular s (.sys op)) (hu : Unwrapped s (.sys op))
    (hs : s.step op = .ok s') : Clocked s' := by
  obtain ⟨hc, hinit, hpit, _⟩ := hr
  have hsleep : ∀ ms, op = .sleep ms → s.pit.ticks + ms < 2 ^ 64 := by
    rintro ms rfl
    exact hu
  have hkeep : ∀ a b, Effect s op a b → Prepared s.pit.ticks a ∧ Armed a →
      Prepared s.pit.ticks b ∧ Armed b := by
    rintro a b he ⟨hp, ha⟩
    exact ⟨he.prepared hc hpit hinit rfl hp, he.armed hc hpit hinit h.timely.room hsleep rfl hp ha⟩
  obtain ⟨hp, ha⟩ := step_inv h.inv.1.cur_lt h.inv.1.cur_live hkeep ⟨h.prepared, h.armed⟩ hs
  exact ⟨hp.inv, hp.timely h.timely.room, ha⟩

/-- A timer interrupt. -/
theorem irq_clocked {esp : Nat} {frame : TrapFrame} {intact : Bool} (h : Clocked s)
    (hu : s.pit.deadlineMs + Pit.pitMaxMs < 2 ^ 64)
    (hs : s.timerStep (.irq esp frame intact) = .ok s') : Clocked s' := by
  simp only [timerStep, bind_eq_ok] at hs
  obtain ⟨s₁, hp, hs⟩ := hs
  simp only [step, Except.ok.injEq] at hp
  simp only [step, bind_eq_ok, Except.ok.injEq] at hs
  obtain ⟨⟨r, s₂⟩, ht, rfl⟩ := hs
  have hlater := h.armed.later
  have hstart := h.timely.started
  unfold Pit.uptimeMs Pit.deadline at hlater
  have hfired : Prepared s.pit.deadlineMs { s with pit := s.pit.tick } := by
    refine ⟨⟨?_, ?_, h.inv.2.2⟩, rfl, ?_⟩
    · exact h.inv.1.congr rfl rfl (fun _ => rfl) fun _ => rfl
    · exact h.inv.2.1.congr rfl (fun _ => rfl) fun _ => rfl
    · change s.quantumStartMs ≤ s.pit.deadlineMs
      omega
  rw [hp] at hfired
  have hpushed := (Quiet.frames s₁ (set s₁.frames esp frame)).prepared hfired
  have hstep : s₁.step (.tick esp frame intact) = .ok s₂ := by
    simp only [step, bind_eq_ok, Except.ok.injEq]
    exact ⟨(r, s₂), ht, rfl⟩
  have hend : Prepared s.pit.deadlineMs s₂ := by
    have heff := step_effects hfired.inv.1.cur_lt hfired.inv.1.cur_live hstep
    have hkeep : ∀ a b, Effect s₁ (.tick esp frame intact) a b → Prepared s.pit.deadlineMs a →
        Prepared s.pit.deadlineMs b :=
      fun a b he ha => he.prepared trivial (by simp) (by simp) hfired.ticks ha
    exact effects_inv hkeep heff hfired
  exact ⟨hend.inv, hend.timely hu, tick_armed hpushed hu ht⟩

/-- **The timer is armed in time**, after boot and after every step, as long
as no 64-bit sum wraps. -/
theorem timer_armed {tr : List TimerOp} (h : Reach timerStep InTime s₀.boot tr s) : Armed s := by
  refine (h.inv (P := Clocked) (boot_clocked s₀) ?_).armed
  rintro s op s' hc ⟨hr, hu⟩ hs
  cases op with
  | irq esp frame intact => exact irq_clocked hc hu hs
  | sys op => exact sys_clocked hc hr hu hs

/-- Two tasks, of which the second goes to sleep. -/
def timerRun (ms : Nat) : List TimerOp :=
  [.sys (.addTask true 0x1000 0 Task.priorityNormal 0x8000),
    .sys (.addTask true 0x2000 0 Task.priorityNormal 0xA000),
    .irq 0 {} true, .irq 0 {} true, .sys (.sleep ms)]

/-- A task sleeps for five milliseconds. -/
theorem timer_armed_sleep :
    ∃ s : Sched, Reach timerStep InTime ({} : Sched).boot (timerRun 5) s ∧ s.pit.uptimeMs = 20 ∧
      s.pit.deadline = 25 ∧ Armed s := by
  obtain ⟨s, hr, hp⟩ := Reach.of_runsTo timerStep InTime ({} : Sched).boot (timerRun 5)
    (fun s => s.pit.uptimeMs = 20 ∧ s.pit.deadline = 25) (by decide)
  obtain ⟨hn, hd⟩ := of_decide_eq_true hp
  exact ⟨s, hr, hn, hd, timer_armed hr⟩

/-- **Late timer**: the deadline of the longest possible sleep wraps to a
moment in the past, and the timer is set to its maximal delay. -/
theorem timer_late :
    ∃ s : Sched, Reach timerStep Regular ({} : Sched).boot (timerRun (2 ^ 64 - 1)) s ∧
      ¬ Armed s := by
  obtain ⟨s, hr, hp⟩ := Reach.of_runsTo timerStep Regular ({} : Sched).boot (timerRun (2 ^ 64 - 1))
    (fun s => 0 < s.sleepCount ∧ s.pit.uptimeMs = 20 ∧ s.pit.deadline = 74 ∧
      (s.sleepQueue 0).deadline = 19) (by decide)
  obtain ⟨h0, hn, hd, hq⟩ := of_decide_eq_true hp
  refine ⟨s, hr, fun h => ?_⟩
  have hsleep := h.sleeper h0
  rw [hn, hd, hq] at hsleep
  omega

end Sched

end Doors
