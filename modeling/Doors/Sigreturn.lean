import Doors.Scheduler.RoundRobin

/-!
# Doors.Sigreturn

Handlers and the way back from them (`kernel/SchedulerSignals.cc`, `handleSigreturn` of
`kernel/Syscall.cc`).

`SigSys` is one user task with the kernel that it runs on: its registers in ring 3, and how
far it is in a system call.  The handlers that have not returned are kept as a list of the
contexts that they interrupted, and every time that the last of them has returned, the
context that the first one interrupted is noted beside the one that the task goes on with.

* `tick_rest` — what a tick does after delivery leaves the saved context and the frame
  alone;
* `land_inv` — what delivery makes of the invariant, after a tick and on the way out of a
  call;
* `sigreturn_restored` — the two contexts agree, except that `EAX` is 0 afterwards, in every
  run in which signals are delivered one at a time and no tick falls into `SYS_SIGRETURN`;
* `sigreturn_strays` — without any one of these two conditions they do not.
-/

namespace Doors

open Cells Run Scheduler

def sysSigreturn : Nat := 19

/-! ## contexts -/

/-- The general registers other than `EAX` and `ESP`. -/
inductive Reg where
  | edi
  | esi
  | ebp
  | ebx
  | edx
  | ecx
  deriving Repr, DecidableEq

def TrapFrame.reg (f : TrapFrame) : Reg → Nat
  | .edi => f.edi
  | .esi => f.esi
  | .ebp => f.ebp
  | .ebx => f.ebx
  | .edx => f.edx
  | .ecx => f.ecx

/-- What `SYS_SIGRETURN` restores. -/
def TrapFrame.context (f : TrapFrame) : Nat × Nat × Nat := (f.eip, f.eflags, f.userEsp)

/-- What delivery saves. -/
def Task.savedSignal (t : Task) : Nat × Nat × Nat :=
  (t.savedSignalEip, t.savedSignalEflags, t.savedSignalEsp)

/-- The registers that handlers do not declare clobbered are the same. -/
def Preserved (clobbers : Reg → Bool) (f g : TrapFrame) : Prop :=
  ∀ r, clobbers r = false → f.reg r = g.reg r

instance (clobbers : Reg → Bool) (f g : TrapFrame) : Decidable (Preserved clobbers f g) :=
  decidable_of_iff (∀ r ∈ [Reg.edi, .esi, .ebp, .ebx, .edx, .ecx], clobbers r = false →
    f.reg r = g.reg r)
    ⟨fun h r => h r (by cases r <;> decide), fun h r _ => h r⟩

/-- **The same context**, up to `EAX` and the registers that handlers declare clobbered. -/
structure SameContext (clobbers : Reg → Bool) (f g : TrapFrame) : Prop where
  context : f.context = g.context
  regs : Preserved clobbers f g

instance (clobbers : Reg → Bool) (f g : TrapFrame) : Decidable (SameContext clobbers f g) :=
  decidable_of_iff (f.context = g.context ∧ Preserved clobbers f g)
    ⟨fun h => ⟨h.1, h.2⟩, fun h => ⟨h.context, h.regs⟩⟩

theorem SameContext.refl (clobbers : Reg → Bool) (f : TrapFrame) : SameContext clobbers f f :=
  ⟨rfl, fun _ _ => rfl⟩

theorem SameContext.trans {clobbers : Reg → Bool} {f g k : TrapFrame} (h : SameContext clobbers f g)
    (h' : SameContext clobbers g k) : SameContext clobbers f k :=
  ⟨h.context.trans h'.context, fun r hr => (h.regs r hr).trans (h'.regs r hr)⟩

/-! ## the kernel's part -/

namespace Sched

/-- `handleSigreturn`. -/
def handleSigreturn (s : Sched) : Sched :=
  if s.cur.userStackPageCount = 0 then s
  else
    let frame := { s.frames s.cur.esp with
      eip := s.cur.savedSignalEip,
      eflags := s.cur.savedSignalEflags,
      userEsp := s.cur.savedSignalEsp }
    { s with frames := set s.frames s.cur.esp frame }

/-- `Scheduler::deliverSigsegvFromException`, with the frame that the exception pushed;
`none` when there is no handler to go to. -/
def deliverSigsegvFromException (s : Sched) (frame : TrapFrame) : Option (TrapFrame × Sched) :=
  if s.currentIdx ≥ maxTasks then none
  else if s.cur.userStackPageCount = 0 then none
  else if s.cur.signalHandlers Task.sigsegv = 0 then none
  else
    let s' := s.modify s.currentIdx fun t => { t with
      savedSignalEip := frame.eip,
      savedSignalEflags := frame.eflags,
      savedSignalEsp := frame.userEsp
      signalHandlers := set t.signalHandlers Task.sigsegv 0 }
    some ({ frame with
      eax := Task.sigsegv, eip := s.cur.signalHandlers Task.sigsegv, eflags := 0x202
      userEsp := (frame.userEsp + 2 ^ 32 - 8) % 2 ^ 32 }, s')

/-- `deliverPendingSignals` will redirect the frame at `esp`. -/
def delivers (s : Sched) (esp : Nat) : Bool :=
  match lowestPending s.cur with
  | some sig => s.cur.signalHandlers sig ≠ 0 && (s.frames esp).cs % 4 ≠ 0
  | none => false

/-- The saved context of task `i`, its stack pages, its stack pointer and its frame at `top`
are left alone. -/
def Keeps (s : Sched) (i top : Nat) (s' : Sched) : Prop :=
  (s'.tasks i).savedSignal = (s.tasks i).savedSignal ∧
    (s'.tasks i).userStackPageCount = (s.tasks i).userStackPageCount ∧
    (s'.tasks i).esp = (s.tasks i).esp ∧ s'.frames top = s.frames top

instance (s : Sched) (i top : Nat) (s' : Sched) : Decidable (s.Keeps i top s') := by
  unfold Keeps
  infer_instance

/-- `s` with `frame` at `a`. -/
def push (s : Sched) (a : Nat) (frame : TrapFrame) : Sched :=
  { s with frames := set s.frames a frame }

end Sched

/-! ## the machine -/

/-- Where the task is. -/
inductive SigMode where
  | user
  /-- `asmInt80` has called `syscallHandler`. -/
  | call (nr : Nat)
  /-- `syscallHandler` has returned `eax`. -/
  | done (nr eax : Nat)
  deriving Repr, DecidableEq

/-- The current task, its registers in ring 3, and as ghosts its handlers. -/
structure SigSys where
  sched : Sched
  regs : TrapFrame
  mode : SigMode := .user
  /-- What the handlers that have not returned interrupted, the last one first. -/
  handlers : List TrapFrame := []
  /-- What the first of them interrupted. -/
  first : TrapFrame := {}
  /-- What was interrupted and what was gone on with, each time the last handler returned. -/
  resumed : List (TrapFrame × TrapFrame) := []

/-- The steps. -/
inductive SigOp where
  /-- The task computes in ring 3. -/
  | run (regs : TrapFrame)
  | tick
  /-- A page fault with a handler. -/
  | fault
  | int80
  /-- A tick in a system call, which pushes `frame` at `esp`. -/
  | kernelTick (esp : Nat) (frame : TrapFrame)
  /-- The rest of a tick, other tasks, and what a call does beside its return value. -/
  | others (s : Sched)
  | body (eax : Nat)
  | ret

namespace SigSys

open Sched

variable (top : Nat)

/-- Delivery on the frame at `top`, and the way to ring 3, with `left` handlers. -/
def land (m : SigSys) (s : Sched) (left : List TrapFrame) : Except Unit SigSys :=
  match s.deliverPendingSignalsAtEsp top with
  | .ok (false, s') =>
      let frame := s.frames top
      .ok { m with
        sched := s', regs := s'.frames top, mode := .user
        handlers := if s.delivers top then frame :: left else left
        first := if s.delivers top && m.handlers.isEmpty then frame else m.first
        resumed := if !s.delivers top && !m.handlers.isEmpty && left.isEmpty
          then (m.first, frame) :: m.resumed else m.resumed }
  | _ => .error ()

/-- The handlers that are left after call `nr`. -/
def left (m : SigSys) (nr : Nat) : List TrapFrame :=
  if nr = sysSigreturn then m.handlers.tail else m.handlers

/-- One step; `top` is where a trap from ring 3 pushes its frame.  An error is a step that
is not possible, or after which the task is no more. -/
def step (m : SigSys) : SigOp → Except Unit SigSys
  | .run regs =>
      if m.mode = .user then .ok
        { m with regs := { regs with cs := m.regs.cs, userSs := m.regs.userSs } } else .error ()
  | .tick => if m.mode = .user then m.land top (m.sched.push top m.regs) m.handlers else .error ()
  | .fault =>
      match m.mode, m.sched.deliverSigsegvFromException m.regs with
      | .user, some (frame, s) =>
          .ok { m with
            sched := s, regs := frame
            handlers := m.regs :: m.handlers,
            first := if m.handlers.isEmpty then m.regs else m.first }
      | _, _ => .error ()
  | .int80 =>
      if m.mode = .user then
        .ok { m with sched := m.sched.push top m.regs, mode := .call m.regs.eax }
      else .error ()
  | .kernelTick esp frame =>
      if m.mode = .user ∨ esp = top ∨ frame.cs % 4 ≠ 0 then .error ()
      else
        match (m.sched.push esp frame).deliverPendingSignalsAtEsp esp with
        | .ok (false, s) => .ok { m with sched := s }
        | _ => .error ()
  | .others s => if s.currentIdx = m.sched.currentIdx ∧
      m.sched.Keeps m.sched.currentIdx top s then .ok { m with sched := s } else .error ()
  | .body eax =>
      match m.mode with
      | .call nr =>
          if nr = sysSigreturn
            then .ok { m with sched := m.sched.handleSigreturn, mode := .done nr 0 }
          else .ok { m with mode := .done nr eax }
      | _ => .error ()
  | .ret =>
      match m.mode with
      | .done nr eax =>
          m.land top (m.sched.push top { m.sched.frames top with eax }) (m.left nr)
      | _ => .error ()

/-- Handlers keep their convention: what the last one does not declare clobbered is, when it
has come to the trampoline, as it was. -/
def Legal (clobbers : Reg → Bool) (m : SigSys) : SigOp → Prop
  | .int80 => m.regs.eax = sysSigreturn → ∀ f ∈ m.handlers.head?, Preserved clobbers f m.regs
  | _ => True

/-- A signal is delivered only when no handler is left. -/
def OneByOne (m : SigSys) : SigOp → Prop
  | .tick => (m.sched.push top m.regs).delivers top = true → m.handlers = []
  | .fault => m.handlers = []
  | .ret =>
      match m.mode with
      | .done nr eax => (m.sched.push top { m.sched.frames top with eax }).delivers top = true →
          m.left nr = []
      | _ => True
  | _ => True

/-- No tick falls into `SYS_SIGRETURN` before the frame is restored. -/
def Unticked (m : SigSys) : SigOp → Prop
  | .kernelTick _ _ => m.mode ≠ .call sysSigreturn
  | _ => True

/-- The steps of the runs in which handlers find their way back. -/
def Orderly (clobbers : Reg → Bool) (m : SigSys) (op : SigOp) : Prop :=
  Legal clobbers m op ∧ OneByOne top m op ∧ Unticked m op

instance (clobbers : Reg → Bool) (m : SigSys) (op : SigOp) : Decidable (Legal clobbers m op) := by
  cases op <;> (unfold Legal; infer_instance)

instance (m : SigSys) (op : SigOp) : Decidable (OneByOne top m op) := by
  cases op with
  | ret =>
      unfold OneByOne
      dsimp only
      split <;> infer_instance
  | _ => unfold OneByOne; infer_instance

instance (m : SigSys) (op : SigOp) : Decidable (Unticked m op) := by
  cases op <;> (unfold Unticked; infer_instance)

instance (clobbers : Reg → Bool) (m : SigSys) (op : SigOp) :
    Decidable (Orderly top clobbers m op) :=
  inferInstanceAs (Decidable (_ ∧ _ ∧ _))

/-- After its handlers the task goes on with the context that it had, and `EAX` 0. -/
def Restored (clobbers : Reg → Bool) (m : SigSys) : Prop :=
  ∀ p ∈ m.resumed, SameContext clobbers p.1 p.2 ∧ p.2.eax = 0

instance (clobbers : Reg → Bool) (m : SigSys) : Decidable (Restored clobbers m) :=
  inferInstanceAs (Decidable (∀ p ∈ m.resumed, _))

/-- A user task that runs in ring 3. -/
structure Started (m : SigSys) : Prop where
  lt : m.sched.currentIdx < maxTasks
  user : m.sched.cur.userStackPageCount ≠ 0
  esp : m.sched.cur.esp = top
  mode : m.mode = .user
  fresh : m.handlers = [] ∧ m.resumed = []

end SigSys

/-! ## what delivery does -/

namespace Sched

variable {s s' : Sched} {a : Nat}

/-- **Delivery** to a user task that is not ended by it. -/
structure Delivered (s : Sched) (a : Nat) (s' : Sched) : Prop where
  currentIdx : s'.currentIdx = s.currentIdx
  esp : s'.cur.esp = a
  user : s'.cur.userStackPageCount = s.cur.userStackPageCount
  others : ∀ b, b ≠ a → s'.frames b = s.frames b
  redirected : s.delivers a = true → s'.cur.savedSignal = (s.frames a).context
  quiet : s.delivers a = false → s'.cur.savedSignal = s.cur.savedSignal ∧ s'.frames a = s.frames a

/-- Without delivery the stack pointer is set. -/
theorem delivered_quiet (hno : s.delivers a = false) :
    Delivered s a (s.modify s.currentIdx fun t => { t with esp := a }) where
  currentIdx := rfl
  esp := by simp [cur]
  user := by simp [cur]
  others _ _ := rfl
  redirected hyes := by simp [hno] at hyes
  quiet _ := ⟨by simp [cur, Task.savedSignal], rfl⟩

/-- The frame at the stack pointer is saved and redirected. -/
theorem delivered_redirect (hyes : s.delivers a = true) (sig : Nat) :
    Delivered s a ((s.modify s.currentIdx fun t => { t with esp := a }).redirect sig) where
  currentIdx := rfl
  esp := by simp [redirect, clearPending, cur]
  user := by simp [redirect, clearPending, cur]
  others b hb := by
    simp only [redirect, clearPending, cur, modify_tasks, modify_currentIdx, modify_frames, if_true]
    exact set_of_ne _ _ hb
  redirected _ := by simp [redirect, clearPending, cur, Task.savedSignal, TrapFrame.context]
  quiet hno := by simp [hyes] at hno

/-- What a delivery leaves, when it kills nobody. -/
theorem deliver_ok (hlt : s.currentIdx < maxTasks) (hu : s.cur.userStackPageCount ≠ 0)
    (h : s.deliverPendingSignalsAtEsp a = .ok (false, s')) : Delivered s a s' := by
  have hcur : (s.modify s.currentIdx fun t => { t with esp := a }).cur =
      { s.cur with esp := a } := by
    simp [cur]
  have hpending : lowestPending { s.cur with esp := a } = lowestPending s.cur := rfl
  unfold deliverPendingSignalsAtEsp deliverPendingSignals at h
  rw [if_neg (by omega), if_neg (by simp; omega), hcur, if_neg hu, hpending] at h
  cases hl : lowestPending s.cur with
  | none =>
      simp only [hl, Except.ok.injEq, Prod.mk.injEq, true_and] at h
      subst h
      exact delivered_quiet (by simp [delivers, hl])
  | some sig =>
      simp only [hl] at h
      by_cases hh : s.cur.signalHandlers sig ≠ 0
      · rw [if_pos hh] at h
        split at h
        · next hring =>
            obtain ⟨-, rfl⟩ := Prod.mk.inj (Except.ok.inj h)
            have hring : (s.frames a).cs % 4 = 0 := hring
            exact delivered_quiet (by simp [delivers, hl, hring])
        · next hring =>
            obtain ⟨-, rfl⟩ := Prod.mk.inj (Except.ok.inj h)
            have hring : ¬ (s.frames a).cs % 4 = 0 := hring
            exact delivered_redirect (by simp [delivers, hl, hh, hring]) sig
      · rw [if_neg hh] at h
        obtain ⟨s₁, -, h⟩ := bind_eq_ok.mp h
        simp at h

/-- What neither the clock nor a switch changes. -/
structure SameSignals (s s' : Sched) : Prop where
  saved : ∀ i, (s'.tasks i).savedSignal = (s.tasks i).savedSignal
  user : ∀ i, (s'.tasks i).userStackPageCount = (s.tasks i).userStackPageCount
  esp : ∀ i, (s'.tasks i).esp = (s.tasks i).esp
  frames : s'.frames = s.frames

theorem SameSignals.refl (s : Sched) : SameSignals s s :=
  ⟨fun _ => rfl, fun _ => rfl, fun _ => rfl, rfl⟩

theorem SameSignals.trans {s₁ : Sched} (h : SameSignals s s₁) (h' : SameSignals s₁ s') :
    SameSignals s s' :=
  ⟨fun i => (h'.saved i).trans (h.saved i), fun i => (h'.user i).trans (h.user i),
    fun i => (h'.esp i).trans (h.esp i),
    h'.frames.trans h.frames⟩

/-- A slot update that changes none of it. -/
theorem SameSignals.modify {i : Nat} {f : Task → Task}
    (hf : ∀ t, (f t).savedSignal = t.savedSignal ∧ (f t).userStackPageCount = t.userStackPageCount ∧
    (f t).esp = t.esp) :
    SameSignals s (s.modify i f) := by
  refine ⟨fun j => ?_, fun j => ?_, fun j => ?_, rfl⟩ <;> (rw [modify_tasks]; split)
  · exact (hf _).1
  · rfl
  · exact (hf _).2.1
  · rfl
  · exact (hf _).2.2
  · rfl

/-- Nothing but the slots and the frames matters. -/
theorem SameSignals.congr {s₁ : Sched} (h : SameSignals s s₁) (htasks : s'.tasks = s₁.tasks)
    (hframes : s'.frames = s₁.frames) :
    SameSignals s s' := by
  refine ⟨fun i => ?_, fun i => ?_, fun i => ?_, hframes.trans h.frames⟩ <;> rw [htasks]
  · exact h.saved i
  · exact h.user i
  · exact h.esp i

/-- What keeps the signals keeps the context. -/
theorem SameSignals.keeps (h : SameSignals s s') (i top : Nat) : s.Keeps i top s' :=
  ⟨h.saved i, h.user i, h.esp i, congrFun h.frames top⟩

/-- Taking a sleeper keeps the signals. -/
theorem popSleeper_sameSignals (h : s.popSleeper = .ok s') : SameSignals s s' := by
  unfold popSleeper at h
  simp only [bind_eq_ok] at h
  obtain ⟨e, -, q, -, h⟩ := h
  obtain rfl := Except.ok.inj h
  have hpopped : SameSignals s (s.modify e.taskId fun t =>
      { t with state := if t.state = .blocked then .ready else t.state, wakeupMs := 0 }) :=
        .modify fun t => ⟨rfl, rfl, rfl⟩
  exact hpopped.congr rfl rfl

/-- Waking sleepers keeps the signals. -/
theorem wakeExpired_sameSignals {now k : Nat} (h : wakeExpired now k s = .ok s') :
    SameSignals s s' := by
  have hpops := wakeExpired_ok h
  clear h
  induction hpops with
  | refl => exact .refl s
  | tail _ hpop ih => exact ih.trans (popSleeper_sameSignals hpop.2)

/-- The task that is left keeps its signals. -/
theorem leave_sameSignals (s : Sched) : SameSignals s s.leave := by
  have hready : SameSignals s (s.modify s.currentIdx fun t => if t.state = .running
      then { t with state := .ready } else t) :=
    .modify fun t => by split <;> exact ⟨rfl, rfl, rfl⟩
  exact hready.congr rfl rfl

/-- So does the task that is entered. -/
theorem install_sameSignals (s : Sched) (next : Nat) : SameSignals s (s.install next) := by
  have hrunning : SameSignals s (s.modify next fun t => { t with state := .running }) :=
    .modify fun t => ⟨rfl, rfl, rfl⟩
  exact hrunning.congr rfl rfl

/-- Charging the time keeps the signals. -/
theorem charge_sameSignals (s : Sched) (now : Nat) : SameSignals s (s.charge now) := by
  have htime (g : Nat → Nat) :
      SameSignals s (s.modify s.currentIdx fun t => { t with runtimeMs := g t.runtimeMs }) :=
    .modify fun t => ⟨rfl, rfl, rfl⟩
  exact (htime fun r => add64 r (sub64 now s.lastTickMs)).congr
    (funext fun i => by simp only [charge, modify_tasks]) rfl

/-- **The rest of a tick**: when `Scheduler::tick` runs to its end, it has delivered, and what
came after that left the saved contexts and the frames of all tasks alone. -/
theorem tick_rest {intact : Bool} {e : Nat} (hinit : s.initialized = true)
    (h : s.tick a intact = .ok (some e, s')) :
    ∃ s₁, s.deliverPendingSignalsAtEsp a = .ok (false, s₁) ∧ ∀ i top, s₁.Keeps i top s' := by
  unfold tick at h
  rw [if_neg (by simp [hinit])] at h
  split at h
  · contradiction
  · next hlt =>
      simp only [bind_eq_ok] at h
      obtain ⟨_, -, ⟨b, s₁⟩, hd, h⟩ := h
      cases b with
      | true => simp at h
      | false =>
          simp only [Bool.false_eq_true, if_false, bind_eq_ok] at h
          obtain ⟨s₂, hw, ⟨e', s₃⟩, hr, h⟩ := h
          obtain ⟨-, rfl⟩ := Prod.mk.inj (Except.ok.inj h)
          have hcharge := charge_sameSignals s₁ s₁.pit.uptimeMs
          have hrest : SameSignals s₂ s₃ := by
            rcases reschedule_ok hr with ⟨m, -, rfl⟩ | ⟨next, -, -, -, -, rfl⟩
            · exact (SameSignals.refl s₂).congr rfl rfl
            · exact (leave_sameSignals s₂).trans (install_sameSignals _ next)
          refine ⟨s₁, ?_,
            fun i top => (hcharge.trans ((wakeExpired_sameSignals hw).trans hrest)).keeps i top⟩
          unfold deliverPendingSignalsAtEsp
          rw [if_neg hlt]
          exact hd

end Sched

namespace SigSys

open Sched

/-! ## the invariant -/

variable {top a nr : Nat} {clobbers : Reg → Bool} {m m' : SigSys} {s s' : Sched}
  {left : List TrapFrame} {f g : TrapFrame}
  {op : SigOp}

/-- The one handler, which interrupted `f`. -/
structure Handling (top : Nat) (clobbers : Reg → Bool) (m : SigSys) (f : TrapFrame) : Prop where
  saved : m.sched.cur.savedSignal = f.context
  first : SameContext clobbers m.first f
  called : m.mode = .call sysSigreturn → Preserved clobbers f (m.sched.frames top)
  restored : ∀ eax, m.mode = .done sysSigreturn eax →
    SameContext clobbers f { m.sched.frames top with eax } ∧ eax = 0

/-- **At most one handler** runs, and what it interrupted can be restored. -/
structure Inv (top : Nat) (clobbers : Reg → Bool) (m : SigSys) : Prop where
  lt : m.sched.currentIdx < maxTasks
  user : m.sched.cur.userStackPageCount ≠ 0
  esp : m.mode = .user ∨ m.mode = .call sysSigreturn → m.sched.cur.esp = top
  one : m.handlers = [] ∨ ∃ f, m.handlers = [f] ∧ Handling top clobbers m f
  restored : m.Restored clobbers

/-- Before the first signal. -/
theorem started_inv (h : Started top m) : Inv top clobbers m where
  lt := h.lt
  user := h.user
  esp _ := h.esp
  one := .inl h.fresh.1
  restored := by
    intro p hp
    rw [h.fresh.2] at hp
    contradiction

/-- **Delivery** keeps the invariant when no handler is left, or when there is none to
deliver. -/
theorem land_inv (h : m.land top s left = .ok m') (hlt : s.currentIdx < maxTasks)
    (hu : s.cur.userStackPageCount ≠ 0)
    (hdone : m.Restored clobbers)
    (hcase : m.handlers = [] ∧ left = [] ∨
      (∃ f, m.handlers = [f] ∧ left = [f] ∧ s.delivers top = false ∧ s.cur.savedSignal = f.context ∧
        SameContext clobbers m.first f) ∨
      (∃ f, m.handlers = [f] ∧ left = [] ∧ SameContext clobbers m.first (s.frames top) ∧
        (s.frames top).eax = 0)) :
    Inv top clobbers m' := by
  unfold land at h
  split at h
  · next s' hs =>
      have hd := deliver_ok hlt hu hs
      obtain rfl := Except.ok.inj h
      refine ⟨by rw [hd.currentIdx]; exact hlt, by rw [hd.user]; exact hu, fun _ => hd.esp, ?_, ?_⟩
      · rcases hcase with ⟨hm, rfl⟩ | ⟨f, hm, rfl, hno, hsaved, hfirst⟩ | ⟨f, hm, rfl, hfirst, -⟩
        · cases hdel : s.delivers top with
          | false => exact .inl (by simp)
          | true =>
              exact .inr ⟨s.frames top, by simp, hd.redirected hdel,
                by simpa [hdel, hm] using SameContext.refl _ _, nofun, nofun⟩
        · exact .inr
            ⟨f, by simp [hno], (hd.quiet hno).1.trans hsaved, by simpa [hno] using hfirst,
              nofun, nofun⟩
        · cases hdel : s.delivers top with
          | false => exact .inl (by simp)
          | true =>
              exact .inr ⟨s.frames top, by simp, hd.redirected hdel,
                by simpa [hdel, hm] using hfirst, nofun, nofun⟩
      · intro p hp
        dsimp only at hp
        split at hp
        · next hlast =>
            rcases List.mem_cons.mp hp with rfl | hp
            · rcases hcase with ⟨hm, -⟩ | ⟨f, -, hleft, -⟩ | ⟨f, -, -, hfirst, hzero⟩
              · simp [hm] at hlast
              · simp [hleft] at hlast
              · exact ⟨hfirst, hzero⟩
            · exact hdone p hp
        · exact hdone p hp
  · contradiction

/-! ## the steps -/

/-- A trap from ring 3 with no handler, or with one and nothing to deliver. -/
theorem tick_inv (h : Inv top clobbers m) (hmode : m.mode = .user) (hone : OneByOne top m .tick)
    (hs : m.step top .tick = .ok m') : Inv top clobbers m' := by
  unfold step at hs
  simp only [hmode, if_true] at hs
  refine land_inv hs h.lt h.user h.restored ?_
  rcases h.one with hnil | ⟨f, hf, hh⟩
  · exact .inl ⟨hnil, hnil⟩
  · have hno : (m.sched.push top m.regs).delivers top = false := by
      cases hdel : (m.sched.push top m.regs).delivers top with
      | false => rfl
      | true => simpa [hf] using hone hdel
    exact .inr (.inl ⟨f, hf, hf, hno, hh.saved, hh.first⟩)

/-- A fault in user code. -/
theorem fault_inv (h : Inv top clobbers m) (hone : m.handlers = [])
    (hs : m.step top .fault = .ok m') :
    Inv top clobbers m' := by
  unfold step at hs
  dsimp only at hs
  split at hs
  · next frame s hmode hd =>
      obtain rfl := Except.ok.inj hs
      unfold deliverSigsegvFromException at hd
      rw [if_neg (by have := h.lt; omega), if_neg h.user] at hd
      split at hd
      · contradiction
      · obtain ⟨rfl, rfl⟩ := Prod.mk.inj (Option.some.inj hd)
        refine ⟨h.lt, by simpa [cur] using h.user, fun _ => by simpa [cur] using h.esp (.inl hmode),
          .inr ⟨m.regs, ?_, ?_⟩, h.restored⟩
        · rw [hone]
        · exact ⟨by simp [cur, Task.savedSignal, TrapFrame.context],
            by simpa [hone] using SameContext.refl _ _,
            by simp [hmode], by simp [hmode]⟩
  · contradiction

/-- A tick inside a system call. -/
theorem kernelTick_inv {esp : Nat} (h : Inv top clobbers m) (hone : m.mode ≠ .call sysSigreturn)
    (hs : m.step top (.kernelTick esp f) = .ok m') : Inv top clobbers m' := by
  unfold step at hs
  dsimp only at hs
  split at hs
  · contradiction
  · next hguard =>
      push Not at hguard
      obtain ⟨hmode, hesp, hring⟩ := hguard
      split at hs
      · next s' hd =>
          obtain rfl := Except.ok.inj hs
          have hd := deliver_ok (s := m.sched.push esp f) h.lt h.user hd
          have hno : (m.sched.push esp f).delivers esp = false := by
            unfold delivers
            split <;> simp [push, hring]
          have hframe : s'.frames top = m.sched.frames top := by
            rw [hd.others top (fun he => hesp he.symm)]
            exact set_of_ne _ _ (fun he => hesp he.symm)
          refine ⟨by rw [hd.currentIdx]; exact h.lt, by rw [hd.user]; exact h.user, ?_,
            ?_, h.restored⟩
          · rintro (hu | hc)
            · exact absurd hu hmode
            · exact absurd hc hone
          · rcases h.one with hnil | ⟨g, hg, hh⟩
            · exact .inl hnil
            · exact .inr ⟨g, hg, (hd.quiet hno).1.trans hh.saved,
                hh.first, by simpa [hframe] using hh.called,
                by simpa [hframe] using hh.restored⟩
      · contradiction

/-- Other tasks run. -/
theorem others_inv (h : Inv top clobbers m) (hs : m.step top (.others s) = .ok m') :
    Inv top clobbers m' := by
  unfold step at hs
  dsimp only at hs
  split at hs
  · next hkeep =>
      obtain rfl := Except.ok.inj hs
      obtain ⟨hidx, hsaved, huser, hesp, hframe⟩ := hkeep
      have hcur : s.cur = s.tasks m.sched.currentIdx := by rw [cur, hidx]
      refine ⟨by rw [hidx]; exact h.lt, by rw [hcur, huser]; exact h.user, fun hmode => ?_,
        ?_, h.restored⟩
      · rw [hcur, hesp]
        exact h.esp hmode
      · rcases h.one with hnil | ⟨g, hg, hh⟩
        · exact .inl hnil
        · exact .inr ⟨g,
            hg, by rw [hcur, hsaved]; exact hh.saved, hh.first, by simpa [hframe] using hh.called,
            by simpa [hframe] using hh.restored⟩
  · contradiction

/-- The task enters the kernel. -/
theorem int80_inv (h : Inv top clobbers m) (hlegal : Legal clobbers m .int80)
    (hs : m.step top .int80 = .ok m') : Inv top clobbers m' := by
  unfold step at hs
  dsimp only at hs
  split at hs
  · next hmode =>
      obtain rfl := Except.ok.inj hs
      refine ⟨h.lt, h.user, fun _ => h.esp (.inl hmode), ?_, h.restored⟩
      rcases h.one with hnil | ⟨g, hg, hh⟩
      · exact .inl hnil
      · refine .inr ⟨g, hg, hh.saved, hh.first, fun hcall => ?_, nofun⟩
        have hpushed := hlegal (SigMode.call.inj hcall) g (by simp [hg])
        simpa [push] using hpushed
  · contradiction

/-- **`SYS_SIGRETURN`** restores what the handler interrupted. -/
theorem sigreturn_restores (hh : Handling top clobbers m f) (hmode : m.mode = .call sysSigreturn)
    (hu : m.sched.cur.userStackPageCount ≠ 0) (hesp : m.sched.cur.esp = top) :
    SameContext clobbers f { m.sched.handleSigreturn.frames top with eax := 0 } := by
  have hregs := hh.called hmode
  have hsaved := hh.saved
  unfold handleSigreturn
  rw [if_neg hu, hesp]
  refine ⟨?_, fun r hr => ?_⟩
  · simpa [Task.savedSignal, TrapFrame.context] using hsaved.symm
  · rw [hregs r hr]
    cases r <;> simp [TrapFrame.reg]

/-- The body of a system call. -/
theorem body_inv {eax : Nat} (h : Inv top clobbers m) (hs : m.step top (.body eax) = .ok m') :
    Inv top clobbers m' := by
  unfold step at hs
  dsimp only at hs
  split at hs
  · next nr hmode =>
      split at hs
      · next hnr =>
          subst hnr
          obtain rfl := Except.ok.inj hs
          have hesp := h.esp (.inr hmode)
          have htasks : m.sched.handleSigreturn.cur = m.sched.cur ∧
              m.sched.handleSigreturn.currentIdx = m.sched.currentIdx := by
            unfold handleSigreturn
            split <;> exact ⟨rfl, rfl⟩
          refine ⟨by rw [htasks.2]; exact h.lt, by rw [htasks.1]; exact h.user, by simp,
            ?_, h.restored⟩
          rcases h.one with hnil | ⟨g, hg, hh⟩
          · exact .inl hnil
          · refine .inr ⟨g, hg, by rw [htasks.1]; exact hh.saved, hh.first, nofun, fun e he => ?_⟩
            obtain ⟨-, rfl⟩ := SigMode.done.inj he
            exact ⟨sigreturn_restores hh hmode h.user hesp, rfl⟩
      · next hnr =>
          obtain rfl := Except.ok.inj hs
          refine ⟨h.lt, h.user, by simp, ?_, h.restored⟩
          rcases h.one with hnil | ⟨g, hg, hh⟩
          · exact .inl hnil
          · refine .inr ⟨g, hg, hh.saved, hh.first, nofun, fun e he => ?_⟩
            exact absurd (SigMode.done.inj he).1 hnr
  · contradiction

/-- The way back to user code, with a delivery. -/
theorem ret_inv (h : Inv top clobbers m) (hone : OneByOne top m .ret)
    (hs : m.step top .ret = .ok m') : Inv top clobbers m' := by
  unfold step at hs
  unfold OneByOne at hone
  dsimp only at hs hone
  split at hs
  · next nr eax hmode =>
      simp only [hmode] at hone
      refine land_inv hs h.lt h.user h.restored ?_
      have hframe : ((m.sched.push top { m.sched.frames top with eax }).frames top) =
          { m.sched.frames top with eax } := by
        simp [push]
      rw [hframe]
      rcases h.one with hnil | ⟨f, hf, hh⟩
      · exact .inl ⟨hnil, by simp [SigSys.left, hnil]⟩
      · by_cases hnr : nr = sysSigreturn
        · subst hnr
          obtain ⟨hres, rfl⟩ := hh.restored eax hmode
          exact .inr (.inr ⟨f, hf, by simp [SigSys.left, hf], hh.first.trans hres, rfl⟩)
        · have hleft : m.left nr = [f] := by simp [SigSys.left, hnr, hf]
          have hno : (m.sched.push top { m.sched.frames top with eax }).delivers top = false := by
            cases hdel : (m.sched.push top { m.sched.frames top with eax }).delivers top with
            | false => rfl
            | true => simpa [hleft] using hone hdel
          exact .inr (.inl ⟨f, hf, hleft, hno, hh.saved, hh.first⟩)
  · contradiction

/-- **The step lemma.** -/
theorem step_inv (h : Inv top clobbers m) (horderly : Orderly top clobbers m op)
    (hs : m.step top op = .ok m') :
    Inv top clobbers m' := by
  obtain ⟨hlegal, hone, hunticked⟩ := horderly
  cases op with
  | run regs =>
      unfold step at hs
      dsimp only at hs
      split at hs
      · next hmode =>
          obtain rfl := Except.ok.inj hs
          refine ⟨h.lt, h.user, h.esp, ?_, h.restored⟩
          rcases h.one with hnil | ⟨g, hg, hh⟩
          · exact .inl hnil
          · exact .inr ⟨g, hg, hh.saved, hh.first, hh.called, hh.restored⟩
      · contradiction
  | tick =>
      have hmode : m.mode = .user := by
        unfold step at hs
        dsimp only at hs
        split at hs
        · assumption
        · contradiction
      exact tick_inv h hmode hone hs
  | fault => exact fault_inv h hone hs
  | int80 => exact int80_inv h hlegal hs
  | kernelTick esp frame => exact kernelTick_inv h hunticked hs
  | others s => exact others_inv h hs
  | body eax => exact body_inv h hs
  | ret => exact ret_inv h hone hs

/-- **What handlers leave**: in every run in which signals are delivered one at a time and no
tick falls into `SYS_SIGRETURN`, the task goes on with the instruction, flags, stack pointer
and preserved registers that it was interrupted with, and always with `EAX` 0. -/
theorem sigreturn_restored {m₀ : SigSys} {tr : List SigOp} (h : Started top m₀)
    (hrun : Reach (step top) (Orderly top clobbers) m₀ tr m) : m.Restored clobbers :=
  (Reach.inv (started_inv h) (fun _ _ _ hinv hc hs => step_inv hinv hc hs) hrun).restored

/-- A task with two caught signals and 42 in `EAX`. -/
def caught : SigSys where
  sched :=
    { tasks := set (fun _ => {}) 1
        { esp := 0x100, userStackPageCount := 1, pendingSignals := 0x60,
          signalHandlers := fun n => 0x1000 + n }
      taskCount := 2, currentIdx := 1 }
  regs :=
    { eip := 7, cs := 0x1B, eflags := 0x246, userEsp := 0x2000, userSs := 0x23, eax := 42,
      ebx := 3 }

/-- The handler returns to the trampoline. -/
def back : List SigOp :=
  [.run { eip := 0x1FF0, userEsp := 0x1FFC, eax := sysSigreturn, ebx := 3 }, .int80, .body 0, .ret]

/-- One signal after the other. -/
def inTurn : List SigOp := .tick :: back ++ back

/-- The task has not been interrupted yet. -/
theorem caught_started : Started 0x100 caught := ⟨by decide, by decide, rfl, rfl, rfl, rfl⟩

/-- Two signals are handled one after the other. -/
theorem sigreturn_restored_inTurn :
    (inTurn.foldl (follow (step 0x100)) caught).Restored (fun _ => false) :=
  sigreturn_restored caught_started (Reach.of_follow (by decide))

/-- The trampoline's call, with a tick before it has restored the frame. -/
def interrupted : List SigOp :=
  [.run { eip := 0x1FF0, userEsp := 0x1FFC, eax := sysSigreturn, ebx := 3 }, .int80,
    .kernelTick 0xC0 {}, .body 0, .ret]

/-- **Both conditions are needed**: a second delivery before the first handler has returned
overwrites what was saved, and after a tick in `SYS_SIGRETURN` the frame is not the one that
is restored. -/
theorem sigreturn_strays :
    (∃ tr m, Reach (step 0x100) (fun m op => Legal (fun _ => false) m op ∧ Unticked m op) caught tr
      m ∧ ¬ m.Restored fun _ => false) ∧
      ∃ tr m, Reach (step 0x100) (fun m op => Legal (fun _ => false) m op ∧ OneByOne 0x100 m op)
        caught tr m ∧ ¬ m.Restored fun _ => false :=
  ⟨⟨[.tick, .tick] ++ back ++ back, _, Reach.of_follow (by decide), by decide⟩,
    .tick :: interrupted ++ back, _, Reach.of_follow (by decide), by decide⟩

end SigSys

end Doors
