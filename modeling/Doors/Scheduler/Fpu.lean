import Doors.Scheduler.Invariant

/-!
# Doors.Scheduler.Fpu

Lazy FPU switching against eager save and restore.

`FpuSys` runs the scheduler next to `view`, the registers as the last FPU
instruction of each task left them: `fork` copies the parent's view, a new task
and a new program have none.

The handler of `#NM` executes FPU instructions while `CR0.TS` is still set, so
that it traps into itself and never returns.  The two machines therefore agree
exactly until the first switch sets the bit.

* `Untrapped` — while `CR0.TS` is clear, the task that booted is current and the
  registers are its own;
* `sees_iff` — an FPU instruction is executed on the task's own state exactly
  while the bit is clear;
* `fpuValid_never` — no run ever saves an FPU state, so that `fork` never
  executes its `fxsave`;
* `fpu_after_switch` — a run in which the first FPU instruction of a task never
  completes.
-/

namespace Doors

open Cells Run Scheduler

/-- The scheduler and the FPU state every task should see. -/
structure FpuSys where
  sched : Sched
  view : Nat → Option FpuImage

namespace FpuSys

open Sched

/-- The registers as `fninit` leaves them. -/
def Fresh (regs : FpuImage) : Prop := fninit regs = regs

instance (regs : FpuImage) : Decidable (Fresh regs) := inferInstanceAs (Decidable (_ = _))

/-! ## the eager machine -/

/-- `Scheduler::init`; nobody has used the FPU. -/
def start (s : Sched) : FpuSys := { sched := s.init, view := fun _ => none }

/-- The views after an operation that led to `s`. -/
def nextView (m : FpuSys) (s : Sched) : Op → Nat → Option FpuImage
  | .fpu _ => set m.view m.sched.currentIdx (some s.fpuRegs)
  | .fork _ _ =>
      match m.sched.findSlot.1 with
      | some slot => set m.view slot (m.view m.sched.currentIdx)
      | none => m.view
  | .addTask _ _ _ _ _ | .addUserElfTask _ _ _ _ =>
      match m.sched.findSlot.1 with
      | some slot => set m.view slot none
      | none => m.view
  | .exec .noModule | .exec .invalidElf => m.view
  | .exec _ => if m.sched.cur.pageDir ≠ 0 then set m.view m.sched.currentIdx none else m.view
  | _ => m.view

/-- The scheduler takes a step and the views follow. -/
def step (m : FpuSys) (op : Op) : Except Fault FpuSys := do
  let sched ← m.sched.step op
  .ok { sched, view := m.nextView sched op }

/-- The registers are the ones that the task left, or fresh ones on its first use. -/
def Own (regs : FpuImage) : Option FpuImage → Prop
  | some left => regs = left
  | none => Fresh regs

instance (regs : FpuImage) (v : Option FpuImage) : Decidable (Own regs v) := by
  cases v <;> unfold Own <;> infer_instance

/-- The current task's next FPU instruction is executed, on the task's own
state. -/
def Sees (m : FpuSys) : Prop :=
  ∃ s, m.sched.fpuTrap = .ok s ∧ Own s.fpuRegs (m.view m.sched.currentIdx)

/-- The scheduler is initialised once. -/
def Started (_ : FpuSys) : Op → Prop
  | .init => False
  | _ => True

instance (m : FpuSys) (op : Op) : Decidable (Started m op) := by
  apply @Op.casesOn _ op <;> intros <;> unfold Started <;> infer_instance

/-! ## the invariant -/

/-- While `CR0.TS` is clear, task `i` is current, a kernel task with the
registers `regs`. -/
structure Untrapped (i : Nat) (regs : FpuImage) (s : Sched) : Prop where
  table : Table s
  current : s.cr0Ts = false → s.currentIdx = i
  noDir : s.cr0Ts = false → s.cur.pageDir = 0
  regs : s.cr0Ts = false → s.fpuRegs = regs

variable {i : Nat} {regs : FpuImage} {s s' s₀ : Sched} {op : Op} {m m' : FpuSys}

/-- What leaves the current task's directory and the registers alone. -/
theorem Untrapped.congr (h : Untrapped i regs s) (ht : Table s') (hts : s'.cr0Ts = s.cr0Ts)
    (hcur : s'.currentIdx = s.currentIdx)
    (hdir : (s'.tasks s.currentIdx).pageDir = (s.tasks s.currentIdx).pageDir)
    (hregs : s'.fpuRegs = s.fpuRegs) : Untrapped i regs s' where
  table := ht
  current h0 := hcur.trans (h.current (hts ▸ h0))
  noDir h0 := by
    rw [cur, hcur, hdir]
    exact h.noDir (hts ▸ h0)
  regs h0 := hregs.trans (h.regs (hts ▸ h0))

/-- A switch sets `CR0.TS`. -/
theorem Untrapped.trapped (ht : Table s) (hts : s.cr0Ts = true) : Untrapped i regs s where
  table := ht
  current h0 := by simp [hts] at h0
  noDir h0 := by simp [hts] at h0
  regs h0 := by simp [hts] at h0

/-- **Before the first switch** every effect but an FPU instruction leaves the
registers to the task that booted. -/
theorem Effect.untrapped (he : Effect s₀ op s s') (hinit : op ≠ .init) (hfpu : ∀ f, op ≠ .fpu f)
    (h : Untrapped i regs s) : Untrapped i regs s' := by
  have ht : Table s' := he.table h.table
  cases he with
  | init hop => exact absurd hop hinit
  | quiet hq =>
      have hdir := hq.field Task.pageDir s.currentIdx fun _ => rfl
      obtain ⟨tasks, _, _, _, rfl⟩ := hq.rest
      exact h.congr ht rfl rfl hdir rfl
  | timer => exact h.congr ht rfl rfl rfl rfl
  | notify tasks hu =>
      obtain ⟨u, hu⟩ := hu s.currentIdx
      exact h.congr ht rfl rfl ((congrArg Task.pageDir hu).trans rfl) rfl
  | reap | mark | block | sleep | wake | pop =>
      refine h.congr ht rfl rfl ?_ rfl
      simp only [modify_tasks]
      split <;> rfl
  | switch => exact .trapped ht rfl
  | exit => exact .trapped ht rfl
  | @kill j q n _ hcur =>
      obtain ⟨ppid, hp⟩ := killed_tasks s j (Ne.symm hcur)
      exact h.congr ht rfl rfl ((congrArg Task.pageDir hp).trans rfl) rfl
  | @create _ slot _ hc =>
      have hne : s.currentIdx ≠ slot := by
        intro heq
        have hlt := h.table.cur_lt
        rcases hc.free with ⟨-, hdead⟩ | ⟨hnew, -⟩
        · rw [← heq] at hdead
          exact h.table.cur_live hdead
        · omega
      obtain ⟨cs, fs, hsame⟩ := hc.others _ hne
      exact h.congr ht hc.cr0Ts hc.currentIdx ((congrArg Task.pageDir hsame).trans rfl) hc.fpuRegs
  | image _ hdir =>
      have hts : s.cr0Ts = true := by
        by_contra h0
        exact hdir (h.noDir (by simpa using h0))
      exact .trapped ht hts
  | fpu _ hop =>
      obtain ⟨f, hop⟩ := hop
      exact absurd hop (hfpu f)

/-! ## runs -/

/-- The registers that a task with this view works on, `regs` at its first use. -/
def worksOn (regs : FpuImage) (m : FpuSys) : FpuImage := (m.view m.sched.currentIdx).getD regs

/-- What a run keeps: the registers are those of the current task until the first
switch, and those at boot until its first FPU instruction. -/
def Keeps (regs : FpuImage) (m : FpuSys) : Prop :=
  Untrapped 0 (worksOn regs m) m.sched

theorem start_keeps (s : Sched) : Keeps s.fpuRegs (start s) where
  table := init_table s
  current _ := rfl
  noDir _ := rfl
  regs _ := rfl

/-- The views of the current task after an operation that neither is an FPU
instruction nor starts a program. -/
theorem nextView_cur (ht : Table m.sched) (hfpu : ∀ f, op ≠ .fpu f)
    (hdir : m.sched.cur.pageDir = 0) :
    m.nextView s op m.sched.currentIdx = m.view m.sched.currentIdx := by
  -- a new task gets a slot that is not the current one
  have hother : ∀ w, (match m.sched.findSlot.1 with
      | some slot => set m.view slot w
      | none => m.view) m.sched.currentIdx = m.view m.sched.currentIdx := by
    intro w
    rcases findSlot_cases m.sched with hf | ⟨slot, hf⟩
    · rw [hf]
    · rw [hf.fst]
      exact set_of_ne _ _ (hf.ne ht.cur_lt ht.cur_live)
  cases op with
  | fpu f => exact absurd rfl (hfpu f)
  | addTask | addUserElfTask | fork => exact hother _
  | exec out =>
      cases out with
      | noModule | invalidElf => rfl
      | noStack | loadFailed | loaded => exact congrFun (if_neg fun h => h hdir) _
  | init | pitTick | tick | sleep | blockCurrentTask | unblockTask | sendSignal | killTask
  | exitCurrentTask | setUnblockOnExit | waitpid | waitpidResume | deliverSignals => rfl

/-- **FPU step**: every step keeps the registers where they belong. -/
theorem step_keeps (h : Keeps regs m) (hop : Started m op) (hs : m.step op = .ok m') :
    Keeps regs m' := by
  simp only [step, bind_eq_ok, Except.ok.injEq] at hs
  obtain ⟨s, hs, rfl⟩ := hs
  have ht : Table s := step_table h.table hs
  have hinit : op ≠ .init := by
    rintro rfl
    exact hop
  by_cases hfpu : ∃ f, op = .fpu f
  · obtain ⟨f, rfl⟩ := hfpu
    simp only [Sched.step, bind_eq_ok, Except.ok.injEq] at hs
    obtain ⟨t, htrap, rfl⟩ := hs
    obtain ⟨hts, rfl⟩ := fpuTrap_ok htrap
    have hview :
      (set m.view m.sched.currentIdx (some (f m.sched.fpuRegs)) m.sched.currentIdx).getD regs =
        f m.sched.fpuRegs := by rw [set_self]; rfl
    exact ⟨ht, h.current, h.noDir, fun _ => hview.symm⟩
  · have hfpu : ∀ f, op ≠ .fpu f := fun f hf => hfpu ⟨f, hf⟩
    have hkeeps : ∀ {i r}, Untrapped i r m.sched → Untrapped i r s :=
      fun hu => step_inv h.table.cur_lt h.table.cur_live
        (fun _ _ he => Effect.untrapped he hinit hfpu) hu hs
    have hnew := hkeeps h
    -- `CR0.TS` is not cleared: task 1 would be current as well as task 0
    have hwas : s.cr0Ts = false → m.sched.cr0Ts = false := by
      intro hts
      by_contra hset
      have h1 :=
        (hkeeps (.trapped h.table (by simpa using hset) : Untrapped 1 0 m.sched)).current hts
      rw [hnew.current hts] at h1
      contradiction
    refine ⟨ht, hnew.current, hnew.noDir, fun hts => ?_⟩
    have hcur : s.currentIdx = m.sched.currentIdx :=
      (hnew.current hts).trans (h.current (hwas hts)).symm
    have hview := nextView_cur (s := s) h.table hfpu (h.noDir (hwas hts))
    show s.fpuRegs = (m.nextView s op s.currentIdx).getD regs
    rw [hnew.regs hts, hcur, hview]
    rfl

/-- **Lazy FPU switching works until the first switch**: in every run from
`init`, the current task's next FPU instruction is executed on exactly the state
the task should see if and only if `CR0.TS` is clear, and the registers were
fresh at boot where it is the task's first one. -/
theorem sees_iff {tr : List Op} (h : Reach step Started (start s₀) tr m) :
    Sees m ↔ m.sched.cr0Ts = false ∧ (m.view m.sched.currentIdx = none → Fresh s₀.fpuRegs) := by
  have hkeeps : Keeps s₀.fpuRegs m :=
    Reach.inv (P := Keeps s₀.fpuRegs) (start_keeps s₀) (fun _ _ _ hk hc hs => step_keeps hk hc hs) h
  have hown : m.sched.cr0Ts = false → (Own m.sched.fpuRegs (m.view m.sched.currentIdx) ↔
      (m.view m.sched.currentIdx = none → Fresh s₀.fpuRegs)) := by
    intro hts
    have hregs := hkeeps.regs hts
    unfold worksOn at hregs
    cases hv : m.view m.sched.currentIdx with
    | none =>
        rw [hv] at hregs
        simp [Own, hregs]
    | some left =>
        rw [hv] at hregs
        simp [Own, hregs]
  constructor
  · rintro ⟨s, htrap, hsees⟩
    obtain ⟨hts, rfl⟩ := fpuTrap_ok htrap
    exact ⟨hts, (hown hts).mp hsees⟩
  · rintro ⟨hts, hfresh⟩
    exact ⟨m.sched, by simp [fpuTrap, hts], (hown hts).mpr hfresh⟩

/-! ## what is never saved -/

/-- No effect makes a task's FPU state valid. -/
theorem Effect.invalid (he : Effect s₀ op s s') (h : ∀ i, (s.tasks i).fpuValid = false) (i : Nat) :
    (s'.tasks i).fpuValid = false := by
  cases he with
  | init =>
      unfold init
      dsimp only
      split <;> rfl
  | quiet hq => exact (hq.field Task.fpuValid i fun _ => rfl).trans (h i)
  | timer | fpu => exact h i
  | notify tasks hu =>
      obtain ⟨u, hu⟩ := hu i
      exact ((congrArg Task.fpuValid hu).trans rfl).trans (h i)
  | reap | mark | block | sleep | wake | pop =>
      simp only [modify_tasks]
      split <;> exact h _
  | switch => exact ((congrArg Task.fpuValid (switch_stable s _ i)).trans rfl).trans (h i)
  | @exit code next q n =>
      refine ((congrArg Task.fpuValid (switch_stable (s.departed code q n) next i)).trans rfl).trans
        ?_
      by_cases hi : i = s.currentIdx
      · rw [hi]
        exact ((congrArg Task.fpuValid (departed_cur s code q n)).trans rfl).trans (h s.currentIdx)
      · obtain ⟨ppid, hp⟩ := departed_tasks s code q n hi
        exact ((congrArg Task.fpuValid hp).trans rfl).trans (h i)
  | @kill j q n =>
      by_cases hi : i = j
      · rw [hi]
        exact ((congrArg Task.fpuValid (killed_self s j)).trans rfl).trans (h j)
      · obtain ⟨ppid, hk⟩ := killed_tasks s j hi
        exact ((congrArg Task.fpuValid hk).trans rfl).trans (h i)
  | @create _ slot _ hc =>
      by_cases hi : i = slot
      · rw [hi]
        exact hc.fpuValid h
      · obtain ⟨cs, fs, hsame⟩ := hc.others i hi
        exact ((congrArg Task.fpuValid hsame).trans rfl).trans (h i)
  | image _ _ _ hv =>
      simp only [modify_tasks]
      split
      · exact hv _
      · exact h i

/-- **No FPU state is ever saved**: no task has a valid one, in any run. -/
theorem fpuValid_never {tr : List Op} (h : Reach step Started (start s₀) tr m) (i : Nat) :
    (m.sched.tasks i).fpuValid = false := by
  have hinv : Table m.sched ∧ ∀ i, (m.sched.tasks i).fpuValid = false := by
    refine Reach.inv (P := fun m => Table m.sched ∧ ∀ i, (m.sched.tasks i).fpuValid = false)
      ⟨init_table s₀, fun i => ?_⟩ (fun m op m' hm hc hs => ?_) h
    · unfold start init
      dsimp only
      split <;> rfl
    · simp only [step, bind_eq_ok, Except.ok.injEq] at hs
      obtain ⟨s, hs, rfl⟩ := hs
      exact ⟨step_table hm.1 hs, step_inv hm.1.cur_lt hm.1.cur_live
        (fun _ _ he => Effect.invalid he) hm.2 hs⟩
  exact hinv.2 i

/-- The idle task executes two FPU instructions before the first switch. -/
def bootRun : List Op :=
  [.addTask true 0x1000 0 Task.priorityNormal 0x8000, .fpu fun _ => 1, .pitTick,
    .fpu fun regs => regs + 1]

/-- The second instruction of `bootRun` saw what the first one left, and so does the
next one. -/
theorem sees_iff_bootRun :
    ∃ m : FpuSys, Reach step Started (start {}) bootRun m ∧ m.sched.fpuRegs = 2 ∧
      m.view m.sched.currentIdx = some 2 ∧ Sees m := by
  obtain ⟨m, hr, hp⟩ := Reach.of_runsTo step Started (start {}) bootRun
    (fun m => m.sched.cr0Ts = false ∧ m.sched.fpuRegs = 2 ∧ m.view m.sched.currentIdx = some 2)
    (by decide +kernel)
  obtain ⟨hts, hregs, hview⟩ := of_decide_eq_true hp
  refine ⟨m, hr, hregs, hview, (sees_iff hr).mpr ⟨hts, fun hnone => ?_⟩⟩
  rw [hview] at hnone
  contradiction

/-- **The first FPU instruction behind a switch never completes**: the registers are
fresh at boot, a task is created, and the first tick switches to it. -/
theorem fpu_after_switch :
    ∃ m : FpuSys, Reach step Started (start { fpuRegs := fninit 0 })
      [.addTask true 0x1000 0 Task.priorityNormal 0x8000, .tick 0 {} true, .pitTick,
        .tick 0 {} true] m ∧
      m.sched.currentIdx = 1 ∧ ¬ Sees m := by
  obtain ⟨m, hr, hp⟩ := Reach.of_runsTo step Started (start { fpuRegs := fninit 0 })
    [.addTask true 0x1000 0 Task.priorityNormal 0x8000, .tick 0 {} true, .pitTick, .tick 0 {} true]
    (fun m => m.sched.cr0Ts = true ∧ m.sched.currentIdx = 1) (by decide +kernel)
  obtain ⟨hts, hcur⟩ := of_decide_eq_true hp
  refine ⟨m, hr, hcur, ?_⟩
  rintro ⟨s, htrap, -⟩
  have hclear := (fpuTrap_ok htrap).1
  rw [hts] at hclear
  contradiction

end FpuSys

end Doors
