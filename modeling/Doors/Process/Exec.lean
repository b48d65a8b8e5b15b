import Doors.Elf.Paged
import Doors.Memory.Clone
import Doors.Scheduler.Process

/-!
# Doors.Process.Exec

`Scheduler::exec` with the page tables it works on (`SchedulerProcess.cc`).

`Doors.Scheduler.Process` has what `exec` does to the task table for each way in
which it can end; here the way is computed from the module, the page directory and
the frame allocator.

* `exec_clean_iff` — a failed `exec` leaves everything as it was, except when the
  ELF header is rejected: the task's FPU and signal state is gone by then.
-/

namespace Doors

open Memory Elf

/-- The scheduler, the frames with the page tables in them, and the boot modules. -/
structure Kernel where
  sched : Sched
  phys : Phys
  modules : List File

/-- How kernel code on modules can stop: a fault of the scheduler, or a read
outside the module. -/
inductive Stop where
  | fault (f : Fault)
  | outside
  deriving Repr, DecidableEq

/-- Where the code of a user task that is no ELF file is mapped. -/
def userBase : Nat := 0x10000000

/-- `allocAndMapUserPage`. -/
def allocAndMapUserPage (vaddr dir : Nat) (st : Phys) : Option Nat × Phys :=
  match st.allocFrame with
  | (none, st) => (none, st)
  | (some phys, st) =>
      match st.mapPage dir vaddr phys userFlags with
      | (false, st) => (none, st.freeFrame phys)
      | (true, st) => (some phys, st)

/-- The address of stack page `i`. -/
def stackPage (i : Nat) : Nat := Scheduler.userStackVaddr - i * Scheduler.pageSize

/-- The loop of `mapUserStackPages` over the first `n` pages, with the frames they
got.  Pages that are mapped stay when a later one fails. -/
def mapStackPages (dir : Nat) : Nat → Phys → Option (List Nat) × Phys
  | 0, st => (some [], st)
  | n + 1, st =>
      match mapStackPages dir n st with
      | (none, st) => (none, st)
      | (some frames, st) =>
          match allocAndMapUserPage (stackPage n) dir st with
          | (none, st) => (none, st)
          | (some phys, st) => (some (frames ++ [phys]), st)

/-- `freePageArray`. -/
def freePageArray (count : Nat) (vaddrs : Nat → Nat) (dir : Nat) (st : Phys) : Phys :=
  (List.range count).foldl (fun st i => st.unmapPage dir (vaddrs i)) st

/-- The pages of a `LoadResult` as the task records them. -/
def elfResult (r : LoadResult) : ElfResult where
  entry := r.entry
  numPages := r.pages.length
  vaddr i := (r.pages.map (·.vaddr)).getD i 0
  phys i := (r.pages.map (·.phys)).getD i 0

/-- What `exec` frees of the old image. -/
def dropImage (t : Task) (st : Phys) : Phys :=
  let st := freePageArray t.elfPageCount t.elfVaddr t.pageDir st
  let st := freePageArray t.userStackPageCount t.userStackVaddr t.pageDir st
  if t.userCodeBuf ≠ 0 then (st.unmapPage t.pageDir userBase).freeFrame t.userCodeBuf else st

/-- What `exitCurrentTask` frees of a task with the page directory `dir`. -/
def exitMemory (dir : Nat) (st : Phys) : Phys := (st.freePageDirectory dir).freeFrame dir

namespace Kernel

/-- The page tables' part of `Scheduler::exec`, with the way in which it ends. -/
def execMemory (k : Kernel) (modIdx : Int) : Except OutOfFile (Sched.ExecOutcome × Phys) :=
  let t := k.sched.cur
  if k.sched.currentIdx ≥ Scheduler.maxTasks ∨ modIdx < 0 ∨
    t.pageDir = 0 then .ok (.noModule, k.phys)
  else
    match k.modules[modIdx.toNat]? with
    | none => .ok (.noModule, k.phys)
    | some F => do
        if ¬ (← validate F) then return (.invalidElf, k.phys)
        let st := dropImage t k.phys
        match mapStackPages t.pageDir Scheduler.userStackPages st with
        | (none, st) => return (.noStack, exitMemory t.pageDir st)
        | (some frames, st) =>
            match ← load (pagesOf t.pageDir k.sched.kernelPageDir) F st with
            | (none, st) =>
                let st := freePageArray Scheduler.userStackPages stackPage t.pageDir st
                return (.loadFailed (frames.getD · 0), exitMemory t.pageDir st)
            | (some r, st) => return (.loaded (frames.getD · 0) (elfResult r), st)

/-- `Scheduler::exec`; the result is `none` when the task exits instead of
returning. -/
def exec (k : Kernel) (modIdx : Int) : Except Stop (Option Int × Kernel) :=
  match k.execMemory modIdx with
  | .error _ => .error .outside
  | .ok (out, phys) =>
      match k.sched.exec out with
      | .error f => .error (.fault f)
      | .ok (r, sched) => .ok (r, { k with sched, phys })

/-! ## a failed exec -/

/-- A call that returns -1 changes nothing. -/
def ExecFailsClean (k : Kernel) (modIdx : Int) : Prop :=
  ∀ k', k.exec modIdx = .ok (some (-1), k') → k' = k

/-- There is nothing to forget. -/
def Forgotten (t : Task) : Prop :=
  t.fpuValid = false ∧ t.signalHandlers = (fun _ => 0) ∧ t.savedSignalEip = 0 ∧
    t.savedSignalEflags = 0 ∧ t.savedSignalEsp = 0

/-- `exec` gets as far as `validate`, and the module is rejected. -/
def Rejects (k : Kernel) (modIdx : Int) : Prop :=
  k.sched.currentIdx < Scheduler.maxTasks ∧ 0 ≤ modIdx ∧ k.sched.cur.pageDir ≠ 0 ∧
    ∃ F, k.modules[modIdx.toNat]? = some F ∧ validate F = .ok false

variable {k k' : Kernel} {modIdx : Int} {out : Sched.ExecOutcome} {phys : Phys}

/-- The ways in which the page tables' part ends. -/
theorem execMemory_cases (h : k.execMemory modIdx = .ok (out, phys)) :
    (out = .noModule ∧ phys = k.phys) ∨ (out = .invalidElf ∧ phys = k.phys ∧ k.Rejects modIdx) ∨
      (k.sched.currentIdx < Scheduler.maxTasks ∧ k.sched.cur.pageDir ≠ 0 ∧
        (out = .noStack ∨ (∃ frames, out = .loadFailed frames) ∨ ∃ frames elf,
          out = .loaded frames elf)) := by
  unfold execMemory at h
  dsimp only at h
  split at h
  · obtain ⟨rfl, rfl⟩ := Prod.mk.inj (Except.ok.inj h)
    exact .inl ⟨rfl, rfl⟩
  · next hok =>
      simp only [not_or, not_le, not_lt] at hok
      obtain ⟨hidx, hmod, hdir⟩ := hok
      split at h
      · obtain ⟨rfl, rfl⟩ := Prod.mk.inj (Except.ok.inj h)
        exact .inl ⟨rfl, rfl⟩
      · next F hF =>
          obtain ⟨valid, hvalid, h⟩ := Run.bind_eq_ok.mp h
          cases valid with
          | false =>
              obtain ⟨rfl, rfl⟩ := Prod.mk.inj (Except.ok.inj h)
              exact .inr (.inl ⟨rfl, rfl, hidx, hmod, hdir, F, hF, hvalid⟩)
          | true =>
              refine .inr (.inr ⟨hidx, hdir, ?_⟩)
              simp only [not_true_eq_false, if_false] at h
              split at h
              · exact .inl (Prod.mk.inj (Except.ok.inj h)).1.symm
              · next frames st hst =>
                  obtain ⟨r, hr, h⟩ := Run.bind_eq_ok.mp h
                  split at h
                  · exact .inr (.inl ⟨_, (Prod.mk.inj (Except.ok.inj h)).1.symm⟩)
                  · exact .inr (.inr ⟨_, _, (Prod.mk.inj (Except.ok.inj h)).1.symm⟩)

/-- `exec` is its memory part and its scheduler part. -/
theorem exec_eq {r : Option Int} (h : k.exec modIdx = .ok (r, k')) :
    ∃ out phys sched, k.execMemory modIdx = .ok (out, phys) ∧ k.sched.exec out = .ok (r, sched) ∧
      k' = { k with sched, phys } := by
  unfold exec at h
  split at h
  · contradiction
  · next out phys hmem =>
      split at h
      · contradiction
      · next r' sched hexec =>
          obtain ⟨rfl, rfl⟩ := Prod.mk.inj (Except.ok.inj h)
          exact ⟨out, phys, sched, hmem, hexec, rfl⟩

/-- A rejected module costs the task its FPU and signal state. -/
theorem exec_rejects (h : k.Rejects modIdx) :
    k.exec modIdx = .ok (some (-1), { k with sched := k.sched.execForget }) := by
  obtain ⟨hidx, hmod, hdir, F, hF, hvalid⟩ := h
  have hmem : k.execMemory modIdx = .ok (.invalidElf, k.phys) := by
    unfold execMemory
    dsimp only
    rw [if_neg (by simp only [not_or, not_le, not_lt]; exact ⟨hidx, hmod, hdir⟩), hF]
    dsimp only
    rw [hvalid]
    rfl
  unfold exec
  rw [hmem]
  dsimp only
  unfold Sched.exec
  rw [if_neg (by omega)]
  dsimp only
  rw [if_neg hdir]

/-- What `exec` forgets is what `Forgotten` names. -/
theorem forget_eq {t : Task} (h : Forgotten t) : { t with
    fpuValid := false,
    signalHandlers := fun _ => 0,
    savedSignalEip := 0,
    savedSignalEflags := 0,
    savedSignalEsp := 0 } = t := by
  obtain ⟨h₁, h₂, h₃, h₄, h₅⟩ := h
  cases t
  simp_all

/-- Forgetting changes nothing exactly when there is nothing to forget. -/
theorem execForget_eq_iff {s : Sched} : s.execForget = s ↔ Forgotten s.cur := by
  have hcur : s.execForget.cur = { s.cur with
      fpuValid := false,
      signalHandlers := fun _ => 0,
      savedSignalEip := 0,
      savedSignalEflags := 0,
      savedSignalEsp := 0 } := by
    simp [Sched.execForget, Sched.cur]
  constructor
  · intro heq
    rw [heq] at hcur
    exact ⟨congrArg Task.fpuValid hcur, congrArg Task.signalHandlers hcur,
      congrArg Task.savedSignalEip hcur,
      congrArg Task.savedSignalEflags hcur, congrArg Task.savedSignalEsp hcur⟩
  · intro hforgotten
    have htasks : s.execForget.tasks = s.tasks := by
      funext i
      simp only [Sched.execForget, Sched.modify_tasks]
      split
      · next hi =>
          subst hi
          exact forget_eq hforgotten
      · rfl
    show { s with tasks := s.execForget.tasks } = s
    rw [htasks]

/-- **A failed `exec`** changes nothing, unless `validate` rejects the module and
the task has FPU or signal state to lose. -/
theorem exec_clean_iff (k : Kernel) (modIdx : Int) :
    k.ExecFailsClean modIdx ↔ ¬ k.Rejects modIdx ∨ Forgotten k.sched.cur := by
  constructor
  · intro hclean
    by_cases hrej : k.Rejects modIdx
    · have hsame := congrArg Kernel.sched (hclean _ (exec_rejects hrej))
      exact .inr (execForget_eq_iff.mp hsame)
    · exact .inl hrej
  · intro hcond k' h
    obtain ⟨out, phys, sched, hmem, hexec, rfl⟩ := exec_eq h
    rcases execMemory_cases hmem with ⟨rfl, rfl⟩ | ⟨rfl, rfl, hrej⟩ | ⟨hidx, hdir, hout⟩
    · unfold Sched.exec at hexec
      split at hexec
      · obtain ⟨-, rfl⟩ := Prod.mk.inj (Except.ok.inj hexec)
        rfl
      · obtain ⟨-, rfl⟩ := Prod.mk.inj (Except.ok.inj hexec)
        rfl
    · have hforget := hcond.resolve_left (not_not.mpr hrej)
      have heq := (Prod.mk.inj (Except.ok.inj ((exec_rejects hrej).symm.trans h))).2
      rw [← heq, execForget_eq_iff.mpr hforget]
    · -- the other ways do not return, or return 0
      exfalso
      unfold Sched.exec at hexec
      rw [if_neg (by omega)] at hexec
      rcases hout with rfl | ⟨frames, rfl⟩ | ⟨frames, elf, rfl⟩
      · simp only [hdir, if_false] at hexec
        obtain ⟨s₁, -, hexec⟩ := Run.bind_eq_ok.mp hexec
        simp at hexec
      · simp only [hdir, if_false] at hexec
        obtain ⟨s₁, -, hexec⟩ := Run.bind_eq_ok.mp hexec
        simp at hexec
      · simp only [hdir, if_false] at hexec
        simp at hexec

/-! ## a rejected module -/

/-- A task with signal handlers, and a module of zeros. -/
def handlerTask : Kernel where
  sched :=
    { tasks := fun _ => { pageDir := 0x5000, signalHandlers := fun _ => 0x400000 }, taskCount := 1 }
  phys :=
    { mem := fun _ => 0, free := [], refs := fun _ => 0, maxFrameIdx := 16, panicked := false }
  modules := [{ base := 0xC0100000, size := 64, byte := fun _ => 0, fits := by decide }]

/-- The module is not an ELF file. -/
theorem handlerTask_rejects : handlerTask.Rejects 0 :=
  ⟨by decide, by decide, by decide, _, rfl, by decide⟩

/-- A failed `exec` takes the signal handler away. -/
theorem exec_loses_handlers : ¬ handlerTask.ExecFailsClean 0 := by
  intro hclean
  have hsame :=
    congrArg (fun k => k.sched.cur.signalHandlers 15) (hclean _ (exec_rejects handlerTask_rejects))
  exact absurd hsame (by decide)

end Kernel

end Doors
