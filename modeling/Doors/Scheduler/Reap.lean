import Mathlib.Data.List.Perm.Basic
import Doors.Scheduler.Bystander

/-!
# Doors.Scheduler.Reap

What `reapDeadChild` and `waitpid` do, as lists and updates of slots.

* `reapDeadChild_ok` — the child that is reaped is DEAD and leaves the list of
  children;
* `registerChildren_tasks` — the registration loop of `waitpid` in one update;
* `waitpid_ok` — the three ways `waitpid` can go.
-/

namespace Doors

open Cells Run

namespace Sched

open Scheduler

variable {s s' : Sched}

/-! ## the search -/

/-- The search finds a dead task of that pid. -/
theorem findDead_some {pid t : Nat} (h : s.findDead pid = some t) :
    t < s.taskCount ∧ (s.tasks t).pid = pid ∧ (s.tasks t).state = .dead := by
  rw [findDead, List.find?_range_eq_some] at h
  simp only [decide_eq_true_eq, List.mem_range] at h
  exact ⟨h.2.1, h.1.1, h.1.2⟩

/-- The search misses none. -/
theorem findDead_none {pid : Nat} (h : s.findDead pid = none) {t : Nat} (ht : t < s.taskCount)
    (hp : (s.tasks t).pid = pid) : (s.tasks t).state ≠ .dead := by
  rw [findDead, List.find?_range_eq_none] at h
  have := h t ht
  simp only [Bool.not_eq_eq_eq_not, Bool.not_true, decide_eq_false_iff_not, not_and] at this
  exact this hp

/-- The first child that is dead. -/
theorem findReapable_some {pids : List Nat} {k i t : Nat}
    (h : s.findReapable pids k = some (i, t)) :
    ∃ j pid, i = k + j ∧ pids[j]? = some pid ∧ s.findDead pid = some t := by
  induction pids generalizing k with
  | nil => contradiction
  | cons pid pids ih =>
      unfold findReapable at h
      split at h
      · next t' ht =>
          simp only [Option.some.injEq, Prod.mk.injEq] at h
          obtain ⟨rfl, rfl⟩ := h
          exact ⟨0, pid, rfl, rfl, ht⟩
      · obtain ⟨j, pid', hi, hj, hd⟩ := ih h
        exact ⟨j + 1, pid', by omega, hj, hd⟩

/-- No child is dead. -/
theorem findReapable_none {pids : List Nat} {k : Nat} (h : s.findReapable pids k = none) :
    ∀ pid ∈ pids, s.findDead pid = none := by
  induction pids generalizing k with
  | nil => simp
  | cons pid pids ih =>
      unfold findReapable at h
      split at h
      · contradiction
      · next hd =>
          intro p hp
          rcases List.mem_cons.mp hp with rfl | hp
          · exact hd
          · exact ih h p hp

/-! ## the list of children -/

/-- Moving the last child into the gap deletes the child. -/
theorem removeChild_perm {l : List Nat} {i : Nat} (hi : i < l.length) :
    (removeChild l i).Perm (l.eraseIdx i) := by
  rcases List.eq_nil_or_concat l with rfl | ⟨a, x, rfl⟩
  · simp at hi
  · simp only [List.concat_eq_append, List.length_append, List.length_singleton] at hi
    simp only [removeChild, List.concat_eq_append, List.getLastD_concat]
    by_cases hlast : i = a.length
    · rw [hlast, List.set_append_right _ _ (Nat.le_refl _),
        List.eraseIdx_append_of_length_le (Nat.le_refl _)]
      simp
    · have hlt : i < a.length := by omega
      rw [List.set_append_left _ _ hlt, List.eraseIdx_append_of_lt_length hlt, List.dropLast_concat]
      exact (List.set_perm_cons_eraseIdx hlt x).trans (List.perm_append_singleton x _).symm

/-- The pids before the removal of child `i` are those afterwards and its. -/
theorem removeChild_cons {l : List Nat} {i pid : Nat} (hi : l[i]? = some pid) :
    (pid :: removeChild l i).Perm l := by
  obtain ⟨hlt, hget⟩ := List.getElem?_eq_some_iff.mp hi
  rw [← hget]
  exact ((removeChild_perm hlt).cons _).trans (List.getElem_cons_eraseIdx_perm hlt)

/-- **Reaping**: no child in the list has a DEAD slot, or the first one that
has leaves the list. -/
theorem reapDeadChild_ok (s : Sched) (p : Nat) :
    ((∀ pid ∈ (s.tasks p).children, s.findDead pid = none) ∧ s.reapDeadChild p = (none, s)) ∨
      ∃ i pid t, (s.tasks p).children[i]? = some pid ∧ s.findDead pid = some t ∧
        s.reapDeadChild p = (some (pid, (s.tasks t).exitCode),
          s.modify p fun task => { task with children := removeChild task.children i }) := by
  unfold reapDeadChild
  split
  · next hnone => exact .inl ⟨findReapable_none hnone, rfl⟩
  · next i t hsome =>
      obtain ⟨j, pid, hi, hj, hd⟩ := findReapable_some hsome
      obtain rfl : i = j := by omega
      have hpid := (findDead_some hd).2.1
      exact .inr ⟨i, pid, t, hj, hd, by rw [hpid]⟩

/-! ## waitpid -/

/-- The scheduler after the registration loop of `waitpid` over `pids`. -/
def registerChildren (s : Sched) (pids : List Nat) : Sched :=
  { s with tasks := fun t =>
      if t < s.taskCount ∧ (s.tasks t).pid ∈ pids ∧ (s.tasks t).state ≠ .dead then
        { s.tasks t with unblockOnExit := int8 s.currentIdx }
      else s.tasks t }

/-- Whom the task in slot `j` wakes after the loop. -/
def waker (s : Sched) (pids : List Nat) (j : Nat) : Int :=
  if j < s.taskCount ∧ (s.tasks j).pid ∈ pids ∧ (s.tasks j).state ≠ .dead then int8 s.currentIdx
  else (s.tasks j).unblockOnExit

/-- Where the registrations go. -/
theorem registerChildren_tasks (s : Sched) (pids : List Nat) (j : Nat) :
    (s.registerChildren pids).tasks j = { s.tasks j with unblockOnExit := s.waker pids j } := by
  change (if _ then _ else _) = _
  unfold waker
  split <;> rfl

/-- The loop is one registration for all. -/
theorem registerChildren_eq (pids : List Nat) (s : Sched) :
    pids.foldl (fun s pid => s.registerChild pid s.currentIdx) s = s.registerChildren pids := by
  induction pids generalizing s with
  | nil => simp [registerChildren]
  | cons pid pids ih =>
      rw [List.foldl_cons, ih]
      have htasks : ∀ t, ((s.registerChild pid s.currentIdx).registerChildren pids).tasks t =
          (s.registerChildren (pid :: pids)).tasks t := by
        intro t
        simp only [registerChildren, registerChild, List.mem_cons]
        grind
      have hfun := funext htasks
      unfold registerChildren at hfun ⊢
      dsimp only at hfun ⊢
      rw [hfun]
      rfl

/-- **waitpid**: a bad status pointer or no child; a DEAD child; or the task
registers with its children and blocks. -/
theorem waitpid_ok {status : Nat} {r : WaitResult} (hlt : s.currentIdx < maxTasks)
    (h : s.waitpid status = .ok (r, s')) :
    (r = .failed ∧ s' = s ∧ (status ≥ kernelVirtualBase ∨
        s.cur.children = [])) ∨
    (∃ i pid t, s.cur.children[i]? = some pid ∧ s.findDead pid = some t ∧
      r = .reaped pid (s.tasks t).exitCode ∧
      s' = s.modify s.currentIdx fun task =>
        { task with children := removeChild task.children i }) ∨
    (r = .blocked ∧ s.cur.children ≠ [] ∧ (∀ pid ∈ s.cur.children, s.findDead pid = none) ∧
      s' = (s.registerChildren s.cur.children).modify s.currentIdx fun t =>
        { t with state := .blocked }) := by
  unfold waitpid at h
  split at h
  · next hbad =>
      simp only [Except.ok.injEq, Prod.mk.injEq] at h
      exact .inl ⟨h.1.symm, h.2.symm, .inl (by omega)⟩
  rcases reapDeadChild_ok s s.currentIdx with ⟨hnone, hr⟩ | ⟨i, pid, t, hi, hd, hr⟩
  · rw [hr] at h
    dsimp only at h
    split at h
    · next hempty =>
        simp only [Except.ok.injEq, Prod.mk.injEq] at h
        exact .inl ⟨h.1.symm, h.2.symm, .inr hempty⟩
    · next hsome =>
        simp only [bind_eq_ok, registerChildren_eq] at h
        obtain ⟨s₁, hb, h⟩ := h
        simp only [Except.ok.injEq, Prod.mk.injEq] at h
        obtain ⟨_, hs₁⟩ := blockOr_ok hb
        exact .inr (.inr ⟨h.1.symm, hsome, hnone, h.2.symm.trans hs₁⟩)
  · rw [hr] at h
    simp only [Except.ok.injEq, Prod.mk.injEq] at h
    exact .inr (.inl ⟨i, pid, t, hi, hd, h.1.symm, h.2.symm⟩)

/-- **The second half of waitpid** reaps like the first one. -/
theorem waitpidResume_ok (s : Sched) :
    (∀ pid ∈ s.cur.children, s.findDead pid = none) ∧ s.waitpidResume = (.failed, s) ∨
    ∃ i pid t, s.cur.children[i]? = some pid ∧ s.findDead pid = some t ∧
      s.waitpidResume = (.reaped pid (s.tasks t).exitCode,
        s.modify s.currentIdx fun task =>
          { task with children := removeChild task.children i }) := by
  unfold waitpidResume
  rcases reapDeadChild_ok s s.currentIdx with ⟨hnone, hr⟩ | ⟨i, pid, t, hi, hd, hr⟩
  · rw [hr]
    exact .inl ⟨hnone, rfl⟩
  · rw [hr]
    exact .inr ⟨i, pid, t, hi, hd, rfl⟩

/-- A child that is DEAD makes `waitpid` return. -/
theorem waitpid_prompt {status pid t : Nat} (hlt : s.currentIdx < maxTasks)
    (hstatus : status < kernelVirtualBase) (hmem : pid ∈ s.cur.children)
    (hd : s.findDead pid = some t) :
    ∃ pid' code s', s.waitpid status = .ok (.reaped pid' code, s') := by
  rcases reapDeadChild_ok s s.currentIdx with ⟨hnone, _⟩ | ⟨i, pid', t', _, _, hr⟩
  · rw [hnone pid hmem] at hd
    contradiction
  · unfold waitpid
    rw [if_neg (by omega), hr]
    exact ⟨pid', _, _, rfl⟩

/-- A task without children is not made to wait. -/
theorem waitpid_childless (status : Nat) (h : s.cur.children = []) :
    s.waitpid status = .ok (.failed, s) := by
  unfold waitpid
  split
  · rfl
  · rcases reapDeadChild_ok s s.currentIdx with ⟨_, hr⟩ | ⟨i, pid, t, hi, _⟩
    · rw [hr]
      exact if_pos h
    · change s.cur.children[i]? = some pid at hi
      rw [h] at hi
      contradiction

/-- A dead child is told at once. -/
theorem waitpidResume_prompt {pid t : Nat} (hmem : pid ∈ s.cur.children)
    (hd : s.findDead pid = some t) : ∃ pid' code, s.waitpidResume.1 = .reaped pid' code := by
  rcases waitpidResume_ok s with ⟨hnone, _⟩ | ⟨i, pid', t', _, _, hr⟩
  · rw [hnone pid hmem] at hd
    contradiction
  · exact ⟨pid', _, by rw [hr]⟩

/-! ## pids in use -/

/-- No live task lists the pid. -/
def Unlisted (s : Sched) (pid : Nat) : Prop :=
  ∀ p < s.taskCount, (s.tasks p).state ≠ .dead → pid ∉ (s.tasks p).children

/-- No other slot than `slot` and the idle task's holds the next pid. -/
def Unused (s : Sched) (slot : Nat) : Prop :=
  ∀ j < s.taskCount, j ≠ slot → j ≠ 0 → (s.tasks j).pid ≠ s.nextPid

/-- Creations put no pid into the table that a live task lists, and `fork` none
that another slot holds. -/
def Fresh (s : Sched) : Op → Prop
  | .addTask named _ _ _ stack => named = true → ∀ slot < maxTasks, s.findSlot.1 = some slot →
      if stack = 0 then slot = s.taskCount → Unlisted s (s.tasks slot).pid else Unlisted s s.nextPid
  | .addUserElfTask stack stackPhys dir elf => ∀ slot < maxTasks, s.findSlot.1 = some slot →
      Unlisted s (if stack ≠ 0 ∧ stackPhys.isSome ∧ dir ≠ 0 ∧ elf.isSome then s.nextPid else 0)
  | .fork stack dir => s.cur.userStackPageCount ≠ 0 → s.syscallFrameEsp ≠ 0 →
      ∀ slot < maxTasks, s.findSlot.1 = some slot →
      if stack ≠ 0 ∧ dir ≠ 0 then Unlisted s s.nextPid ∧ Unused s slot else Unlisted s 0
  | _ => True

instance (s : Sched) (pid : Nat) : Decidable (Unlisted s pid) := by
  unfold Unlisted
  infer_instance

instance (s : Sched) (slot : Nat) : Decidable (Unused s slot) := by
  unfold Unused
  infer_instance

instance (s : Sched) (op : Op) : Decidable (Fresh s op) := by
  apply @Op.casesOn _ op <;> intros <;> unfold Fresh <;> infer_instance

/-- A task was put into `slot`, or failed to be, with a pid nobody lists. -/
structure Arrival (s : Sched) (slot : Nat) (s' : Sched) : Prop where
  vacant : s.Vacant slot
  taskCount : s'.taskCount = max s.taskCount (slot + 1)
  currentIdx : s'.currentIdx = s.currentIdx
  pid : Unlisted s (s'.tasks slot).pid ∨
    slot < s.taskCount ∧ (s'.tasks slot).pid = (s.tasks slot).pid ∧ (s'.tasks slot).state = .dead
  children : (s'.tasks slot).state ≠ .dead → (s'.tasks slot).children = []
  other : ∀ j, j ≠ slot → (s'.tasks j).state = (s.tasks j).state ∧
    (s'.tasks j).pid = (s.tasks j).pid ∧
    (s'.tasks j).unblockOnExit = (s.tasks j).unblockOnExit
  lists : ∀ j, j ≠ slot → (s'.tasks j).children = (s.tasks j).children ∨
    j = s.currentIdx ∧ (s'.tasks j).children = (s.tasks j).children ++ [s.nextPid] ∧
      Unlisted s s.nextPid ∧ Unused s slot

/-- A creation is an arrival. -/
theorem built_arrival {slot n e : Nat} {child : Task} {frames : Nat → TrapFrame}
    (hv : s.Vacant slot)
    (hpid : Unlisted s child.pid ∨
      slot < s.taskCount ∧ child.pid = (s.tasks slot).pid ∧ child.state = .dead)
    (hchild : child.state ≠ .dead → child.children = []) :
    Arrival s slot (s.built slot child s.cur n e frames) := by
  refine ⟨hv, rfl, rfl, ?_, ?_, fun j hj => ?_, fun j hj => .inl ?_⟩
  · rw [built_slot]
    exact hpid
  · rw [built_slot]
    exact hchild
  · rw [built_of_ne hj]
    exact ⟨rfl, rfl, rfl⟩
  · rw [built_of_ne hj]

/-- **Arrivals**: what a creation that is `Fresh` does to the table. -/
theorem step_arrival {op : Op} (hop : op.creates = true) (h : Table s) (hf : Fresh s op)
    (hs : s.step op = .ok s') : s' = s ∨ ∃ slot, Arrival s slot s' := by
  cases op with
  | addTask named entry pageDir priority stack =>
      simp only [step, Except.ok.injEq] at hs
      subst hs
      rcases addTask_ok s named entry pageDir priority stack with
        he | ⟨hnamed, slot, hv, ⟨h0, he⟩ | ⟨h0, t, frames, hnew, _, he⟩⟩
      · exact .inl (by rw [he])
      · have hfresh := hf hnamed slot (hv.lt_max h) hv.fst
        rw [if_pos h0] at hfresh
        rw [he]
        refine .inr ⟨slot, built_arrival hv ?_ fun hl => absurd (hv.dead h) hl⟩
        rcases hv.free with ⟨hlt, hd⟩ | ⟨heq, _⟩
        · exact .inr ⟨hlt, rfl, hd⟩
        · exact .inl (hfresh heq)
      · have hfresh := hf hnamed slot (hv.lt_max h) hv.fst
        rw [if_neg h0] at hfresh
        rw [he]
        exact .inr
          ⟨slot, built_arrival hv (.inl (by rw [hnew.pid]; exact hfresh)) fun _ => hnew.children⟩
  | addUserElfTask stack stackPhys dir elf =>
      simp only [step, Except.ok.injEq] at hs
      subst hs
      rcases addUserElfTask_ok s stack stackPhys dir elf with
        he | ⟨slot, hv, ⟨hno, t, hd, he⟩ | ⟨hyes, t, e, frames, hnew, _, he⟩⟩
      · exact .inl (by rw [he])
      · have hfresh := hf slot (hv.lt_max h) hv.fst
        rw [if_neg hno] at hfresh
        rw [he]
        exact .inr
          ⟨slot, built_arrival hv (.inl (by rw [hd.pid]; exact hfresh)) fun _ => hd.children⟩
      · have hfresh := hf slot (hv.lt_max h) hv.fst
        rw [if_pos hyes] at hfresh
        rw [he]
        exact .inr
          ⟨slot, built_arrival hv (.inl (by rw [hnew.pid]; exact hfresh)) fun _ => hnew.children⟩
  | fork stack dir =>
      simp only [step, Except.ok.injEq] at hs
      subst hs
      rcases fork_ok s stack dir h.cur_lt h.cur_live with
        he | ⟨huser, hesp, slot, hv, hne,
          ⟨hno, t, frames, hd, he⟩ | ⟨hstack, hdir, t, frames, hnew, _, _, he⟩⟩
      · exact .inl (by rw [he])
      · have hfresh := hf huser hesp slot (hv.lt_max h) hv.fst
        rw [if_neg hno] at hfresh
        rw [he]
        exact .inr
          ⟨slot, built_arrival hv (.inl (by rw [hd.pid]; exact hfresh)) fun _ => hd.children⟩
      · have hfresh := hf huser hesp slot (hv.lt_max h) hv.fst
        rw [if_pos ⟨hstack, hdir⟩] at hfresh
        rw [he]
        obtain ⟨cs, fs, hforked⟩ := forked_eq s s.cur
        refine .inr ⟨slot, hv, rfl, rfl, .inl ?_, fun _ => ?_, fun j hj => ?_, fun j hj => ?_⟩
        · rw [built_slot, hnew.pid]
          exact hfresh.1
        · rw [built_slot]
          exact hnew.children
        · by_cases hc : j = s.currentIdx
          · subst hc
            rw [built_cur hj, hforked]
            exact ⟨rfl, rfl, rfl⟩
          · rw [built_other hj hc]
            exact ⟨rfl, rfl, rfl⟩
        · by_cases hc : j = s.currentIdx
          · subst hc
            rw [built_cur hj]
            by_cases hroom : s.cur.children.length < Task.maxChildren
            · obtain ⟨fs, hfs⟩ := forked_of_room (s := s) hroom
              rw [hfs]
              exact .inr ⟨rfl, rfl, hfresh⟩
            · exact .inl (forked_full hroom)
          · rw [built_other hj hc]
            exact .inl rfl
  | init | exec | pitTick | tick | sleep | blockCurrentTask | unblockTask | sendSignal | killTask
  | exitCurrentTask | setUnblockOnExit | waitpid | waitpidResume | deliverSignals | fpu =>
      contradiction

end Sched

end Doors
