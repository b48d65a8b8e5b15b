import Mathlib.Data.Finset.Sort
import Mathlib.Data.Nat.ModEq
import Doors.Scheduler.Bystander

/-!
# Doors.Scheduler.RoundRobin

Which task `findNext` picks, and who runs when quantum after quantum expires.

* `findNext_selects` — the READY task of best priority that comes first after
  the current slot, or slot 0;
* `Turn.next` — a turn among the tasks of a class gives the processor to the
  next slot of the class;
* `roundRobin` — in every run of turns each task of the class runs once before
  one of them runs again.
-/

namespace Doors

open Run

namespace Sched

open Scheduler

/-! ## selection -/

/-- How many slots `findNext` looks at before slot `i`. -/
def ahead (s : Sched) (i : Nat) : Nat := (i + s.taskCount - (s.currentIdx + 1)) % s.taskCount

/-- Slot `i` is READY, not the current one, of minimal priority value among
these, and the first of that priority in cyclic order after the current slot. -/
structure Selected (s : Sched) (i : Nat) : Prop where
  lt : i < s.taskCount
  other : i ≠ s.currentIdx
  ready : (s.tasks i).state = .ready
  best : ∀ j < s.taskCount, j ≠ s.currentIdx → (s.tasks j).state = .ready →
    (s.tasks i).priority ≤ (s.tasks j).priority
  first : ∀ j < s.taskCount, j ≠ s.currentIdx → (s.tasks j).state = .ready →
    (s.tasks j).priority = (s.tasks i).priority → s.ahead i ≤ s.ahead j

variable {s s' : Sched} {i j k p : Nat}

/-- The slot at offset `k` of the scan. -/
def scanned (s : Sched) (k : Nat) : Nat := (s.currentIdx + 1 + k) % s.taskCount

/-- The slots in the order of the scan. -/
theorem scanned_eq (hcur : s.currentIdx < s.taskCount) (hk : k < s.taskCount) :
    s.scanned k = if s.currentIdx + 1 + k < s.taskCount then s.currentIdx + 1 + k
      else s.currentIdx + 1 + k - s.taskCount := by
  unfold scanned
  split
  · next h => exact Nat.mod_eq_of_lt h
  · next h =>
      rw [Nat.mod_eq_sub_mod (by omega)]
      exact Nat.mod_eq_of_lt (by omega)

/-- How far ahead a slot is. -/
theorem ahead_eq (hcur : s.currentIdx < s.taskCount) (hi : i < s.taskCount) :
    s.ahead i = if s.currentIdx < i then i - s.currentIdx - 1
      else i + s.taskCount - s.currentIdx - 1 := by
  unfold ahead
  split
  · next h =>
      rw [Nat.mod_eq_sub_mod (by omega)]
      rw [Nat.mod_eq_of_lt (by omega)]
      omega
  · next h =>
      rw [Nat.mod_eq_of_lt (by omega)]
      omega

/-- The scan visits every slot but the current one. -/
theorem scanned_ahead (hcur : s.currentIdx < s.taskCount) (hi : i < s.taskCount)
    (hne : i ≠ s.currentIdx) :
    s.ahead i < s.taskCount - 1 ∧ s.scanned (s.ahead i) = i := by
  have ha := ahead_eq hcur hi
  have hlt : s.ahead i < s.taskCount - 1 := by
    rw [ha]
    split <;> omega
  refine ⟨hlt, ?_⟩
  rw [scanned_eq hcur (by omega), ha]
  split <;> split <;> omega

/-- The scan comes to every other slot. -/
theorem ahead_scanned (hcur : s.currentIdx < s.taskCount) (hk : k < s.taskCount - 1) :
    s.scanned k < s.taskCount ∧ s.scanned k ≠ s.currentIdx ∧ s.ahead (s.scanned k) = k := by
  have hs := scanned_eq hcur (show k < s.taskCount by omega)
  have hlt : s.scanned k < s.taskCount := Nat.mod_lt _ (by omega)
  have hne : s.scanned k ≠ s.currentIdx := by
    rw [hs]
    split <;> omega
  refine ⟨hlt, hne, ?_⟩
  rw [ahead_eq hcur hlt, hs]
  split <;> split <;> omega

/-- The offset `k` beats priority `bp`. -/
def Beats (s : Sched) (bp k : Nat) : Prop :=
  (s.tasks (s.scanned k)).state = .ready ∧ (s.tasks (s.scanned k)).priority < bp

/-- What the selection loop makes of its accumulators: nothing beats them, or
the result is the first of the best. -/
theorem findNextLoop_spec (s : Sched) (ks : List Nat) (bp : Nat) (bi : Option Nat) :
    (s.findNextLoop ks bp bi = bi ∧ ∀ k ∈ ks, ¬ Beats s bp k) ∨
      ∃ pre k post, ks = pre ++ k :: post ∧ s.findNextLoop ks bp bi = some (s.scanned k) ∧
        Beats s bp k ∧
        (∀ j ∈ pre, ¬ Beats s ((s.tasks (s.scanned k)).priority + 1) j) ∧
        ∀ j ∈ post, ¬ Beats s (s.tasks (s.scanned k)).priority j := by
  induction ks generalizing bp bi with
  | nil => exact .inl ⟨rfl, by simp⟩
  | cons k ks ih =>
      simp only [findNextLoop]
      by_cases hb : Beats s bp k
      · have hb' : (s.tasks ((s.currentIdx + 1 + k) % s.taskCount)).state = .ready ∧
            (s.tasks ((s.currentIdx + 1 + k) % s.taskCount)).priority < bp := hb
        simp only [hb', and_self, if_true]
        split
        · next hhigh =>
            -- the early exit: nothing is better than the best priority
            refine .inr ⟨[], k, ks, rfl, rfl, hb, by simp, fun j _ hj => ?_⟩
            have hz : (s.tasks (s.scanned k)).priority = 0 := hhigh
            have := hj.2
            omega
        · rcases ih (s.tasks (s.scanned k)).priority (some (s.scanned k)) with ⟨hr, hnone⟩ |
            ⟨pre, l, post, hks, hr, hl, hpre, hpost⟩
          · exact .inr ⟨[], k, ks, rfl, hr, hb, by simp, hnone⟩
          · refine .inr ⟨k :: pre, l,
              post, by rw [hks, List.cons_append], hr, ⟨hl.1, hl.2.trans hb.2⟩, ?_, hpost⟩
            refine List.forall_mem_cons.mpr ⟨fun hk => ?_, hpre⟩
            have h₁ := hk.2
            have h₂ := hl.2
            omega
      · have hb' : ¬ ((s.tasks ((s.currentIdx + 1 + k) % s.taskCount)).state = .ready ∧
            (s.tasks ((s.currentIdx + 1 + k) % s.taskCount)).priority < bp) := hb
        simp only [hb', if_false]
        split
        · next hhigh =>
            refine .inl ⟨rfl, fun j _ hj => ?_⟩
            have hz : bp = 0 := hhigh
            have := hj.2
            omega
        · rcases ih bp bi with ⟨hr, hnone⟩ | ⟨pre, l, post, hks, hr, hl, hpre, hpost⟩
          · exact .inl ⟨hr, List.forall_mem_cons.mpr ⟨hb, hnone⟩⟩
          · refine .inr ⟨k :: pre, l, post, by rw [hks, List.cons_append], hr, hl, ?_, hpost⟩
            refine List.forall_mem_cons.mpr ⟨fun hk => hb ⟨hk.1, ?_⟩, hpre⟩
            have h₁ := hk.2
            have h₂ := hl.2
            omega

/-- **Selection**: the best READY task that comes first after the current slot,
or slot 0. -/
theorem findNext_selects (hcur : s.currentIdx < s.taskCount) (htwo : 2 ≤ s.taskCount)
    (hmax : s.taskCount ≤ maxTasks)
    (hprio : ∀ i < s.taskCount, (s.tasks i).priority ≤ Task.priorityIdle) :
    (∃ i, s.findNext = .ok (some i) ∧ Selected s i) ∨
      s.findNext = .ok (some 0) ∧ ∀ j < s.taskCount, j ≠ s.currentIdx →
        (s.tasks j).state ≠ .ready := by
  have hnext : s.findNext =
      .ok (some ((findNextLoop s (List.range (s.taskCount - 1)) (Task.priorityIdle + 1) none).getD
          0)) := by
    unfold findNext
    rw [if_neg (by omega), if_neg (by omega), if_neg (by omega)]
  rw [hnext]
  have hscan : ∀ {j : Nat}, j < s.taskCount → j ≠ s.currentIdx →
    s.ahead j ∈ List.range (s.taskCount - 1) ∧
      s.scanned (s.ahead j) = j := by
    intro j hj hne
    obtain ⟨hlt, hs⟩ := scanned_ahead hcur hj hne
    exact ⟨List.mem_range.mpr hlt, hs⟩
  rcases findNextLoop_spec s (List.range (s.taskCount - 1)) (Task.priorityIdle + 1) none with
    ⟨hr, hnone⟩ | ⟨pre, k, post, hks, hr, hk, hpre, hpost⟩
  · refine .inr ⟨by rw [hr]; rfl, fun j hj hne hready => ?_⟩
    obtain ⟨hmem, hs⟩ := hscan hj hne
    refine hnone _ hmem ⟨by rw [hs]; exact hready, ?_⟩
    rw [hs]
    have := hprio j hj
    omega
  · refine .inl ⟨s.scanned k, by rw [hr]; rfl, ?_⟩
    have hkr : k ∈ List.range (s.taskCount - 1) := by
      rw [hks]
      simp
    obtain ⟨hlt, hne, hahead⟩ := ahead_scanned hcur (List.mem_range.mp hkr)
    -- the offsets before `k` are those less than `k`
    have hbefore : ∀ l, l ∈ List.range (s.taskCount - 1) → l < k → l ∈ pre := by
      intro l hl hlk
      rw [hks] at hl
      have hsorted := List.pairwise_lt_range (n := s.taskCount - 1)
      rw [hks, List.pairwise_append, List.pairwise_cons] at hsorted
      rcases List.mem_append.mp hl with hl | hl
      · exact hl
      · rcases List.mem_cons.mp hl with rfl | hl
        · omega
        · have := hsorted.2.1.1 l hl
          omega
    refine ⟨hlt, hne, hk.1, fun j hj hnej hready => ?_, fun j hj hnej hready hpj => ?_⟩
    · obtain ⟨hmem, hs⟩ := hscan hj hnej
      rw [hks] at hmem
      by_contra hbest
      rcases List.mem_append.mp hmem with hmem | hmem
      · exact hpre _ hmem ⟨by rw [hs]; exact hready, by rw [hs]; omega⟩
      · rcases List.mem_cons.mp hmem with heq | hmem
        · rw [heq] at hs
          rw [hs] at hbest
          exact hbest le_rfl
        · exact hpost _ hmem ⟨by rw [hs]; exact hready, by rw [hs]; omega⟩
    · obtain ⟨hmem, hs⟩ := hscan hj hnej
      rw [hahead]
      by_contra hlt
      exact hpre _ (hbefore _ hmem (by omega)) ⟨by rw [hs]; exact hready, by rw [hs]; omega⟩

/-! ## turns -/

/-- The task in slot `i` can run. -/
def Runnable (s : Sched) (i : Nat) : Prop := (s.tasks i).state = .ready ∨
    (s.tasks i).state = .running

instance (s : Sched) (i : Nat) : Decidable (s.Runnable i) := inferInstanceAs (Decidable (_ ∨ _))

/-- `C` are the tasks of priority `p` that can run, and no task that can run has
a better one. -/
structure BestClass (C : Finset Nat) (p : Nat) (s : Sched) : Prop where
  mem : ∀ i, i ∈ C ↔ i < s.taskCount ∧ s.Runnable i ∧ (s.tasks i).priority = p
  best : ∀ i < s.taskCount, s.Runnable i → p ≤ (s.tasks i).priority
  le : ∀ i < s.taskCount, (s.tasks i).priority ≤ Task.priorityIdle

/-- A tick at which the quantum of the current task has expired and after which
`C` is the class of best priority. -/
structure Turn (C : Finset Nat) (p : Nat) (s s' : Sched) : Prop where
  initialized : s.initialized = true
  expired : quantumMs ≤ sub64 s.pit.uptimeMs s.quantumStartMs
  tick : ∃ esp frame intact, s.step (.tick esp frame intact) = .ok s'
  after : BestClass C p s'

/-- Runs in which tasks of the class `C` take turns; `ran` are the slots that had
the processor.  Between the turns anything may happen that leaves it to the
current task. -/
inductive Turns (C : Finset Nat) (p : Nat) (s : Sched) : List Nat → Sched → Prop where
  | start : Turns C p s [s.currentIdx] s
  | other {ran : List Nat} {s₁ s₂ : Sched} {op : Op} (run : Turns C p s ran s₁)
    (next : s₁.step op = .ok s₂)
      (same : s₂.currentIdx = s₁.currentIdx) : Turns C p s ran s₂
  | turn {ran : List Nat} {s₁ s₂ : Sched} (run : Turns C p s ran s₁) (next : Turn C p s₁ s₂) :
      Turns C p s (ran ++ [s₂.currentIdx]) s₂

variable {C : Finset Nat}

/-- The wakeup loop leaves the current slot, the number of slots and the
quantum alone. -/
theorem wakeExpired_keeps {now : Nat} (h : wakeExpired now k s = .ok s') :
    s'.currentIdx = s.currentIdx ∧ s'.taskCount = s.taskCount ∧
      s'.quantumStartMs = s.quantumStartMs := by
  have hpops := wakeExpired_ok h
  clear h
  induction hpops with
  | refl => exact ⟨rfl, rfl, rfl⟩
  | tail _ hpop ih =>
      obtain ⟨q, n, _, rfl⟩ := popSleeper_ok hpop.2
      exact ih

/-- The end of a tick at which the quantum has expired. -/
theorem reschedule_expired {now e : Nat} (hexp : quantumMs ≤ sub64 now s.quantumStartMs)
    (h : s.reschedule now = .ok (e, s')) (hnext : s.findNext = .ok (some i)) :
    (i = s.currentIdx ∧ s' = { s with quantumStartMs := now }.programNextTick) ∨
      (i ≠ s.currentIdx ∧ (s.leave.tasks i).state = .ready ∧ s' = s.leave.install i) := by
  unfold reschedule at h
  rw [if_pos hexp, hnext] at h
  simp only [bind, Except.bind] at h
  split at h
  · next heq =>
      simp only [Except.ok.injEq, Prod.mk.injEq] at h
      exact .inl ⟨heq, h.2.symm⟩
  · next hne =>
      obtain ⟨_, hready, hs'⟩ := switchTo_ok h
      exact .inr ⟨hne, hready, hs'⟩

/-- What a turn does: it comes to the end of the tick. -/
theorem Turn.reschedule (h : Turn C p s s') (hcur : s.currentIdx ∈ C) :
    ∃ (u : Sched) (e : Nat), u.currentIdx = s.currentIdx ∧ u.taskCount = s.taskCount ∧
      quantumMs ≤ sub64 s.pit.ticks u.quantumStartMs ∧ u.reschedule s.pit.ticks = .ok (e, s') := by
  obtain ⟨esp, frame, intact, hstep⟩ := h.tick
  simp only [step, bind_eq_ok] at hstep
  obtain ⟨⟨r, s₁⟩, htick, hs⟩ := hstep
  simp only [Except.ok.injEq] at hs
  subst hs
  rcases tick_ok htick with ⟨hinit, -⟩ | ⟨-, -, -, s₂, code, hq, hexit⟩ |
    ⟨e, s₂, u, -, -, hq, hwake, hres⟩
  · have := h.initialized
    rw [show s.initialized = false from hinit] at this
    contradiction
  · -- the task would be dead, but a task of the class can run
    have hdead := (exit_ended hexit).dead
    rw [hq.currentIdx] at hdead
    have hrun := ((h.after.mem _).mp hcur).2.1
    rcases hrun with hr | hr
    · rw [show (s₁.tasks s.currentIdx).state = .dead from hdead] at hr
      contradiction
    · rw [show (s₁.tasks s.currentIdx).state = .dead from hdead] at hr
      contradiction
  · obtain ⟨hc, hn, hm⟩ := wakeExpired_keeps hwake
    refine ⟨u, e, hc.trans hq.currentIdx, hn.trans hq.taskCount, ?_, hres⟩
    have hstart : s₂.quantumStartMs = s.quantumStartMs := by
      obtain ⟨_, _, _, _, rfl⟩ := hq.rest
      rfl
    rw [hm, hstart]
    exact h.expired

/-- A task that `switchTo` neither leaves nor installs. -/
theorem switch_other (hj : j ≠ s.currentIdx) (hi : j ≠ i) :
    (s.leave.install i).tasks j = s.tasks j := by
  rw [install_tasks, if_neg hi, leave_tasks, if_neg hj]

/-- Nobody's priority changes in a switch. -/
theorem switch_priority (s : Sched) (i j : Nat) :
    ((s.leave.install i).tasks j).priority = (s.tasks j).priority := by
  rw [install_tasks, leave_tasks, left]
  split
  · split
    · split <;> rfl
    · rfl
  · split
    · split <;> rfl
    · rfl

/-- **A turn** goes to the task of the class that comes first after the current
slot. -/
theorem Turn.next (h : Turn C p s s') (ht : Table s) (htwo : 2 ≤ C.card) (hcur : s.currentIdx ∈ C) :
    s'.taskCount = s.taskCount ∧ s'.currentIdx ∈ C ∧ s'.currentIdx ≠ s.currentIdx ∧
      ∀ j ∈ C, j ≠ s.currentIdx → s.ahead s'.currentIdx ≤ s.ahead j := by
  obtain ⟨esp, frame, intact, hstep⟩ := h.tick
  have ht' := step_table ht hstep
  obtain ⟨u, e, hucur, hucount, hexp, hres⟩ := h.reschedule hcur
  obtain ⟨l, hl, hlne⟩ := Finset.exists_mem_ne (show 1 < C.card from htwo) s.currentIdx
  have hahead : ∀ i, u.ahead i = s.ahead i := fun i => by rw [ahead, hucur, hucount, ← ahead]
  have hclass := h.after
  -- a task of the class that is not current is READY
  have hready : ∀ j ∈ C, j ≠ s'.currentIdx → (s'.tasks j).state = .ready := by
    intro j hj hne
    rcases ((hclass.mem j).mp hj).2.1 with hr | hr
    · exact hr
    · exact absurd (ht'.running j hr) hne
  have hmem : ∀ j ∈ C, j < s'.taskCount := fun j hj => ((hclass.mem j).mp hj).1
  have hcount : s'.taskCount = u.taskCount := by
    rcases reschedule_ok hres with ⟨m, -, rfl⟩ | ⟨next, -, -, -, -, rfl⟩
    · rfl
    · rfl
  have hprio : ∀ j, (s'.tasks j).priority = (u.tasks j).priority := by
    intro j
    rcases reschedule_ok hres with ⟨m, -, rfl⟩ | ⟨next, -, -, -, -, rfl⟩
    · rfl
    · exact switch_priority u next j
  have hn : 2 ≤ u.taskCount := by
    have h₁ := hmem _ hl
    have h₂ := hmem _ hcur
    omega
  rcases findNext_selects (s := u) (by rw [hucur, hucount]; exact ht.cur_lt) hn
    (hucount ▸ ht.count_le)
    (fun i hi => by rw [← hprio]; exact hclass.le i (by omega)) with ⟨i, hfind,
      hsel⟩ | ⟨hfind, hnone⟩
  · rcases reschedule_expired hexp hres hfind with ⟨heq, -⟩ | ⟨hne, hri, rfl⟩
    · exact absurd heq hsel.other
    · rw [install_currentIdx]
      have hready' : ∀ j ∈ C, j ≠ u.currentIdx → (u.tasks j).state = .ready := by
        intro j hj hjne
        by_cases hji : j = i
        · subst hji
          exact hsel.ready
        · have := hready j hj hji
          rwa [switch_other hjne hji] at this
      have hbest : ∀ j ∈ C, j ≠ u.currentIdx → (u.tasks i).priority ≤ (u.tasks j).priority :=
        fun j hj hjne => hsel.best j (by have := hmem j hj; omega) hjne (hready' j hj hjne)
      have hpri : ∀ j ∈ C, (u.tasks j).priority = p :=
        fun j hj => by rw [← hprio]; exact ((hclass.mem j).mp hj).2.2
      have hi : i < (u.leave.install i).taskCount := by
        rw [hcount]
        exact hsel.lt
      have hrun : (u.leave.install i).Runnable i := .inr (by simp)
      have hip : (u.tasks i).priority = p := by
        have h₁ := hclass.best i hi hrun
        rw [hprio] at h₁
        have h₂ := hbest l hl (by rw [hucur]; exact hlne)
        rw [hpri l hl] at h₂
        omega
      refine ⟨hcount.trans hucount, (hclass.mem i).mpr
        ⟨hi, hrun, by rw [hprio, hip]⟩, by rw [← hucur]; exact hne, ?_⟩
      intro j hj hjne
      rw [← hahead, ← hahead]
      rw [← hucur] at hjne
      exact hsel.first j (by have := hmem j hj; omega) hjne (hready' j hj hjne)
        (by rw [hpri j hj, hip])
  · -- the other tasks of the class are READY, so that one of them is found
    exfalso
    have hlu : l < u.taskCount := by
      have := hmem l hl
      omega
    rw [← hucur] at hlne
    rcases reschedule_expired hexp hres hfind with ⟨heq, rfl⟩ | ⟨hne, hri, rfl⟩
    · exact hnone l hlu hlne (hready l hl hlne)
    · rw [leave_tasks, if_neg hne] at hri
      exact hnone 0 (by omega) hne hri

/-! ## the order of turns -/

/-- The slots of `C` in ascending order, over and over. -/
def cycle (C : Finset Nat) (hC : 0 < C.card) (k : Nat) : Nat :=
  C.orderEmbOfFin rfl ⟨k % C.card, Nat.mod_lt _ hC⟩

/-- The cycle runs through the class. -/
theorem cycle_mem (hC : 0 < C.card) (k : Nat) : cycle C hC k ∈ C := C.orderEmbOfFin_mem rfl _

/-- The cycle goes up until it begins again. -/
theorem cycle_lt (hC : 0 < C.card) {a b : Nat} :
    cycle C hC a < cycle C hC b ↔ a % C.card < b % C.card := by
  unfold cycle
  rw [OrderEmbedding.lt_iff_lt, Fin.lt_def]

/-- A round has every task once. -/
theorem cycle_inj (hC : 0 < C.card) {a b : Nat} (h : cycle C hC a = cycle C hC b) :
    a % C.card = b % C.card := by
  have h₁ := cycle_lt hC (a := a) (b := b)
  have h₂ := cycle_lt hC (a := b) (b := a)
  omega

/-- Every task has its place in the cycle. -/
theorem exists_cycle (hC : 0 < C.card) (hi : i ∈ C) : ∃ k, i = cycle C hC k := by
  have hrange := C.range_orderEmbOfFin rfl
  rw [← Finset.mem_coe, ← hrange] at hi
  obtain ⟨k, rfl⟩ := hi
  refine ⟨k, ?_⟩
  simp [cycle, Nat.mod_eq_of_lt k.isLt]

/-- The first of `C` after slot `cycle k` is `cycle (k + 1)`. -/
theorem cycle_next (htwo : 2 ≤ C.card) (hlt : ∀ j ∈ C, j < s.taskCount)
    (hcur : s.currentIdx = cycle C (by omega) k) (hi : i ∈ C) (hne : i ≠ s.currentIdx)
    (hfirst : ∀ j ∈ C, j ≠ s.currentIdx → s.ahead i ≤ s.ahead j) :
    i = cycle C (by omega) (k + 1) := by
  have hC : 0 < C.card := by omega
  obtain ⟨m, rfl⟩ := exists_cycle hC hi
  have hm : m % C.card ≠ k % C.card := by
    intro heq
    rw [hcur] at hne
    exact hne (by simp only [cycle, heq])
  have hk : (k + 1) % C.card = if k % C.card + 1 < C.card then k % C.card + 1 else 0 := by
    rw [Nat.add_mod, Nat.mod_eq_of_lt (show 1 < C.card by omega)]
    have := Nat.mod_lt k hC
    split
    · next h => exact Nat.mod_eq_of_lt h
    · next h =>
        rw [show k % C.card + 1 = C.card by omega]
        exact Nat.mod_self _
  have hnext : cycle C hC (k + 1) ≠ s.currentIdx := by
    rw [hcur]
    intro heq
    have := cycle_inj hC heq
    rw [hk] at this
    split at this <;> omega
  have hle := hfirst _ (cycle_mem hC (k + 1)) hnext
  have h₁ := hlt _ (cycle_mem hC (k + 1))
  have h₂ := hlt _ (cycle_mem hC m)
  have h₀ := hlt _ (cycle_mem hC k)
  rw [ahead_eq (by rw [hcur]; exact h₀) h₂, ahead_eq (by rw [hcur]; exact h₀) h₁, hcur] at hle
  have hmk := cycle_lt hC (a := k) (b := m)
  have hnk := cycle_lt hC (a := k) (b := k + 1)
  have hmn := cycle_lt hC (a := m) (b := k + 1)
  have hnm := cycle_lt hC (a := k + 1) (b := m)
  have hkm := cycle_lt hC (a := m) (b := k)
  have hkn := cycle_lt hC (a := k + 1) (b := k)
  have hmc := Nat.mod_lt m hC
  have hkc := Nat.mod_lt k hC
  rw [hk] at hnk hmn hnm hkn
  by_cases hwrap : k % C.card + 1 < C.card
  · rw [if_pos hwrap] at hnk hmn hnm hkn
    rw [if_pos (hnk.mpr (by omega))] at hle
    split at hle <;> omega
  · rw [if_neg hwrap] at hnk hmn hnm hkn
    rw [if_neg (by omega), if_neg (by omega)] at hle
    omega

/-- The slots that had the processor are consecutive slots of the cycle. -/
structure InOrder (C : Finset Nat) (hC : 0 < C.card) (ran : List Nat) (s : Sched) : Prop where
  table : Table s
  order : ∃ k, ran.length ≠ 0 ∧ ran = (List.range ran.length).map (fun j => cycle C hC (k + j)) ∧
    s.currentIdx = cycle C hC (k + (ran.length - 1))

/-- The turns go round the cycle. -/
theorem Turns.inOrder {ran : List Nat} (h : Turns C p s ran s') (ht : Table s) (htwo : 2 ≤ C.card)
    (hcur : s.currentIdx ∈ C) : InOrder C (by omega) ran s' := by
  have hC : 0 < C.card := by omega
  induction h with
  | start =>
      obtain ⟨k, hk⟩ := exists_cycle hC hcur
      exact ⟨ht, k, by simp, by simp [hk], by simpa using hk⟩
  | other _ next same ih =>
      obtain ⟨k, hne, hran, hlast⟩ := ih.order
      exact ⟨step_table ih.table next, k, hne, hran, same.trans hlast⟩
  | @turn ran s₁ s₂ _ next ih =>
      obtain ⟨k, hne, hran, hlast⟩ := ih.order
      have hcur₁ : s₁.currentIdx ∈ C := hlast ▸ cycle_mem hC _
      obtain ⟨hcount, hmem, hother, hfirst⟩ := next.next ih.table htwo hcur₁
      have hlt : ∀ j ∈ C, j < s₁.taskCount := fun j hj => by
        rw [← hcount]
        exact ((next.after.mem j).mp hj).1
      have hnext := cycle_next htwo hlt hlast hmem hother hfirst
      rw [show k + (ran.length - 1) + 1 = k + ran.length by omega] at hnext
      obtain ⟨_, _, _, hstep⟩ := next.tick
      refine ⟨step_table ih.table hstep, k, by simp, ?_, ?_⟩
      · rw [List.length_append, List.length_singleton, List.range_succ, List.map_append,
          ← hran, hnext]
        rfl
      · rw [List.length_append, List.length_singleton, hnext]
        congr 1

/-- Among any `C.card` consecutive turns every task of the class has one. -/
theorem InOrder.window {hC : 0 < C.card} {ran : List Nat} (h : InOrder C hC ran s)
    (hk : k + C.card ≤ ran.length) :
    ((ran.drop k).take C.card).Nodup ∧ ((ran.drop k).take C.card).toFinset = C := by
  obtain ⟨l, -, hran, -⟩ := h.order
  have hwin : (ran.drop k).take C.card = (List.range C.card).map fun j =>
      cycle C hC (l + k + j) := by
    refine List.ext_getElem (by simp; omega) fun j h₁ h₂ => ?_
    simp only [List.length_map, List.length_range] at h₂
    rw [List.getElem_take, List.getElem_drop]
    conv_lhs => rw [List.getElem_of_eq hran (by omega)]
    simp only [List.getElem_map, List.getElem_range]
    congr 1
    omega
  rw [hwin]
  have hnodup : ((List.range C.card).map fun j => cycle C hC (l + k + j)).Nodup := by
    refine List.Nodup.map_on (fun a ha b hb hab => ?_) List.nodup_range
    have := Nat.ModEq.add_left_cancel' (l + k)
      (show l + k + a ≡ l + k + b [MOD C.card] from cycle_inj hC hab)
    rw [List.mem_range] at ha hb
    rwa [Nat.ModEq, Nat.mod_eq_of_lt ha, Nat.mod_eq_of_lt hb] at this
  refine ⟨hnodup, Finset.eq_of_subset_of_card_le ?_ ?_⟩
  · intro i hi
    obtain ⟨j, -, rfl⟩ := List.mem_map.mp (List.mem_toFinset.mp hi)
    exact cycle_mem hC _
  · rw [List.toFinset_card_of_nodup hnodup, List.length_map, List.length_range]

/-- **Priority-ordered round robin**: `findNext` picks the READY task of best
priority that comes first after the current slot, or slot 0 when no other task
is READY; and while the tasks of `C` share the best priority and can run, every
`C.card` consecutive turns give the processor to each of them once. -/
theorem priority_roundRobin :
    (∀ s : Sched, s.currentIdx < s.taskCount → 2 ≤ s.taskCount → s.taskCount ≤ maxTasks →
      (∀ i < s.taskCount, (s.tasks i).priority ≤ Task.priorityIdle) →
        (∃ i, s.findNext = .ok (some i) ∧ Selected s i) ∨
          s.findNext = .ok (some 0) ∧ ∀ j < s.taskCount, j ≠ s.currentIdx →
            (s.tasks j).state ≠ .ready) ∧
    ∀ (C : Finset Nat) (p : Nat) (s s' : Sched) (ran : List Nat), Table s → 2 ≤ C.card →
      s.currentIdx ∈ C →
      Turns C p s ran s' → ∀ k, k + C.card ≤ ran.length →
        ((ran.drop k).take C.card).Nodup ∧ ((ran.drop k).take C.card).toFinset = C :=
  ⟨fun _ => findNext_selects, fun _ _ _ _ _ ht htwo hcur h _ hk =>
    (h.inOrder ht htwo hcur).window hk⟩

/-- Two tasks, and the quantum of the first has expired. -/
def twoTasks : Sched :=
  [.addTask true 0x1000 0 Task.priorityNormal 0x8000,
    .addTask true 0x2000 0 Task.priorityNormal 0xA000,
    .tick 0 {} true, .pitTick, .tick 0 {} true, .pitTick].foldl (follow step) ({} : Sched).init

/-- Two tasks take turns. -/
theorem priority_roundRobin_twoTasks :
    ∃ s', Turns {1, 2} Task.priorityNormal twoTasks [1, 2, 1] s' ∧
      ([2, 1] : List Nat).Nodup ∧ ([2, 1] : List Nat).toFinset = {1, 2} := by
  have hclass : ∀ s : Sched, s.taskCount = 3 → (∀ i < 3, (i ∈ ({1, 2} : Finset Nat) ↔ s.Runnable i ∧
      (s.tasks i).priority = Task.priorityNormal) ∧ (s.tasks i).priority ≤ Task.priorityIdle ∧
      Task.priorityNormal ≤ (s.tasks i).priority) → BestClass {1, 2} Task.priorityNormal s := by
    intro s hs h
    refine ⟨fun i => ⟨fun hi => ?_, fun hi => ((h i (hs ▸ hi.1)).1).mpr hi.2⟩,
      fun i hi _ => (h i (hs ▸ hi)).2.2,
      fun i hi => (h i (hs ▸ hi)).2.1⟩
    have hlt : i < 3 := by
      rcases Finset.mem_insert.mp hi with rfl | hi
      · decide
      · rw [Finset.mem_singleton.mp hi]
        decide
    exact ⟨hs ▸ hlt, (h i hlt).1.mp hi⟩
  have htable : Table twoTasks := reach_table (C := Free) (Reach.of_follow (by decide))
  let s₁ := follow step twoTasks (.tick 0 {} true)
  let s₂ := follow step s₁ .pitTick
  let s₃ := follow step s₂ (.tick 0 {} true)
  have h₁ : Turn {1, 2} Task.priorityNormal twoTasks s₁ :=
    ⟨by decide, by decide, ⟨0, {}, true, step_follow (by decide)⟩, hclass _ (by decide) (by decide)⟩
  have h₃ : Turn {1, 2} Task.priorityNormal s₂ s₃ :=
    ⟨by decide, by decide, ⟨0, {}, true, step_follow (by decide)⟩, hclass _ (by decide) (by decide)⟩
  have h₂ : Turns {1, 2} Task.priorityNormal twoTasks _ s₂ :=
    .other (.turn .start h₁) (step_follow (by decide)) (by decide)
  have hran : [twoTasks.currentIdx] ++ [s₁.currentIdx] ++ [s₃.currentIdx] = [1, 2, 1] := by decide
  have hturns := h₂.turn h₃
  rw [hran] at hturns
  exact ⟨_, hturns, priority_roundRobin.2 _ _ _ _ _ htable (by decide) (by decide) hturns 1
    (by decide)⟩

end Sched

end Doors
