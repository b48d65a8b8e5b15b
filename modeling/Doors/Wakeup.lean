import Doors.Scheduler.Reap

/-!
# Doors.Wakeup

Waiting for a child with interrupts enabled.

`INT 0x80` is a trap gate, so a timer tick may fall between the parts of
`waitpid` (try to reap, register with each child, block) and of `SYS_EXECMOD`
(`addUserElfTask`, `setUnblockOnExit`, block).  `WakeSys` gives every task a
program counter for these two calls and runs the parts as separate steps.

A child that dies after the check and before its parent is BLOCKED wakes
nobody.  `Spared` excludes just that: in this window a parent does not lose
its last live child, and the child of `SYS_EXECMOD` does not die.

* `Watched` — who is registered with whom, for every program counter;
* `no_lost_wakeup` — then no BLOCKED parent of a DEAD child is left without
  a waker;
* `lost_wakeup` — the race, as a run.
-/

namespace Doors

open Cells Run Scheduler

/-- Where a task is inside `waitpid` or `SYS_EXECMOD`. -/
inductive Pc where
  | free
  /-- `waitpid` found nothing to reap and still has to register with `rest`. -/
  | registering (rest : List Nat)
  | waiting
  /-- `SYS_EXECMOD` created the task in slot `child`. -/
  | launched (child : Nat)
  | announced (child : Nat)
  | attending (child : Nat)
  deriving Repr, DecidableEq

/-- The scheduler and the program counters of its tasks. -/
structure WakeSys where
  sched : Sched
  pc : Nat → Pc := fun _ => .free

/-- The steps: the parts of the two calls, and whole operations. -/
inductive WakeOp where
  | sys (op : Op)
  | waitpid (status : Nat)
  | register
  | execMod (stack : Nat) (stackPhys : Option (Nat → Nat)) (dir : Nat) (elf : Option ElfResult)
  | announce
  /-- `blockCurrentTaskAndYield`. -/
  | block
  /-- The way out of the wait loop. -/
  | resume

namespace WakeSys

open Sched

/-! ## steps -/

def start (s : Sched) : WakeSys := { sched := s.init }

/-- A new task is in neither call. -/
def bornPc (m : WakeSys) : Nat → Pc :=
  match m.sched.findSlot.1 with
  | some slot => set m.pc slot .free
  | none => m.pc

/-- The current task goes on at `pc`. -/
def goto (m : WakeSys) (pc : Pc) : WakeSys := { m with pc := set m.pc m.sched.currentIdx pc }

/-- One step. -/
def step (m : WakeSys) : WakeOp → Except Fault WakeSys
  | .sys op => do
      let sched ← m.sched.step op
      .ok { sched, pc := if op.creates then m.bornPc else m.pc }
  | .waitpid status =>
      if status ≥ kernelVirtualBase then .ok m
      else
        match m.sched.reapDeadChild m.sched.currentIdx with
        | (some _, sched) => .ok { m with sched }
        | (none, sched) =>
            if sched.cur.children = [] then .ok { m with sched }
            else .ok ({ m with sched : WakeSys }.goto (.registering sched.cur.children))
  | .register =>
      match m.pc m.sched.currentIdx with
      | .registering (pid :: rest) =>
          .ok ({ m with sched := m.sched.registerChild pid m.sched.currentIdx : WakeSys }.goto
            (.registering rest))
      | _ => .ok m
  | .execMod stack stackPhys dir elf =>
      match m.sched.addUserElfTask stack stackPhys dir elf with
      | (none, sched) => .ok { sched, pc := m.bornPc }
      | (some slot, sched) => .ok ({ sched, pc := m.bornPc : WakeSys }.goto (.launched slot))
  | .announce =>
      match m.pc m.sched.currentIdx with
      | .launched child =>
          .ok ({ m with sched := m.sched.setUnblockOnExit child m.sched.currentIdx : WakeSys }.goto
            (.announced child))
      | _ => .ok m
  | .block =>
      match m.pc m.sched.currentIdx with
      | .registering [] => do
          let sched ← m.sched.blockCurrentTaskAndYield
          .ok ({ m with sched : WakeSys }.goto .waiting)
      | .announced child => do
          let sched ← m.sched.blockCurrentTaskAndYield
          .ok ({ m with sched : WakeSys }.goto (.attending child))
      | _ => .ok m
  | .resume =>
      match m.pc m.sched.currentIdx with
      | .waiting =>
          if m.sched.cur.state = .blocked then .ok m
          else .ok ({ m with sched := m.sched.waitpidResume.2 : WakeSys }.goto .free)
      | .attending _ => if m.sched.cur.state = .blocked then .ok m else .ok (m.goto .free)
      | _ => .ok m

/-! ## runs -/

/-- Programs: the scheduler is initialised once, the idle task does not end,
and a task inside one of the calls does nothing else. -/
def Legal (m : WakeSys) : WakeOp → Prop
  | .sys op => m.sched.ends op ≠ some 0 ∧
      match op with
      | .init | .setUnblockOnExit _ _ | .waitpid _ | .waitpidResume => False
      | .pitTick | .tick _ _ _ | .unblockTask _ | .sendSignal _ _ | .killTask _ => True
      | _ => m.pc m.sched.currentIdx = .free
  | .waitpid _ | .execMod _ _ _ _ => m.pc m.sched.currentIdx = .free
  | _ => True

/-- The death of the task in slot `i` does not leave the task in slot `p`, if
that is about to wait, without a live child. -/
def SparedAt (s : Sched) (i p : Nat) : Pc → Prop
  | .registering _ => (s.tasks i).pid ∈ (s.tasks p).children →
      ∃ j < s.taskCount, j ≠ i ∧ (s.tasks j).state ≠ .dead ∧ (s.tasks j).pid ∈ (s.tasks p).children
  | .launched child | .announced child => child ≠ i
  | _ => True

/-- The task in slot `i` may die now. -/
def Spared (m : WakeSys) (i : Nat) : Prop :=
  ∀ p < m.sched.taskCount, (m.sched.tasks p).state ≠ .dead → SparedAt m.sched i p (m.pc p)

/-- The interleavings that go wrong do not happen. -/
def Undisturbed (m : WakeSys) : WakeOp → Prop
  | .sys op => Fresh m.sched op ∧
      match m.sched.ends op with
      | some i => Spared m i
      | none => True
  | .execMod stack stackPhys dir elf => Fresh m.sched (.addUserElfTask stack stackPhys dir elf)
  | _ => True

/-- The steps of the runs in which no wakeup is lost. -/
def Allowed (m : WakeSys) (op : WakeOp) : Prop := Legal m op ∧ Undisturbed m op

/-- A child that the task in slot `p` waits for is DEAD. -/
def ChildDead (s : Sched) (p : Nat) : Pc → Prop
  | .waiting => ∃ pid ∈ (s.tasks p).children, s.findDead pid ≠ none
  | .attending child => (s.tasks child).state = .dead
  | _ => False

/-- The task in slot `p` is BLOCKED in one of the calls, nothing is left that
would wake it, and a child it waits for is DEAD. -/
structure Stranded (m : WakeSys) (p : Nat) : Prop where
  blocked : (m.sched.tasks p).state = .blocked
  noTimer : ∀ e ∈ m.sched.queue, e.taskId ≠ p
  noWaker : ∀ t < m.sched.taskCount, (m.sched.tasks t).state ≠ .dead → ¬ (m.sched.tasks t).Names p
  ended : ChildDead m.sched p (m.pc p)

instance (s : Sched) (i p : Nat) (pc : Pc) : Decidable (SparedAt s i p pc) := by
  cases pc <;> unfold SparedAt <;> infer_instance

instance (m : WakeSys) (op : WakeOp) : Decidable (Legal m op) := by
  match op with
  | .sys op => apply @Op.casesOn _ op <;> intros <;> unfold Legal <;> infer_instance
  | .waitpid _ | .register | .execMod .. | .announce | .block | .resume =>
      unfold Legal; infer_instance

instance (m : WakeSys) (i : Nat) : Decidable (Spared m i) := by
  unfold Spared
  infer_instance

instance (m : WakeSys) (op : WakeOp) : Decidable (Undisturbed m op) := by
  match op with
  | .sys op =>
      unfold Undisturbed
      dsimp only
      generalize m.sched.ends op = j
      apply @Option.casesOn _ _ j <;> intros <;> infer_instance
  | .waitpid _ | .register | .execMod .. | .announce | .block | .resume =>
      unfold Undisturbed
      infer_instance

instance (m : WakeSys) (op : WakeOp) : Decidable (Allowed m op) :=
  inferInstanceAs (Decidable (_ ∧ _))

instance (s : Sched) (p : Nat) (pc : Pc) : Decidable (ChildDead s p pc) := by
  cases pc <;> unfold ChildDead <;> infer_instance

instance (m : WakeSys) (p : Nat) : Decidable (Stranded m p) :=
  decidable_of_iff ((m.sched.tasks p).state = .blocked ∧ (∀ e ∈ m.sched.queue, e.taskId ≠ p) ∧
      (∀ t < m.sched.taskCount, (m.sched.tasks t).state ≠ .dead → ¬ (m.sched.tasks t).Names p) ∧
      ChildDead m.sched p (m.pc p))
    ⟨fun h => ⟨h.1, h.2.1, h.2.2.1, h.2.2.2⟩, fun h => ⟨h.blocked, h.noTimer, h.noWaker, h.ended⟩⟩

/-! ## the invariant -/

/-- None of the tasks with a listed pid is DEAD, or one of them is alive. -/
def Hopeful (s : Sched) (p : Nat) : Prop :=
  (∀ t < s.taskCount, (s.tasks t).pid ∈ (s.tasks p).children → (s.tasks t).state ≠ .dead) ∨
    ∃ t < s.taskCount, (s.tasks t).state ≠ .dead ∧ (s.tasks t).pid ∈ (s.tasks p).children

/-- The live tasks with a listed pid, outside `rest`, name `p`. -/
def Registered (s : Sched) (p : Nat) (rest : List Nat) : Prop :=
  ∀ t < s.taskCount, (s.tasks t).state ≠ .dead → (s.tasks t).pid ∈ (s.tasks p).children →
    (s.tasks t).pid ∉ rest → (s.tasks t).unblockOnExit = p

/-- The slot of `SYS_EXECMOD`'s child is that of a live task nobody lists. -/
structure Launched (s : Sched) (child : Nat) : Prop where
  lt : child < s.taskCount
  alive : (s.tasks child).state ≠ .dead
  ne : child ≠ 0
  unlisted : Unlisted s (s.tasks child).pid

/-- What holds of the task in slot `p` at its program counter. -/
def At (s : Sched) (p : Nat) : Pc → Prop
  | .free => True
  | .registering rest => (∀ pid ∈ rest, pid ∈ (s.tasks p).children) ∧ Hopeful s p ∧
      Registered s p rest
  | .waiting => (s.tasks p).state = .blocked → Hopeful s p ∧ Registered s p []
  | .launched child => Launched s child
  | .announced child => Launched s child ∧ (s.tasks child).unblockOnExit = p
  | .attending child => (s.tasks p).state = .blocked →
      Launched s child ∧ (s.tasks child).unblockOnExit = p

/-- The child of `SYS_EXECMOD` that the task in slot `p` still relies on. -/
def Claims (m : WakeSys) (p child : Nat) : Prop :=
  m.pc p = .launched child ∨ m.pc p = .announced child ∨
    m.pc p = .attending child ∧ (m.sched.tasks p).state = .blocked

/-- Nobody can be stranded. -/
structure Watched (m : WakeSys) : Prop where
  table : Table m.sched
  idle : (m.sched.tasks 0).state ≠ .dead
  disjoint : ∀ p q, (m.sched.tasks p).state ≠ .dead → (m.sched.tasks q).state ≠ .dead → p ≠ q →
    ∀ pid ∈ (m.sched.tasks p).children, pid ∉ (m.sched.tasks q).children
  own : ∀ p q child, (m.sched.tasks p).state ≠ .dead → (m.sched.tasks q).state ≠ .dead → p ≠ q →
    Claims m p child → ¬ Claims m q child
  at_pc : ∀ p, (m.sched.tasks p).state ≠ .dead → At m.sched p (m.pc p)

variable {m m' : WakeSys} {s s' s₀ : Sched} {op : Op} {p : Nat} {pc : Pc}

/-- No call is in progress at the start. -/
theorem start_watched (s : Sched) : Watched (start s) where
  table := init_table s
  idle := (init_table s).cur_live
  disjoint := by
    intro p q _ _ _ pid hpid
    have hnil : ((start s).sched.tasks p).children = [] := by
      change (s.init.tasks p).children = []
      unfold init
      dsimp only
      split <;> rfl
    rw [hnil] at hpid
    exact absurd hpid List.not_mem_nil
  own := by
    rintro p q child _ _ _ (h | h | ⟨h, _⟩) <;> contradiction
  at_pc := fun _ _ => trivial

/-- A live task is in the table. -/
theorem Watched.lt (h : Watched m) (hp : (m.sched.tasks p).state ≠ .dead) :
    p < m.sched.taskCount := by
  by_contra hge
  exact hp (h.table.beyond p (by omega))

/-! ## bystanders -/

/-- Who is alive after a bystander's step was alive before and was not
ended. -/
theorem calm_live {t : Nat} (hc : Calm s op s s') (hends : ∀ i, s.ends op = some i → Ended s i s')
    (ht : (s'.tasks t).state ≠ .dead) : (s.tasks t).state ≠ .dead ∧ s.ends op ≠ some t :=
  ⟨fun hd => ht (hc.dead t hd).1, fun he => ht (hends t he).dead⟩

/-- A module that was launched stays so while others go on. -/
theorem Launched.calm {child : Nat} (h : Launched s child) (hc : Calm s op s s')
    (hends : ∀ i, s.ends op = some i → Ended s i s') (hno : s.ends op ≠ some child) :
    Launched s' child where
  lt := hc.taskCount ▸ h.lt
  alive := hc.ended child hno h.alive
  ne := h.ne
  unlisted := by
    intro p hp hl
    rw [hc.taskCount] at hp
    rw [hc.pid, hc.children]
    exact h.unlisted p hp (calm_live hc hends hl).1

/-- A registration stays while others go on. -/
theorem Registered.calm {rest : List Nat} (h : Registered s p rest) (hc : Calm s op s s')
    (hends : ∀ i, s.ends op = some i → Ended s i s') : Registered s' p rest := by
  intro t ht hl
  obtain ⟨hl₀, hno⟩ := calm_live hc hends hl
  rw [hc.taskCount] at ht
  rw [hc.pid, hc.children, hc.waker t hno]
  exact h t ht hl₀

/-- Hope survives unless a listed task dies and leaves no other. -/
theorem Hopeful.calm (h : Hopeful s p) (hc : Calm s op s s')
    (hdeath : ∀ i, s.ends op = some i → (s.tasks i).pid ∈ (s.tasks p).children →
      ∃ j < s.taskCount, j ≠ i ∧ (s.tasks j).state ≠ .dead ∧
        (s.tasks j).pid ∈ (s.tasks p).children) :
    Hopeful s' p := by
  by_cases hend : ∃ i, s.ends op = some i ∧ (s.tasks i).pid ∈ (s.tasks p).children
  · obtain ⟨i, hi, hmem⟩ := hend
    obtain ⟨j, hj, hne, hl, hjm⟩ := hdeath i hi hmem
    refine .inr ⟨j, hc.taskCount ▸ hj, hc.ended j ?_ hl, ?_⟩
    · rw [hi]
      exact fun he => hne (Option.some.inj he).symm
    · rw [hc.pid, hc.children]
      exact hjm
  · have hkeep : ∀ t, (s.tasks t).pid ∈ (s.tasks p).children → (s.tasks t).state ≠ .dead →
        (s'.tasks t).state ≠ .dead := fun t ht hl => hc.ended t (fun he => hend ⟨t, he, ht⟩) hl
    rcases h with h | ⟨t, ht, hl, hm⟩
    · left
      intro t ht hm
      rw [hc.taskCount] at ht
      rw [hc.pid, hc.children] at hm
      exact hkeep t hm (h t ht hm)
    · refine .inr ⟨t, hc.taskCount ▸ ht, hkeep t hm hl, ?_⟩
      rw [hc.pid, hc.children]
      exact hm

/-- A task that names the BLOCKED task `p` does not die without waking it. -/
theorem not_ends {i : Nat} (hends : ∀ i, s.ends op = some i → Ended s i s') (hp : p < s.taskCount)
    (hmax : s.taskCount ≤ maxTasks) (hun : (s.tasks i).unblockOnExit = p)
    (hb : (s'.tasks p).state = .blocked) : s.ends op ≠ some i := by
  intro he
  have : maxTasks = 8 := rfl
  exact (hends i he).awake p hun hp (by omega) hb

/-- A call stays where it is while others go on. -/
theorem At.calm (h : At s p pc) (hc : Calm s op s s') (ht : Table s) (hp : p < s.taskCount)
    (hb : (s'.tasks p).state = .blocked → pc ≠ .free → (s.tasks p).state = .blocked)
    (hends : ∀ i, s.ends op = some i → Ended s i s')
    (hspare : ∀ i, s.ends op = some i → SparedAt s i p pc) : At s' p pc := by
  cases pc with
  | free => trivial
  | registering rest =>
      obtain ⟨hsub, hhope, hreg⟩ := h
      refine ⟨?_, hhope.calm hc hspare, hreg.calm hc hends⟩
      rw [hc.children]
      exact hsub
  | waiting =>
      intro hb'
      obtain ⟨hhope, hreg⟩ := h (hb hb' nofun)
      refine ⟨hhope.calm hc fun i hi hm => ?_, hreg.calm hc hends⟩
      -- a listed task that is alive is registered, so its death would have woken `p`
      obtain ⟨hi', hl⟩ := ends_live ht hi
      have hun := hreg i hi' hl hm List.not_mem_nil
      exact absurd hi (not_ends hends hp ht.count_le hun hb')
  | launched child => exact h.calm hc hends fun he => hspare child he rfl
  | announced child =>
      have hno : s.ends op ≠ some child := fun he => hspare child he rfl
      exact ⟨h.1.calm hc hends hno, (hc.waker child hno).trans h.2⟩
  | attending child =>
      intro hb'
      obtain ⟨hl, hun⟩ := h (hb hb' nofun)
      have hno := not_ends hends hp ht.count_le hun hb'
      exact ⟨hl.calm hc hends hno, (hc.waker child hno).trans hun⟩

/-- **A step of others** keeps what every call relies on. -/
theorem Watched.calm (h : Watched m) (hc : Calm m.sched op m.sched s') (ht : Table s')
    (h0 : m.sched.ends op ≠ some 0) (hfree : op.blocks = true → m.pc m.sched.currentIdx = .free)
    (hends : ∀ i, m.sched.ends op = some i → Ended m.sched i s')
    (hspare : ∀ i, m.sched.ends op = some i → Spared m i) : Watched { m with sched := s' } := by
  have hlive : ∀ p, (s'.tasks p).state ≠ .dead → (m.sched.tasks p).state ≠ .dead :=
    fun p hp => (calm_live hc hends hp).1
  have hblock : ∀ p, (s'.tasks p).state = .blocked → m.pc p ≠ .free →
      (m.sched.tasks p).state = .blocked := by
    intro p hb hpc
    rcases hc.blocked p hb with hb | ⟨rfl, hbl⟩
    · exact hb
    · exact absurd (hfree hbl) hpc
  have hclaims : ∀ p child, Claims { m with sched := s' } p child → Claims m p child := by
    rintro p child (h | h | ⟨h, hb⟩)
    · exact .inl h
    · exact .inr (.inl h)
    · have hpc : m.pc p = .attending child := h
      exact .inr (.inr ⟨hpc, hblock p hb (by rw [hpc]; nofun)⟩)
  refine ⟨ht, hc.ended 0 h0 h.idle, fun p q hp hq hpq pid => ?_,
    fun p q child hp hq hpq h₁ h₂ => ?_,
    fun p hp => ?_⟩
  · dsimp only
    rw [hc.children, hc.children]
    exact h.disjoint p q (hlive p hp) (hlive q hq) hpq pid
  · exact h.own p q child (hlive p hp) (hlive q hq) hpq (hclaims p child h₁) (hclaims q child h₂)
  · exact (h.at_pc p (hlive p hp)).calm hc h.table (h.lt (hlive p hp)) (fun hb => hblock p hb) hends
      fun i hi => hspare i hi p (h.lt (hlive p hp)) (hlive p hp)

/-! ## arrivals -/

/-- A new task comes into a DEAD slot. -/
theorem Arrival.slot_dead {slot : Nat} (h : Watched m) (ha : Arrival m.sched slot s') :
    (m.sched.tasks slot).state = .dead := ha.vacant.dead h.table

/-- An arrival is not in a list that existed before. -/
theorem arrival_unlisted {slot : Nat} (h : Watched m) (ha : Arrival m.sched slot s')
    (hp : (m.sched.tasks p).state ≠ .dead) (hl : (s'.tasks slot).state ≠ .dead) :
    (s'.tasks slot).pid ∉ (m.sched.tasks p).children := by
  rcases ha.pid with hu | ⟨_, _, hd⟩
  · exact hu p (h.lt hp) hp
  · exact absurd hd hl

/-- The other slots were in the table before. -/
theorem arrival_lt {slot j : Nat} (ha : Arrival s slot s') (hne : j ≠ slot)
    (hj : j < s'.taskCount) :
    j < s.taskCount := by
  rw [ha.taskCount] at hj
  rcases ha.vacant.free with ⟨h, _⟩ | ⟨h, _⟩ <;> omega

/-- The table does not shrink. -/
theorem lt_arrival {slot j : Nat} (ha : Arrival s slot s') (hj : j < s.taskCount) :
    j < s'.taskCount := by
  rw [ha.taskCount]
  omega

/-- A new task does not disturb a launch. -/
theorem Launched.arrive {slot child : Nat} (h : Launched m.sched child) (hw : Watched m)
    (ha : Arrival m.sched slot s') : Launched s' child := by
  have hne : child ≠ slot := by
    rintro rfl
    exact h.alive (Arrival.slot_dead hw ha)
  refine ⟨lt_arrival ha
    h.lt, by rw [(ha.other child hne).1]; exact h.alive, h.ne, fun q hq hl => ?_⟩
  rw [(ha.other child hne).2.1]
  by_cases hqs : q = slot
  · subst hqs
    rw [ha.children hl]
    exact List.not_mem_nil
  · rw [(ha.other q hqs).1] at hl
    have hold := h.unlisted q (hw.lt hl) hl
    rcases ha.lists q hqs with hl' | ⟨_, hl', _, hun⟩
    · rw [hl']
      exact hold
    · rw [hl', List.mem_append, List.mem_singleton]
      rintro (hm | hm)
      · exact hold hm
      · exact hun child h.lt hne h.ne hm

/-- A new task does not disturb the hope for a child. -/
theorem Hopeful.arrive {slot : Nat} (h : Hopeful m.sched p) (hw : Watched m)
    (ha : Arrival m.sched slot s') (hp : (m.sched.tasks p).state ≠ .dead)
    (hch : (s'.tasks p).children = (m.sched.tasks p).children) : Hopeful s' p := by
  have hslot := Arrival.slot_dead hw ha
  rcases h with h | ⟨t, ht, hl, hm⟩
  · left
    intro t ht hm
    rw [hch] at hm
    by_cases hts : t = slot
    · subst hts
      rcases ha.pid with hu | ⟨hlt, hpid, _⟩
      · exact absurd hm (hu p (hw.lt hp) hp)
      · rw [hpid] at hm
        exact absurd hslot (h t hlt hm)
    · rw [(ha.other t hts).1]
      rw [(ha.other t hts).2.1] at hm
      exact h t (arrival_lt ha hts ht) hm
  · have hts : t ≠ slot := by
      rintro rfl
      exact hl hslot
    refine .inr ⟨t, lt_arrival ha ht, by rw [(ha.other t hts).1]; exact hl, ?_⟩
    rw [(ha.other t hts).2.1, hch]
    exact hm

/-- A new task does not disturb a registration. -/
theorem Registered.arrive {slot : Nat} {rest : List Nat} (h : Registered m.sched p rest)
    (hw : Watched m)
    (ha : Arrival m.sched slot s') (hp : (m.sched.tasks p).state ≠ .dead)
    (hch : (s'.tasks p).children = (m.sched.tasks p).children) : Registered s' p rest := by
  intro t ht hl hm hr
  rw [hch] at hm
  by_cases hts : t = slot
  · subst hts
    exact absurd hm (arrival_unlisted hw ha hp hl)
  · obtain ⟨h1, h2, h3⟩ := ha.other t hts
    rw [h1] at hl
    rw [h2] at hm hr
    rw [h3]
    exact h t (arrival_lt ha hts ht) hl hm hr

/-- A new task does not disturb a call. -/
theorem At.arrive {slot : Nat} (h : At m.sched p pc) (hw : Watched m) (ha : Arrival m.sched slot s')
    (hp : (m.sched.tasks p).state ≠ .dead)
    (hch : pc ≠ .free → (s'.tasks p).children = (m.sched.tasks p).children) : At s' p pc := by
  have hslot := Arrival.slot_dead hw ha
  have hps : p ≠ slot := by
    rintro rfl
    exact hp hslot
  have hun : ∀ child, Launched m.sched child →
      (s'.tasks child).unblockOnExit = (m.sched.tasks child).unblockOnExit := by
    intro child hl
    refine (ha.other child ?_).2.2
    rintro rfl
    exact hl.alive hslot
  cases pc with
  | free => trivial
  | registering rest =>
      obtain ⟨hsub, hhope, hreg⟩ := h
      refine ⟨?_, hhope.arrive hw ha hp (hch nofun), hreg.arrive hw ha hp (hch nofun)⟩
      rw [hch nofun]
      exact hsub
  | waiting =>
      intro hb
      rw [(ha.other p hps).1] at hb
      obtain ⟨hhope, hreg⟩ := h hb
      exact ⟨hhope.arrive hw ha hp (hch nofun), hreg.arrive hw ha hp (hch nofun)⟩
  | launched child => exact h.arrive hw ha
  | announced child => exact ⟨h.1.arrive hw ha, (hun child h.1).trans h.2⟩
  | attending child =>
      intro hb
      rw [(ha.other p hps).1] at hb
      obtain ⟨hl, hu⟩ := h hb
      exact ⟨hl.arrive hw ha, (hun child hl).trans hu⟩

/-- **A new task** keeps what every call relies on. -/
theorem Watched.arrive {slot : Nat} (h : Watched m) (ha : Arrival m.sched slot s') (ht : Table s')
    (hfree : m.pc m.sched.currentIdx = .free) :
    Watched { sched := s', pc := set m.pc slot .free } := by
  have hslot := Arrival.slot_dead h ha
  have hlive : ∀ p, p ≠ slot → (s'.tasks p).state ≠ .dead → (m.sched.tasks p).state ≠ .dead := by
    intro p hp
    rw [(ha.other p hp).1]
    exact id
  have hclaims : ∀ p child, Claims { sched := s', pc := set m.pc slot .free } p child →
      p ≠ slot ∧ Claims m p child := by
    intro p child hc
    have hp : p ≠ slot := by
      rintro rfl
      unfold Claims at hc
      dsimp only at hc
      rw [set_self] at hc
      rcases hc with h | h | ⟨h, _⟩ <;> contradiction
    unfold Claims at hc ⊢
    dsimp only at hc
    rw [set_of_ne _ _ hp, (ha.other p hp).1] at hc
    exact ⟨hp, hc⟩
  refine ⟨ht, ?_, fun p q hp hq hpq pid hpid => ?_, fun p q child hp hq hpq h₁ h₂ => ?_,
    fun p hp => ?_⟩
  · have h0 : (0 : Nat) ≠ slot := by
      rintro rfl
      exact h.idle hslot
    dsimp only
    rw [(ha.other 0 h0).1]
    exact h.idle
  · dsimp only at hp hq hpid ⊢
    have hps : p ≠ slot := by
      rintro rfl
      rw [ha.children hp] at hpid
      exact absurd hpid List.not_mem_nil
    by_cases hqs : q = slot
    · subst hqs
      rw [ha.children hq]
      exact List.not_mem_nil
    have hp' := hlive p hps hp
    have hq' := hlive q hqs hq
    have hdis := h.disjoint p q hp' hq' hpq
    rcases ha.lists p hps with hlp | ⟨hpc, hlp, hu, _⟩
    · rw [hlp] at hpid
      rcases ha.lists q hqs with hlq | ⟨_, hlq, hu, _⟩
      · rw [hlq]
        exact hdis pid hpid
      · rw [hlq, List.mem_append, List.mem_singleton]
        rintro (hm | rfl)
        · exact hdis pid hpid hm
        · exact hu p (h.lt hp') hp' hpid
    · have hlq : (s'.tasks q).children = (m.sched.tasks q).children := by
        rcases ha.lists q hqs with hlq | ⟨hqc, _⟩
        · exact hlq
        · exact absurd (hpc.trans hqc.symm) hpq
      rw [hlp, List.mem_append, List.mem_singleton] at hpid
      rw [hlq]
      rcases hpid with hm | rfl
      · exact hdis pid hm
      · exact hu q (h.lt hq') hq'
  · obtain ⟨hps, h₁⟩ := hclaims p child h₁
    obtain ⟨hqs, h₂⟩ := hclaims q child h₂
    exact h.own p q child (hlive p hps hp) (hlive q hqs hq) hpq h₁ h₂
  · dsimp only at hp ⊢
    by_cases hps : p = slot
    · rw [hps, set_self]
      trivial
    · rw [set_of_ne _ _ hps]
      refine (h.at_pc p (hlive p hps hp)).arrive h ha (hlive p hps hp) fun hpc => ?_
      rcases ha.lists p hps with hl | ⟨rfl, _⟩
      · exact hl
      · exact absurd hfree hpc

/-! ## the parts of the calls -/

/-- The step of a task on its own lists, its state and registrations. -/
structure Mild (s s' : Sched) : Prop where
  taskCount : s'.taskCount = s.taskCount
  pid : ∀ t, (s'.tasks t).pid = (s.tasks t).pid
  dead : ∀ t, (s'.tasks t).state = .dead ↔ (s.tasks t).state = .dead
  state : ∀ t, t ≠ s.currentIdx → (s'.tasks t).state = (s.tasks t).state
  children : ∀ t, t ≠ s.currentIdx → (s'.tasks t).children = (s.tasks t).children
  shrink : ∀ pid ∈ (s'.tasks s.currentIdx).children, pid ∈ s.cur.children

theorem Mild.refl (s : Sched) : Mild s s :=
  ⟨rfl, fun _ => rfl, fun _ => Iff.rfl, fun _ _ => rfl, fun _ _ => rfl, fun _ h => h⟩

/-- A mild step adds no child. -/
theorem Mild.subset (h : Mild s s') (t : Nat) :
    ∀ pid ∈ (s'.tasks t).children, pid ∈ (s.tasks t).children := by
  by_cases ht : t = s.currentIdx
  · subst ht
    exact h.shrink
  · rw [h.children t ht]
    exact fun _ h => h

/-- A mild step keeps a launch. -/
theorem Launched.mild {child : Nat} (h : Launched s child) (hm : Mild s s') :
    Launched s' child where
  lt := hm.taskCount ▸ h.lt
  alive := fun hd => h.alive ((hm.dead child).mp hd)
  ne := h.ne
  unlisted := by
    intro p hp hl hmem
    rw [hm.pid] at hmem
    rw [hm.taskCount] at hp
    exact h.unlisted p hp (fun hd => hl ((hm.dead p).mpr hd)) (hm.subset p _ hmem)

/-- A mild step keeps the hope for a child. -/
theorem Hopeful.mild (h : Hopeful s p) (hm : Mild s s')
    (hch : (s'.tasks p).children = (s.tasks p).children) : Hopeful s' p := by
  rcases h with h | ⟨t, ht, hl, hmem⟩
  · left
    intro t ht hmem hd
    rw [hm.taskCount] at ht
    rw [hm.pid, hch] at hmem
    exact h t ht hmem ((hm.dead t).mp hd)
  · refine .inr ⟨t, hm.taskCount ▸ ht, fun hd => hl ((hm.dead t).mp hd), ?_⟩
    rw [hm.pid, hch]
    exact hmem

/-- The registrations that matter to `p` at `pc`. -/
def Untouched (s s' : Sched) (p : Nat) (pc : Pc) : Prop :=
  (∀ t < s.taskCount, (s.tasks t).state ≠ .dead → (s.tasks t).pid ∈ (s.tasks p).children →
    (s'.tasks t).unblockOnExit = (s.tasks t).unblockOnExit) ∧
  ∀ child, pc = .announced child ∨ pc = .attending child ∧ (s.tasks p).state = .blocked →
    (s'.tasks child).unblockOnExit = (s.tasks child).unblockOnExit

/-- A mild step keeps the registrations it does not write. -/
theorem Registered.mild {rest : List Nat} (h : Registered s p rest) (hm : Mild s s')
    (hch : (s'.tasks p).children = (s.tasks p).children)
    (hun : ∀ t < s.taskCount, (s.tasks t).state ≠ .dead → (s.tasks t).pid ∈ (s.tasks p).children →
      (s'.tasks t).unblockOnExit = (s.tasks t).unblockOnExit) : Registered s' p rest := by
  intro t ht hl hmem hr
  rw [hm.taskCount] at ht
  rw [hm.pid, hch] at hmem
  rw [hm.pid] at hr
  have hl' : (s.tasks t).state ≠ .dead := fun hd => hl ((hm.dead t).mpr hd)
  rw [hun t ht hl' hmem]
  exact h t ht hl' hmem hr

/-- What such a step means for all other tasks. -/
theorem At.mild (h : At s p pc) (hm : Mild s s') (hp : p ≠ s.currentIdx)
    (hun : Untouched s s' p pc) : At s' p pc := by
  have hch := hm.children p hp
  have hst := hm.state p hp
  cases pc with
  | free => trivial
  | registering rest =>
      obtain ⟨hsub, hhope, hreg⟩ := h
      exact ⟨by rw [hch]; exact hsub, hhope.mild hm hch, hreg.mild hm hch hun.1⟩
  | waiting =>
      intro hb
      rw [hst] at hb
      exact ⟨(h hb).1.mild hm hch, (h hb).2.mild hm hch hun.1⟩
  | launched child => exact Launched.mild h hm
  | announced child => exact ⟨h.1.mild hm, (hun.2 child (.inl rfl)).trans h.2⟩
  | attending child =>
      intro hb
      rw [hst] at hb
      exact ⟨(h hb).1.mild hm, (hun.2 child (.inr ⟨rfl, hb⟩)).trans (h hb).2⟩

/-- No other live task relies on the child. -/
def Unclaimed (m : WakeSys) (child : Nat) : Prop :=
  ∀ q, (m.sched.tasks q).state ≠ .dead → q ≠ m.sched.currentIdx → ¬ Claims m q child

/-- **Parts**: a step of the current task inside one of the calls keeps the
invariant if it does for the task itself and claims nobody else's child. -/
theorem Watched.part (h : Watched m) (hm : Mild m.sched s') (ht : Table s') {pc : Pc}
    (hun : ∀ p, (m.sched.tasks p).state ≠ .dead → p ≠ m.sched.currentIdx →
      Untouched m.sched s' p (m.pc p))
    (hcur : At s' m.sched.currentIdx pc)
    (hclaim : ∀ child, (pc = .launched child ∨ pc = .announced child ∨ pc = .attending child) →
      Unclaimed m child) :
    Watched { sched := s', pc := set m.pc m.sched.currentIdx pc } := by
  have hlive : ∀ p, (s'.tasks p).state ≠ .dead → (m.sched.tasks p).state ≠ .dead :=
    fun p hp hd => hp ((hm.dead p).mpr hd)
  have hother : ∀ p child, p ≠ m.sched.currentIdx →
      Claims { sched := s', pc := set m.pc m.sched.currentIdx pc } p child → Claims m p child := by
    intro p child hp hc
    unfold Claims at hc
    dsimp only at hc
    rw [set_of_ne _ _ hp, hm.state p hp] at hc
    exact hc
  have hcur' : ∀ child, Claims { sched := s', pc := set m.pc m.sched.currentIdx pc }
    m.sched.currentIdx child →
      Unclaimed m child := by
    intro child hc
    unfold Claims at hc
    dsimp only at hc
    rw [set_self] at hc
    refine hclaim child ?_
    rcases hc with h | h | ⟨h, _⟩
    · exact .inl h
    · exact .inr (.inl h)
    · exact .inr (.inr h)
  refine ⟨ht, fun hd => h.idle ((hm.dead 0).mp hd), fun p q hp hq hpq pid hpid hq' => ?_,
    fun p q child hp hq hpq h₁ h₂ => ?_, fun p hp => ?_⟩
  · exact h.disjoint p q (hlive p hp) (hlive q hq) hpq pid (hm.subset p pid hpid)
      (hm.subset q pid hq')
  · by_cases hpc : p = m.sched.currentIdx
    · subst hpc
      exact hcur' child h₁ q (hlive q hq) hpq.symm (hother q child hpq.symm h₂)
    · by_cases hqc : q = m.sched.currentIdx
      · subst hqc
        exact hcur' child h₂ p (hlive p hp) hpq (hother p child hpq h₁)
      · exact h.own p q child (hlive p hp) (hlive q hq) hpq (hother p child hpc h₁)
          (hother q child hqc h₂)
  · dsimp only at hp ⊢
    by_cases hpc : p = m.sched.currentIdx
    · rw [hpc, set_self]
      exact hcur
    · rw [set_of_ne _ _ hpc]
      exact (h.at_pc p (hlive p hp)).mild hm hpc (hun p (hlive p hp) hpc)

/-- Reaping child `i` touches the list of the current task only. -/
theorem reap_mild {i pid : Nat} (hi : s.cur.children[i]? = some pid) :
    Mild s (s.modify s.currentIdx fun t => { t with children := removeChild t.children i }) where
  taskCount := rfl
  pid := by
    intro t
    rw [modify_tasks]
    split <;> rfl
  dead := by
    intro t
    rw [modify_tasks]
    split <;> rfl
  state := fun t ht => by rw [modify_tasks, if_neg ht]
  children := fun t ht => by rw [modify_tasks, if_neg ht]
  shrink := by
    intro x hx
    rw [modify_tasks, if_pos rfl] at hx
    exact (removeChild_cons hi).subset (List.mem_cons_of_mem _ hx)

/-- Reaping a child of the current task. -/
theorem Watched.reaped {i pid : Nat} (h : Watched m) (hi : m.sched.cur.children[i]? = some pid) :
    Watched { sched := m.sched.modify m.sched.currentIdx fun t =>
        { t with children := removeChild t.children i }
              pc := set m.pc m.sched.currentIdx .free } := by
  refine h.part (reap_mild hi) (h.table.modify _ fun _ => ⟨rfl, rfl⟩) (fun p _ _ => ?_) trivial ?_
  · have hun : ∀ t, ((m.sched.modify m.sched.currentIdx fun t =>
        { t with children := removeChild t.children i }).tasks t).unblockOnExit =
          (m.sched.tasks t).unblockOnExit := by
      intro t
      rw [modify_tasks]
      split <;> rfl
    exact ⟨fun t _ _ _ => hun t, fun child _ => hun child⟩
  · rintro child (h | h | h) <;> contradiction

/-- The first half of `waitpid`. -/
theorem waitpid_watched {status : Nat} (h : Watched m) (hfree : m.pc m.sched.currentIdx = .free)
    (hs : m.step (.waitpid status) = .ok m') : Watched m' := by
  unfold step at hs
  dsimp only at hs
  split at hs
  · simp only [Except.ok.injEq] at hs
    rw [← hs]
    exact h
  rcases reapDeadChild_ok m.sched m.sched.currentIdx with ⟨hnone, hr⟩ | ⟨i, pid, t, hi, _, hr⟩
  · rw [hr] at hs
    dsimp only at hs
    split at hs
    · simp only [Except.ok.injEq] at hs
      rw [← hs]
      exact h
    · simp only [Except.ok.injEq] at hs
      rw [← hs]
      refine h.part (.refl _) h.table (fun p _ _ => ⟨fun _ _ _ _ => rfl, fun _ _ => rfl⟩) ?_ ?_
      · refine ⟨fun pid hpid => hpid, .inl fun t ht hm => ?_, fun t ht hl hm hno => absurd hm hno⟩
        exact findDead_none (hnone _ hm) ht rfl
      · rintro child (h | h | h) <;> contradiction
  · rw [hr] at hs
    simp only [Except.ok.injEq] at hs
    rw [← hs]
    have hreaped := h.reaped hi
    rw [set_eq_self hfree] at hreaped
    exact hreaped

/-- Where a registration goes. -/
theorem registerChild_tasks (s : Sched) (pid w j : Nat) :
    (s.registerChild pid w).tasks j = { s.tasks j with
      unblockOnExit := if j < s.taskCount ∧ (s.tasks j).pid = pid ∧ (s.tasks j).state ≠ .dead then
        int8 w else (s.tasks j).unblockOnExit } := by
  change (if _ then _ else _) = _
  split <;> rfl

/-- Slots are small enough for `int8_t`. -/
theorem int8_slot (h : p < maxTasks) : int8 (p : Int) = p := by
  have : maxTasks = 8 := rfl
  rw [int8, Int.bmod_def]
  omega

/-- The current slot is in the array. -/
theorem Watched.cur_lt (h : Watched m) : m.sched.currentIdx < maxTasks :=
  Nat.lt_of_lt_of_le h.table.cur_lt h.table.count_le

/-- One round of the loop over the children. -/
theorem register_watched (h : Watched m) (hs : m.step .register = .ok m') : Watched m' := by
  unfold step at hs
  dsimp only at hs
  split at hs
  · next pid rest hpc =>
      simp only [Except.ok.injEq] at hs
      rw [← hs]
      have hcur := h.table.cur_live
      have hat := h.at_pc _ hcur
      rw [hpc] at hat
      obtain ⟨hsub, hhope, hreg⟩ := hat
      have hmem : pid ∈ m.sched.cur.children := hsub pid List.mem_cons_self
      have htask := registerChild_tasks m.sched pid m.sched.currentIdx
      have hmild : Mild m.sched (m.sched.registerChild pid m.sched.currentIdx) := by
        refine ⟨rfl, fun t => by rw [htask], fun t => by rw [htask], fun t _ => by rw [htask],
          fun t _ => by rw [htask], fun x hx => ?_⟩
        rw [htask] at hx
        exact hx
      have heff : Effect m.sched .waitpidResume m.sched
          (m.sched.registerChild pid m.sched.currentIdx) :=
        registerChild_effect rfl pid m.sched.currentIdx
      refine h.part hmild (heff.table h.table)
        (fun p hp hpne => ⟨fun t ht hl hm => ?_, fun child hc => ?_⟩) ?_ ?_
      · rw [htask]
        refine if_neg fun hc => ?_
        rw [hc.2.1] at hm
        exact h.disjoint p _ hp hcur hpne pid hm hmem
      · rw [htask]
        refine if_neg fun hcond => ?_
        have hl : Launched m.sched child := by
          have hat' := h.at_pc p hp
          rcases hc with hc | ⟨hc, hb⟩
          · rw [hc] at hat'
            exact hat'.1
          · rw [hc] at hat'
            exact (hat' hb).1
        refine hl.unlisted _ h.table.cur_lt hcur ?_
        rw [hcond.2.1]
        exact hmem
      · refine ⟨fun x hx => ?_, hhope.mild hmild (by rw [htask]), fun t ht hl hm hr => ?_⟩
        · rw [htask]
          exact hsub x (List.mem_cons_of_mem _ hx)
        · rw [htask] at hl hm hr ⊢
          dsimp only at hl hm hr ⊢
          rw [htask] at hm
          by_cases hx : (m.sched.tasks t).pid = pid
          · rw [if_pos ⟨ht, hx, hl⟩]
            exact int8_slot h.cur_lt
          · rw [if_neg fun hc => hx hc.2.1]
            refine hreg t ht hl hm fun hmem' => ?_
            rcases List.mem_cons.mp hmem' with h1 | h1
            · exact hx h1
            · exact hr h1
      · rintro child (h | h | h) <;> contradiction
  · simp only [Except.ok.injEq] at hs
    rw [← hs]
    exact h

/-- A task that relies on a child of `SYS_EXECMOD` relies on a live one. -/
theorem Watched.claimed {child : Nat} (h : Watched m) (hp : (m.sched.tasks p).state ≠ .dead)
    (hc : Claims m p child) : Launched m.sched child := by
  have hat := h.at_pc p hp
  rcases hc with hc | hc | ⟨hc, hb⟩
  · rw [hc] at hat
    exact hat
  · rw [hc] at hat
    exact hat.1
  · rw [hc] at hat
    exact (hat hb).1

/-- The program counter of a free slot does not matter. -/
theorem Watched.born (h : Watched m) : Watched { m with pc := m.bornPc } := by
  have hpc : ∀ p, (m.sched.tasks p).state ≠ .dead → m.bornPc p = m.pc p := by
    intro p hp
    unfold bornPc
    rcases findSlot_cases m.sched with hnone | ⟨slot, hv⟩
    · rw [hnone]
    · rw [hv.fst]
      exact set_of_ne _ _ fun he => hp (he ▸ hv.dead h.table)
  have hclaims : ∀ p child, (m.sched.tasks p).state ≠ .dead →
    Claims { m with pc := m.bornPc } p child →
      Claims m p child := by
    intro p child hp hc
    unfold Claims at hc ⊢
    dsimp only at hc
    rw [hpc p hp] at hc
    exact hc
  refine ⟨h.table, h.idle, h.disjoint, fun p q child hp hq hpq h₁ h₂ => ?_, fun p hp => ?_⟩
  · exact h.own p q child hp hq hpq (hclaims p child hp h₁) (hclaims q child hq h₂)
  · dsimp only at hp ⊢
    rw [hpc p hp]
    exact h.at_pc p hp

/-- The creations keep the invariant. -/
theorem create_watched (h : Watched m) (hop : op.creates = true)
    (hfree : m.pc m.sched.currentIdx = .free)
    (hf : Fresh m.sched op) (hs : m.sched.step op = .ok s') :
    Watched { sched := s', pc := m.bornPc } := by
  rcases step_arrival hop h.table hf hs with rfl | ⟨slot, ha⟩
  · exact h.born
  · have hborn : m.bornPc = set m.pc slot .free := by
      unfold bornPc
      rw [ha.vacant.fst]
    rw [hborn]
    exact h.arrive ha (step_table h.table hs) hfree

/-- `SYS_EXECMOD` creates its task. -/
theorem execMod_watched {stack dir : Nat} {stackPhys : Option (Nat → Nat)} {elf : Option ElfResult}
    (h : Watched m) (hfree : m.pc m.sched.currentIdx = .free)
    (hf : Fresh m.sched (.addUserElfTask stack stackPhys dir elf))
    (hs : m.step (.execMod stack stackPhys dir elf) = .ok m') : Watched m' := by
  have hw :
      Watched { sched := (m.sched.addUserElfTask stack stackPhys dir elf).2, pc := m.bornPc } :=
    create_watched h rfl hfree hf rfl
  unfold step at hs
  dsimp only at hs
  rcases addUserElfTask_ok m.sched stack stackPhys dir elf with
    he | ⟨slot, hv, ⟨_, t, _, he⟩ | ⟨hyes, t, e, frames, hnew, _, he⟩⟩
  · rw [he] at hs hw
    simp only [Except.ok.injEq] at hs
    rw [← hs]
    exact hw
  · rw [he] at hs hw
    simp only [Except.ok.injEq] at hs
    rw [← hs]
    exact hw
  · rw [he] at hs hw
    simp only [Except.ok.injEq] at hs
    rw [← hs]
    dsimp only at hw
    have hdead := hv.dead h.table
    have hfresh := hf slot (hv.lt_max h.table) hv.fst
    rw [if_pos hyes] at hfresh
    have hlaunched : Launched
        (m.sched.built slot t m.sched.cur ((m.sched.nextPid + 1) % 256) e frames) slot := by
      refine ⟨?_, ?_, fun h0 => h.idle (h0 ▸ hdead), fun p hp hl => ?_⟩
      · change slot < max m.sched.taskCount (slot + 1)
        omega
      · rw [built_slot, hnew.state]
        decide
      · rw [built_slot, hnew.pid]
        by_cases hps : p = slot
        · rw [hps, built_slot, hnew.children]
          exact List.not_mem_nil
        · rw [built_of_ne hps] at hl ⊢
          exact hfresh p (h.lt hl) hl
    have hnobody : Unclaimed
        { sched := m.sched.built slot t m.sched.cur ((m.sched.nextPid + 1) % 256) e frames,
          pc := m.bornPc }
        slot := by
      intro q hq _ hc
      have hqs : q ≠ slot := by
        rintro rfl
        unfold Claims at hc
        dsimp only at hc
        rw [bornPc, hv.fst] at hc
        dsimp only at hc
        rw [set_self] at hc
        rcases hc with h | h | ⟨h, _⟩ <;> contradiction
      dsimp only at hq
      unfold Claims at hc
      dsimp only at hc
      rw [built_of_ne hqs] at hq hc
      rw [bornPc, hv.fst] at hc
      dsimp only at hc
      rw [set_of_ne _ _ hqs] at hc
      exact (h.claimed hq hc).alive hdead
    refine hw.part (.refl _) hw.table (fun p _ _ => ⟨fun _ _ _ _ => rfl, fun _ _ => rfl⟩)
      hlaunched ?_
    rintro child (hc | hc | hc)
    · rw [Pc.launched.injEq] at hc
      rw [← hc]
      exact hnobody
    · contradiction
    · contradiction

/-- `SYS_EXECMOD` names its waiter. -/
theorem announce_watched (h : Watched m) (hs : m.step .announce = .ok m') : Watched m' := by
  unfold step at hs
  dsimp only at hs
  split at hs
  · next child hpc =>
      simp only [Except.ok.injEq] at hs
      rw [← hs]
      have hcur := h.table.cur_live
      have hat : Launched m.sched child := by
        have := h.at_pc _ hcur
        rwa [hpc] at this
      have hset : m.sched.setUnblockOnExit child m.sched.currentIdx =
          m.sched.modify child fun t => { t with unblockOnExit := m.sched.currentIdx } := by
        unfold setUnblockOnExit
        rw [if_pos ⟨by omega, by exact_mod_cast hat.lt⟩, int8_slot h.cur_lt]
        rfl
      rw [hset]
      have hnobody : Unclaimed m child := fun q hq hne hc =>
        h.own q _ child hq hcur hne hc (.inl hpc)
      have hmild : Mild m.sched
          (m.sched.modify child fun t => { t with unblockOnExit := m.sched.currentIdx }) := by
        have htask : ∀ {α : Type} (f : Task → α) (t : Nat),
          (∀ t u, f { t with unblockOnExit := u } = f t) →
            f ((m.sched.modify child fun t => { t with unblockOnExit := m.sched.currentIdx }).tasks
              t) =
              f (m.sched.tasks t) := by
          intro α f t hf
          rw [modify_tasks]
          split
          · exact hf _ _
          · rfl
        have hstate := fun t => htask Task.state t fun _ _ => rfl
        have hchildren := fun t => htask Task.children t fun _ _ => rfl
        refine ⟨rfl, fun t => htask Task.pid t fun _ _ => rfl,
          fun t => by rw [hstate], fun t _ => hstate t,
          fun t _ => hchildren t, fun x hx => ?_⟩
        rw [hchildren] at hx
        exact hx
      refine h.part hmild (h.table.modify _ fun _ => ⟨rfl, rfl⟩)
        (fun p hp hpne => ⟨fun t ht hl hm => ?_, fun c hc => ?_⟩)
        ⟨hat.mild hmild, ?_⟩ ?_
      · rw [modify_tasks]
        refine congrArg Task.unblockOnExit (if_neg ?_)
        rintro rfl
        exact hat.unlisted p (h.lt hp) hp hm
      · rw [modify_tasks]
        refine congrArg Task.unblockOnExit (if_neg ?_)
        rintro rfl
        exact hnobody p hp hpne (.inr hc)
      · rw [modify_tasks, if_pos rfl]
      · rintro c (hc | hc | hc)
        · contradiction
        · rw [Pc.announced.injEq] at hc
          rw [← hc]
          exact hnobody
        · contradiction
  · simp only [Except.ok.injEq] at hs
    rw [← hs]
    exact h

/-- Blocking touches the state of the current task only. -/
theorem block_mild (ht : Table s) :
    Mild s (s.modify s.currentIdx fun t => { t with state := .blocked }) where
  taskCount := rfl
  pid := by
    intro t
    rw [modify_tasks]
    split <;> rfl
  dead := by
    intro t
    rw [modify_tasks]
    split
    · next htc =>
        rw [htc]
        exact ⟨nofun, fun hd => absurd hd ht.cur_live⟩
    · rfl
  state := fun t ht => by rw [modify_tasks, if_neg ht]
  children := fun t ht => by rw [modify_tasks, if_neg ht]
  shrink := by
    intro x hx
    rw [modify_tasks, if_pos rfl] at hx
    exact hx

/-- A call blocks when it is at a point where it may. -/
theorem Watched.block (h : Watched m) {pc : Pc} (hs : m.sched.blockCurrentTaskAndYield = .ok s')
    (hcur : At s' m.sched.currentIdx pc)
    (hclaim : ∀ child, (pc = .launched child ∨ pc = .announced child ∨ pc = .attending child) →
      Unclaimed m child) : Watched ({ m with sched := s' : WakeSys }.goto pc) := by
  obtain ⟨_, rfl⟩ := blockOr_ok hs
  have heff : Effect m.sched .blockCurrentTask m.sched
      (m.sched.modify m.sched.currentIdx fun t => { t with state := .blocked }) :=
        .block rfl (.inl rfl)
  refine h.part (block_mild h.table) (heff.table h.table)
    (fun p _ _ => ⟨fun t _ _ _ => ?_, fun c _ => ?_⟩)
    hcur hclaim
  · rw [modify_tasks]
    split <;> rfl
  · rw [modify_tasks]
    split <;> rfl

/-- The step that blocks. -/
theorem block_watched (h : Watched m) (hs : m.step .block = .ok m') : Watched m' := by
  have hcur := h.table.cur_live
  have hat := h.at_pc _ hcur
  have hwaker :
    ∀ t,
    ((m.sched.modify m.sched.currentIdx fun t => { t with state := .blocked }).tasks
    t).unblockOnExit =
      (m.sched.tasks t).unblockOnExit := by
    intro t
    rw [modify_tasks]
    split <;> rfl
  have hchildren : ((m.sched.modify m.sched.currentIdx fun t => { t with state := .blocked }).tasks
      m.sched.currentIdx).children = m.sched.cur.children := by
    rw [modify_tasks, if_pos rfl]
    rfl
  unfold step at hs
  dsimp only at hs
  split at hs
  · next hpc =>
      rw [bind_eq_ok] at hs
      obtain ⟨s', hb, hs⟩ := hs
      simp only [Except.ok.injEq] at hs
      rw [← hs]
      rw [hpc] at hat
      refine h.block hb ?_ ?_
      · obtain ⟨_, rfl⟩ := blockOr_ok hb
        intro _
        have hmild := block_mild h.table
        exact ⟨hat.2.1.mild hmild hchildren, hat.2.2.mild hmild hchildren fun t _ _ _ => hwaker t⟩
      · rintro child (h | h | h) <;> contradiction
  · next child hpc =>
      rw [bind_eq_ok] at hs
      obtain ⟨s', hb, hs⟩ := hs
      simp only [Except.ok.injEq] at hs
      rw [← hs]
      rw [hpc] at hat
      refine h.block hb ?_ ?_
      · obtain ⟨_, rfl⟩ := blockOr_ok hb
        intro _
        exact ⟨hat.1.mild (block_mild h.table), (hwaker child).trans hat.2⟩
      · rintro c (hc | hc | hc)
        · contradiction
        · contradiction
        · rw [Pc.attending.injEq] at hc
          rw [← hc]
          exact fun q hq hne hclaim => h.own q _ child hq hcur hne hclaim (.inr (.inl hpc))
  · simp only [Except.ok.injEq] at hs
    rw [← hs]
    exact h

/-- A task may leave a call. -/
theorem Watched.leave (h : Watched m) : Watched (m.goto .free) := by
  refine h.part (.refl _) h.table (fun p _ _ => ⟨fun _ _ _ _ => rfl, fun _ _ => rfl⟩) trivial ?_
  rintro child (h | h | h) <;> contradiction

/-- The step that goes on after the wait. -/
theorem resume_watched (h : Watched m) (hs : m.step .resume = .ok m') : Watched m' := by
  unfold step at hs
  dsimp only at hs
  split at hs
  · split at hs
    · simp only [Except.ok.injEq] at hs
      rw [← hs]
      exact h
    · simp only [Except.ok.injEq] at hs
      rw [← hs]
      rcases waitpidResume_ok m.sched with ⟨_, hr⟩ | ⟨i, pid, t, hi, _, hr⟩
      · rw [hr]
        exact h.leave
      · rw [hr]
        exact h.reaped hi
  · split at hs
    · simp only [Except.ok.injEq] at hs
      rw [← hs]
      exact h
    · simp only [Except.ok.injEq] at hs
      rw [← hs]
      exact h.leave
  · simp only [Except.ok.injEq] at hs
    rw [← hs]
    exact h

/-! ## no lost wakeup -/

/-- A whole operation of a task that is in no call. -/
theorem sys_watched (h : Watched m) (hl : Legal m (.sys op)) (hu : Undisturbed m (.sys op))
    (hs : m.step (.sys op) = .ok m') : Watched m' := by
  simp only [step, bind_eq_ok, Except.ok.injEq] at hs
  obtain ⟨s', hs, rfl⟩ := hs
  obtain ⟨h0, hop⟩ := hl
  obtain ⟨hf, hspare⟩ := hu
  by_cases hc : op.creates = true
  · rw [if_pos hc]
    have hfree : m.pc m.sched.currentIdx = .free := by
      cases op <;> first | exact hop | contradiction
    exact create_watched h hc hfree hf hs
  · rw [if_neg hc]
    have hby : op.bystands = true := by
      cases op <;> first | rfl | contradiction
    have hfree : op.blocks = true → m.pc m.sched.currentIdx = .free := by
      intro hb
      cases op <;> first | exact hop | contradiction
    refine h.calm (step_calm hby h.table hs) (step_table h.table hs) h0 hfree
      (fun i hi => step_ends h.table hi hs) fun i hi => ?_
    rw [hi] at hspare
    exact hspare

/-- **One step** keeps what every call relies on. -/
theorem step_watched {op : WakeOp} (h : Watched m) (ha : Allowed m op) (hs : m.step op = .ok m') :
    Watched m' := by
  obtain ⟨hl, hu⟩ := ha
  cases op with
  | sys op => exact sys_watched h hl hu hs
  | waitpid status => exact waitpid_watched h hl hs
  | register => exact register_watched h hs
  | execMod stack stackPhys dir elf => exact execMod_watched h hl hu hs
  | announce => exact announce_watched h hs
  | block => exact block_watched h hs
  | resume => exact resume_watched h hs

/-- **No lost wakeup**: in a run in which no child dies between its parent's
last check and the parent's `BLOCKED`, nobody is stranded. -/
theorem no_lost_wakeup {tr : List WakeOp} (h : Reach step Allowed (start s₀) tr m) (p : Nat) :
    ¬ Stranded m p := by
  have hw : Watched m := h.inv (start_watched s₀) fun _ _ _ hw ha hs => step_watched hw ha hs
  intro hstr
  have hlive : (m.sched.tasks p).state ≠ .dead := by
    rw [hstr.blocked]
    decide
  have hat := hw.at_pc p hlive
  have hended := hstr.ended
  cases hpc : m.pc p with
  | waiting =>
      rw [hpc] at hat hended
      obtain ⟨hhope, hreg⟩ := hat hstr.blocked
      obtain ⟨pid, hmem, hdead⟩ := hended
      obtain ⟨t, ht⟩ := Option.ne_none_iff_exists'.mp hdead
      obtain ⟨htlt, htpid, htdead⟩ := findDead_some ht
      rcases hhope with hnone | ⟨j, hj, hjl, hjm⟩
      · exact hnone t htlt (htpid ▸ hmem) htdead
      · -- the live child that is left will wake `p`
        exact hstr.noWaker j hj hjl (.inl (hreg j hj hjl hjm List.not_mem_nil))
  | attending child =>
      rw [hpc] at hat hended
      exact (hat hstr.blocked).1.alive hended
  | free | registering _ | launched _ | announced _ =>
      rw [hpc] at hended
      exact hended

/-- The task in slot 1 forks a child and finds nothing to reap. -/
def checkRun : List WakeOp :=
  [.sys (.addUserElfTask 0x8000 (some fun _ => 0) 0x1000 (some {})), .sys (.tick 0 {} true),
    .sys .pitTick,
    .sys (.tick 0 {} true), .sys (.fork 0xA000 0x2000), .waitpid 0]

/-- A parent that sleeps before its child exits is woken. -/
theorem no_lost_wakeup_sleepFirst :
    ∃ m : WakeSys, Reach step Allowed (start { syscallFrameEsp := 0x9000 }) (checkRun ++
        [.register, .block, .sys .pitTick, .sys (.tick 0 {} true), .sys (.exitCurrentTask 0)]) m ∧
      m.pc 1 = .waiting ∧ ChildDead m.sched 1 (m.pc 1) ∧ ¬ Stranded m 1 := by
  obtain ⟨m, hr, hp⟩ := Reach.of_runsTo step Allowed (start { syscallFrameEsp := 0x9000 })
    (checkRun ++ [.register, .block, .sys .pitTick, .sys (.tick 0 {} true),
        .sys (.exitCurrentTask 0)])
    (fun m => m.pc 1 = .waiting ∧ ChildDead m.sched 1 (m.pc 1)) (by decide)
  obtain ⟨hpc, hd⟩ := of_decide_eq_true hp
  exact ⟨m, hr, hpc, hd, no_lost_wakeup hr 1⟩

/-- **Lost wakeup**: a tick after the check lets the child run and exit; its
parent registers with nobody and blocks for good. -/
theorem lost_wakeup :
    ∃ m : WakeSys, Reach step Legal (start { syscallFrameEsp := 0x9000 }) (checkRun ++
        [.sys .pitTick, .sys (.tick 0 {} true), .sys (.exitCurrentTask 0), .register, .block]) m ∧
      Stranded m 1 := by
  obtain ⟨m, hr, hp⟩ := Reach.of_runsTo step Legal (start { syscallFrameEsp := 0x9000 })
    (checkRun ++ [.sys .pitTick, .sys (.tick 0 {} true), .sys (.exitCurrentTask 0),
        .register, .block])
    (fun m => Stranded m 1) (by decide)
  exact ⟨m, hr, of_decide_eq_true hp⟩

end WakeSys

end Doors
