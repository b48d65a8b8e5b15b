import Mathlib.Data.List.Nodup
import Doors.Scheduler.Reap

/-!
# Doors.Waitpid

Parents, children and `waitpid`, every call atomic.

`WaitSys` runs the scheduler next to a ledger that says what `waitpid` is for:
a successful `fork` enters the child under its parent, the death of the child
adds its exit code, an answer of `waitpid` strikes the child out.

The scheduler keeps the exit code in the dead child's slot and finds it by an
8-bit pid.  It follows the ledger as long as `Clean` holds: no creation takes
the slot of a DEAD child that is still listed, gives out a pid that is still
listed, or (for `fork`) a pid that another slot still holds.

* `Accounts` — the ledger agrees with the lists of children and the slots;
* `waited_exactly_once` — every answer is owed, nothing owed is lost, and a
  parent with a dead child is never left waiting;
* `waitpid_forgets` — a run in which the exit of a child is never returned.
-/

namespace Doors

open Cells Run Scheduler

/-- A child that its parent has not been told about; `code` is set when it
dies. -/
structure Child where
  pid : Nat
  slot : Nat
  code : Option Int := none
  deriving Repr, DecidableEq

/-- What a call of `waitpid`, or its second half, answers. -/
def Sched.answer (s : Sched) : Op → Option Sched.WaitResult
  | .waitpid status =>
      match s.waitpid status with
      | .ok (r, _) => some r
      | .error _ => none
  | .waitpidResume => some s.waitpidResume.1
  | _ => none

/-- The scheduler and what every parent is owed. -/
structure WaitSys where
  sched : Sched
  /-- Children forked by the task in a slot and not yet returned to it. -/
  ledger : Nat → List Child := fun _ => []
  /-- Pids that `fork` returned to the task. -/
  forks : Nat → List Nat := fun _ => []
  /-- Pids and exit codes that `waitpid` returned to the task. -/
  answers : Nat → List (Nat × Int) := fun _ => []
  /-- The task is inside `waitpid`. -/
  waiting : Nat → Bool := fun _ => false

namespace WaitSys

open Sched

/-! ## the ledger -/

/-- `Scheduler::init`. -/
def start (s : Sched) : WaitSys := { sched := s.init }

/-- The slot that `findSlot` hands out gets a clean record. -/
def born (m : WaitSys) : WaitSys :=
  match m.sched.findSlot.1 with
  | some slot =>
      { m with
        ledger := set m.ledger slot [], forks := set m.forks slot []
        answers := set m.answers slot [], waiting := set m.waiting slot false }
  | none => m

/-- The child `pid` in `slot` is entered under the current task. -/
def enter (m : WaitSys) (pid slot : Nat) : WaitSys :=
  let p := m.sched.currentIdx
  { m with
    ledger := set m.ledger p (m.ledger p ++ [{ pid, slot }]),
    forks := set m.forks p (m.forks p ++ [pid]) }

/-- `waitpid` answers the current task. -/
def answered (m : WaitSys) : WaitResult → WaitSys
  | .reaped pid code =>
      let p := m.sched.currentIdx
      { m with
        ledger := set m.ledger p ((m.ledger p).eraseP fun c => c.pid = pid)
        answers := set m.answers p (m.answers p ++ [(pid, code)])
        waiting := set m.waiting p false }
  | .blocked => { m with waiting := set m.waiting m.sched.currentIdx true }
  | .failed => { m with waiting := set m.waiting m.sched.currentIdx false }

/-- An answer, if there is one. -/
def told (m : WaitSys) : Option WaitResult → WaitSys
  | some r => m.answered r
  | none => m

/-- What an operation adds to the records. -/
def note (m : WaitSys) : Op → WaitSys
  | .addTask _ _ _ _ _ | .addUserElfTask _ _ _ _ => m.born
  | .fork stack dir =>
      match (m.sched.fork stack dir).1, m.sched.findSlot.1 with
      | some pid, some slot => m.born.enter pid slot
      | _, _ => m.born
  | op => m.told (m.sched.answer op)

/-- A child whose slot is DEAD has ended. -/
def settle (s : Sched) (c : Child) : Child :=
  if c.code = none ∧ (s.tasks c.slot).state = .dead
    then { c with code := some (s.tasks c.slot).exitCode }
  else c

/-- The scheduler takes a step and the records follow. -/
def step (m : WaitSys) (op : Op) : Except Fault WaitSys := do
  let sched ← m.sched.step op
  .ok { m.note op with sched, ledger := fun p => ((m.note op).ledger p).map (settle sched) }

/-! ## runs -/

/-- Programs: the scheduler is initialised once, the idle task does not end, a
task inside `waitpid` does nothing but wait, and only such a task resumes. -/
def Legal (m : WaitSys) (op : Op) : Prop :=
  m.sched.ends op ≠ some 0 ∧
  match op with
  | .init | .setUnblockOnExit _ _ => False
  | .waitpidResume => m.waiting m.sched.currentIdx = true ∧ m.sched.cur.state ≠ .blocked
  | .pitTick | .tick _ _ _ | .unblockTask _ | .sendSignal _ _ | .killTask _ => True
  | _ => m.waiting m.sched.currentIdx = false

/-- `slot`, if it is in the table already, is not that of a listed child. -/
def Forgotten (s : Sched) (slot : Nat) : Prop := slot < s.taskCount → Unlisted s (s.tasks slot).pid

/-- The creations that go wrong do not happen. -/
def Clean (s : Sched) (op : Op) : Prop :=
  Fresh s op ∧
  match op with
  | .addTask named _ _ _ stack => named = true → stack ≠ 0 → ∀ slot < maxTasks,
      s.findSlot.1 = some slot → Forgotten s slot
  | .addUserElfTask _ _ _ _ => ∀ slot < maxTasks, s.findSlot.1 = some slot → Forgotten s slot
  | .fork _ _ => s.cur.userStackPageCount ≠ 0 → s.syscallFrameEsp ≠ 0 → ∀ slot < maxTasks,
      s.findSlot.1 = some slot → Forgotten s slot
  | _ => True

/-- The steps of the runs in which `waitpid` works. -/
def Allowed (m : WaitSys) (op : Op) : Prop := Legal m op ∧ Clean m.sched op

instance (s : Sched) (slot : Nat) : Decidable (Forgotten s slot) := by
  unfold Forgotten
  infer_instance

instance (s : Sched) (op : Op) : Decidable (Clean s op) := by
  apply @Op.casesOn _ op <;> intros <;> unfold Clean <;> infer_instance

instance (m : WaitSys) (op : Op) : Decidable (Legal m op) := by
  apply @Op.casesOn _ op <;> intros <;> unfold Legal <;> infer_instance

instance (m : WaitSys) (op : Op) : Decidable (Allowed m op) := inferInstanceAs (Decidable (_ ∧ _))

/-! ## the invariant -/

/-- The entry `c` in the ledger of the task in slot `p` is about the task in
`c.slot`, and no other slot can be mistaken for it. -/
structure Holds (s : Sched) (p : Nat) (c : Child) : Prop where
  lt : c.slot < s.taskCount
  ne : c.slot ≠ p
  pid : (s.tasks c.slot).pid = c.pid
  alive : c.code = none → (s.tasks c.slot).state ≠ .dead
  ended : ∀ code, c.code = some code →
    (s.tasks c.slot).state = .dead ∧ (s.tasks c.slot).exitCode = code
  unique : ∀ j < s.taskCount, (s.tasks j).pid = c.pid → j = c.slot ∨ j = 0

/-- The scheduler follows the ledger. -/
structure Accounts (m : WaitSys) : Prop where
  table : Table m.sched
  idle : (m.sched.tasks 0).state ≠ .dead
  listed : ∀ p, (m.sched.tasks p).state ≠ .dead →
    ((m.ledger p).map Child.pid).Perm (m.sched.tasks p).children
  nodup : ∀ p, (m.sched.tasks p).state ≠ .dead → ((m.ledger p).map Child.pid).Nodup
  disjoint : ∀ p q, (m.sched.tasks p).state ≠ .dead → (m.sched.tasks q).state ≠ .dead → p ≠ q →
    ∀ c ∈ m.ledger p, ∀ d ∈ m.ledger q, c.pid ≠ d.pid
  held : ∀ p, (m.sched.tasks p).state ≠ .dead → ∀ c ∈ m.ledger p, Holds m.sched p c
  registered : ∀ p, m.waiting p = true → (m.sched.tasks p).state = .blocked → ∀ c ∈ m.ledger p,
    (m.sched.tasks c.slot).unblockOnExit = p ∧ c.code = none
  balance : ∀ p, (m.sched.tasks p).state ≠ .dead →
    ((m.answers p).map Prod.fst ++ (m.ledger p).map Child.pid).Perm (m.forks p)

variable {m m' : WaitSys} {s s' s₀ : Sched} {op : Op} {p slot : Nat} {c : Child}

/-- Nobody is owed anything at the start. -/
theorem start_accounts (s : Sched) : Accounts (start s) where
  table := init_table s
  idle := by
    change (s.init.tasks 0).state ≠ .dead
    exact (init_table s).cur_live
  listed := by
    intro p _
    have hnil : ((start s).sched.tasks p).children = [] := by
      change (s.init.tasks p).children = []
      unfold init
      dsimp only
      split <;> rfl
    rw [hnil]
    exact .refl _
  nodup := fun _ _ => List.nodup_nil
  disjoint := fun _ _ _ _ _ _ hc => absurd hc List.not_mem_nil
  held := fun _ _ _ hc => absurd hc List.not_mem_nil
  registered := fun _ _ _ _ hc => absurd hc List.not_mem_nil
  balance := fun _ _ => .refl _

/-- The records of DEAD slots do not matter. -/
theorem Accounts.congr (h : Accounts m) (hs : m'.sched = m.sched)
    (hl : ∀ p, (m.sched.tasks p).state ≠ .dead → m'.ledger p = m.ledger p ∧ m'.forks p = m.forks p ∧
      m'.answers p = m.answers p)
    (hw : ∀ p, (m.sched.tasks p).state ≠ .dead → m'.waiting p = true → m.waiting p = true) :
    Accounts m' where
  table := hs ▸ h.table
  idle := hs ▸ h.idle
  listed := by
    intro p hp
    rw [hs] at hp ⊢
    rw [(hl p hp).1]
    exact h.listed p hp
  nodup := by
    intro p hp
    rw [hs] at hp
    rw [(hl p hp).1]
    exact h.nodup p hp
  disjoint := by
    intro p q hp hq
    rw [hs] at hp hq
    rw [(hl p hp).1, (hl q hq).1]
    exact h.disjoint p q hp hq
  held := by
    intro p hp
    rw [hs] at hp ⊢
    rw [(hl p hp).1]
    exact h.held p hp
  registered := by
    intro p hw' hb
    rw [hs] at hb ⊢
    have hp : (m.sched.tasks p).state ≠ .dead := by
      rw [hb]
      decide
    rw [(hl p hp).1]
    exact h.registered p (hw p hp hw') hb
  balance := by
    intro p hp
    rw [hs] at hp
    rw [(hl p hp).1, (hl p hp).2.1, (hl p hp).2.2]
    exact h.balance p hp

/-- An entry that agrees with its slot is settled. -/
theorem Holds.settled (h : Holds s p c) : settle s c = c :=
  if_neg fun hc => h.alive hc.1 hc.2

/-- Settling keeps the pid. -/
theorem settle_pid (s : Sched) (c : Child) : (settle s c).pid = c.pid := by
  unfold settle
  split <;> rfl

/-- Settling keeps the slot. -/
theorem settle_slot (s : Sched) (c : Child) : (settle s c).slot = c.slot := by
  unfold settle
  split <;> rfl

/-- Children that died are settled. -/
theorem Accounts.settled (h : Accounts m) :
    Accounts { m with ledger := fun p => (m.ledger p).map (settle m.sched) } := by
  refine h.congr rfl (fun p hp => ⟨?_, rfl, rfl⟩) fun _ _ hw => hw
  exact (List.map_congr_left fun c hc => (h.held p hp c hc).settled).trans (List.map_id _)

/-- The slot that is handed out belongs to no live task. -/
theorem Accounts.reborn (h : Accounts m) : Accounts m.born := by
  rcases findSlot_cases m.sched with hf | ⟨slot, hf⟩
  · rw [born, hf]
    exact h
  · have hne : ∀ p, (m.sched.tasks p).state ≠ .dead → p ≠ slot := by
      rintro p hp rfl
      exact hp (hf.dead h.table)
    rw [born, hf.fst]
    refine h.congr rfl (fun p hp => ?_) fun p hp hw => ?_
    · exact ⟨set_of_ne _ _ (hne p hp), set_of_ne _ _ (hne p hp), set_of_ne _ _ (hne p hp)⟩
    · dsimp only at hw
      rwa [set_of_ne _ _ (hne p hp)] at hw

/-- A live task is in the table. -/
theorem Accounts.lt (h : Accounts m) (hp : (m.sched.tasks p).state ≠ .dead) :
    p < m.sched.taskCount := by
  by_contra hge
  exact hp (h.table.beyond p (by omega))

/-- A child in the ledger is listed. -/
theorem Accounts.mem_children (h : Accounts m) (hp : (m.sched.tasks p).state ≠ .dead)
    (hc : c ∈ m.ledger p) : c.pid ∈ (m.sched.tasks p).children :=
  (h.listed p hp).mem_iff.mp (List.mem_map_of_mem hc)

/-- A pid that no live task lists is not in the ledger. -/
theorem Accounts.unlisted {pid : Nat} (h : Accounts m) (hu : Unlisted m.sched pid)
    (hp : (m.sched.tasks p).state ≠ .dead) (hc : c ∈ m.ledger p) : c.pid ≠ pid := by
  rintro rfl
  exact hu p (h.lt hp) hp (h.mem_children hp hc)

/-! ## bystanders -/

/-- **Bystanders**: an entry follows the fate of its slot. -/
theorem Holds.calm {s₁ : Sched} (h : Holds s p c) (hc : Calm s₁ op s s') :
    Holds s' p (settle s' c) := by
  refine ⟨?_, ?_, ?_, fun hn hd => ?_, fun code hcode => ?_, fun j hj hp => ?_⟩
  · rw [settle_slot, hc.taskCount]
    exact h.lt
  · rw [settle_slot]
    exact h.ne
  · rw [settle_slot, settle_pid, hc.pid]
    exact h.pid
  · rw [settle_slot] at hd
    unfold settle at hn
    split at hn
    · contradiction
    · next hno => exact hno ⟨hn, hd⟩
  · rw [settle_slot]
    unfold settle at hcode
    split at hcode
    · next hd => exact ⟨hd.2, Option.some.inj hcode⟩
    · obtain ⟨hd, he⟩ := h.ended code hcode
      obtain ⟨hd', he'⟩ := hc.dead _ hd
      exact ⟨hd', he'.trans he⟩
  · rw [settle_pid] at hp
    rw [settle_slot]
    rw [hc.pid] at hp
    rw [hc.taskCount] at hj
    exact h.unique j hj hp

/-- Settling keeps the pids. -/
theorem settle_pids (s : Sched) (l : List Child) :
    (l.map (settle s)).map Child.pid = l.map Child.pid := by
  rw [List.map_map]
  exact List.map_congr_left fun c _ => settle_pid s c

/-- **A step of others** keeps the accounts. -/
theorem Accounts.calm (h : Accounts m) (hc : Calm m.sched op m.sched s') (ht : Table s')
    (h0 : m.sched.ends op ≠ some 0)
    (hwait : m.waiting m.sched.currentIdx = true → op.blocks = false)
    (hends : ∀ i, m.sched.ends op = some i → Ended m.sched i s') :
    Accounts { m with sched := s', ledger := fun p => (m.ledger p).map (settle s') } := by
  have hlive : ∀ p, (s'.tasks p).state ≠ .dead → (m.sched.tasks p).state ≠ .dead :=
    fun p hp hd => hp (hc.dead p hd).1
  refine ⟨ht, hc.ended 0 h0 h.idle, fun p hp => ?_, fun p hp => ?_, fun p q hp hq hpq => ?_,
    fun p hp c hmem => ?_, fun p hw hb c hmem => ?_, fun p hp => ?_⟩
  · rw [settle_pids, hc.children]
    exact h.listed p (hlive p hp)
  · rw [settle_pids]
    exact h.nodup p (hlive p hp)
  · intro c hmem d hmem'
    obtain ⟨c, hcm, rfl⟩ := List.mem_map.mp hmem
    obtain ⟨d, hdm, rfl⟩ := List.mem_map.mp hmem'
    rw [settle_pid, settle_pid]
    exact h.disjoint p q (hlive p hp) (hlive q hq) hpq c hcm d hdm
  · obtain ⟨c, hcm, rfl⟩ := List.mem_map.mp hmem
    exact (h.held p (hlive p hp) c hcm).calm hc
  · obtain ⟨c, hcm, rfl⟩ := List.mem_map.mp hmem
    have hb₀ : (m.sched.tasks p).state = .blocked := by
      rcases hc.blocked p hb with hb | ⟨rfl, hblocks⟩
      · exact hb
      · rw [hwait hw] at hblocks
        contradiction
    have hp : (m.sched.tasks p).state ≠ .dead := by
      rw [hb₀]
      decide
    obtain ⟨hun, hcode⟩ := h.registered p hw hb₀ c hcm
    have hpt := h.lt hp
    have hcount := h.table.count_le
    have hmax : maxTasks = 8 := rfl
    -- the child's death would have woken `p`
    have hno : m.sched.ends op ≠ some c.slot := fun he =>
      (hends c.slot he).awake p hun hpt (by omega) hb
    have hheld := h.held p hp c hcm
    have halive := hc.ended c.slot hno (hheld.alive hcode)
    have hsame : settle s' c = c := if_neg fun hs => halive hs.2
    rw [hsame, hc.waker c.slot hno]
    exact ⟨hun, hcode⟩
  · rw [settle_pids]
    exact h.balance p (hlive p hp)

/-! ## creation -/

/-- A new task takes the slot of nobody's child and a pid nobody lists. -/
theorem Accounts.create {child : Task} {n e : Nat} {frames : Nat → TrapFrame} (h : Accounts m)
    (hv : m.sched.Vacant slot) (hl : m.ledger slot = []) (hf : m.forks slot = [])
    (ha : m.answers slot = []) (hw : m.waiting slot = false) (hforgot : Forgotten m.sched slot)
    (hpid : Unlisted m.sched child.pid) (hchild : child.state ≠ .dead → child.children = [])
    (ht : Table (m.sched.built slot child m.sched.cur n e frames)) :
    Accounts { m with sched := m.sched.built slot child m.sched.cur n e frames } := by
  have hslot := hv.dead h.table
  have hother : ∀ p, p ≠ slot → (m.sched.built slot child m.sched.cur n e frames).tasks p =
      m.sched.tasks p := fun p hp => built_of_ne hp
  have hlive : ∀ p, p ≠ slot → ((m.sched.built slot child m.sched.cur n e frames).tasks p).state ≠
    .dead →
      (m.sched.tasks p).state ≠ .dead := by
    intro p hp
    rw [hother p hp]
    exact id
  have hkept : ∀ p c, (m.sched.tasks p).state ≠ .dead → c ∈ m.ledger p → c.slot ≠ slot := by
    rintro p c hp hc rfl
    have hheld := h.held p hp c hc
    exact h.unlisted (hforgot hheld.lt) hp hc hheld.pid.symm
  have hnil : ∀ c, c ∉ m.ledger slot := by
    intro c
    rw [hl]
    exact List.not_mem_nil
  refine ⟨ht, ?_, fun p hp => ?_, fun p hp => ?_, fun p q hp hq hpq c hc d hd => ?_,
    fun p hp c hc => ?_, fun p hwait hb c hc => ?_, fun p hp => ?_⟩
  · have h0 : (0 : Nat) ≠ slot := by
      rintro rfl
      exact h.idle hslot
    change ((m.sched.built slot child m.sched.cur n e frames).tasks 0).state ≠ .dead
    rw [hother 0 h0]
    exact h.idle
  · by_cases hps : p = slot
    · subst hps
      change ((m.sched.built p child m.sched.cur n e frames).tasks p).state ≠ .dead at hp
      rw [built_slot] at hp
      change (List.map _ (m.ledger p)).Perm
        ((m.sched.built p child m.sched.cur n e frames).tasks p).children
      rw [built_slot, hl, hchild hp]
      exact .refl _
    · change (List.map _ (m.ledger p)).Perm
        ((m.sched.built slot child m.sched.cur n e frames).tasks p).children
      rw [hother p hps]
      exact h.listed p (hlive p hps hp)
  · by_cases hps : p = slot
    · rw [hps, hl]
      exact List.nodup_nil
    · exact h.nodup p (hlive p hps hp)
  · have hps : p ≠ slot := by
      rintro rfl
      exact hnil c hc
    have hqs : q ≠ slot := by
      rintro rfl
      exact hnil d hd
    exact h.disjoint p q (hlive p hps hp) (hlive q hqs hq) hpq c hc d hd
  · have hps : p ≠ slot := by
      rintro rfl
      exact hnil c hc
    have hp' := hlive p hps hp
    have hheld := h.held p hp' c hc
    have hcs := hkept p c hp' hc
    have hcslot := hother c.slot hcs
    refine ⟨Nat.lt_of_lt_of_le hheld.lt (Nat.le_max_left _ _), hheld.ne, ?_, ?_, ?_,
      fun j hj hpj => ?_⟩
    · change ((m.sched.built slot child m.sched.cur n e frames).tasks c.slot).pid = c.pid
      rw [hcslot]
      exact hheld.pid
    · change c.code = none →
        ((m.sched.built slot child m.sched.cur n e frames).tasks c.slot).state ≠ .dead
      rw [hcslot]
      exact hheld.alive
    · change ∀ code, c.code = some code →
        ((m.sched.built slot child m.sched.cur n e frames).tasks c.slot).state = .dead ∧
          ((m.sched.built slot child m.sched.cur n e frames).tasks c.slot).exitCode = code
      rw [hcslot]
      exact hheld.ended
    · change ((m.sched.built slot child m.sched.cur n e frames).tasks j).pid = c.pid at hpj
      change j < max m.sched.taskCount (slot + 1) at hj
      by_cases hjs : j = slot
      · rw [hjs, built_slot] at hpj
        exact absurd hpj.symm (h.unlisted hpid hp' hc)
      · rw [hother j hjs] at hpj
        refine hheld.unique j ?_ hpj
        rcases hv.free with ⟨hlt, _⟩ | ⟨heq, _⟩ <;> omega
  · have hps : p ≠ slot := by
      rintro rfl
      exact hnil c hc
    change ((m.sched.built slot child m.sched.cur n e frames).tasks p).state = .blocked at hb
    change ((m.sched.built slot child m.sched.cur n e frames).tasks c.slot).unblockOnExit = p ∧ _
    rw [hother p hps] at hb
    have hp' : (m.sched.tasks p).state ≠ .dead := by
      rw [hb]
      decide
    rw [hother c.slot (hkept p c hp' hc)]
    exact h.registered p hwait hb c hc
  · by_cases hps : p = slot
    · subst hps
      change (List.map _ (m.answers p) ++ List.map _ (m.ledger p)).Perm (m.forks p)
      rw [hl, ha, hf]
      exact .refl _
    · exact h.balance p (hlive p hps hp)

/-- The children of a task are in different slots, none of them its own, so
there are fewer of them than slots. -/
theorem Accounts.length_lt (h : Accounts m) (hp : (m.sched.tasks p).state ≠ .dead) :
    (m.ledger p).length < Task.maxChildren := by
  have hpids : (m.ledger p).map Child.pid =
      ((m.ledger p).map Child.slot).map fun k => (m.sched.tasks k).pid := by
    rw [List.map_map]
    exact List.map_congr_left fun c hc => (h.held p hp c hc).pid.symm
  have hnodup : ((m.ledger p).map Child.slot).Nodup := by
    have := h.nodup p hp
    rw [hpids] at this
    exact List.Nodup.of_map _ this
  have hall : (p :: (m.ledger p).map Child.slot).Nodup := by
    refine List.nodup_cons.mpr ⟨fun hmem => ?_, hnodup⟩
    obtain ⟨c, hc, hcp⟩ := List.mem_map.mp hmem
    exact (h.held p hp c hc).ne hcp
  have hsub : p :: (m.ledger p).map Child.slot ⊆ List.range m.sched.taskCount := by
    intro k hk
    rw [List.mem_range]
    rcases List.mem_cons.mp hk with rfl | hk
    · exact h.lt hp
    · obtain ⟨c, hc, rfl⟩ := List.mem_map.mp hk
      exact (h.held p hp c hc).lt
  have hlen := (List.subperm_of_subset hall hsub).length_le
  have hcount := h.table.count_le
  have hmax : maxTasks = 8 := rfl
  simp only [List.length_cons, List.length_map, List.length_range] at hlen
  have : Task.maxChildren = 8 := rfl
  omega

/-- One more child. -/
theorem mem_enter {pid : Nat} : c ∈ (m.enter pid slot).ledger p ↔
    c ∈ m.ledger p ∨ p = m.sched.currentIdx ∧ c = { pid, slot } := by
  change c ∈ set m.ledger m.sched.currentIdx _ p ↔ _
  by_cases hp : p = m.sched.currentIdx
  · rw [hp, set_self, List.mem_append, List.mem_singleton]
    simp
  · rw [set_of_ne _ _ hp]
    simp [hp]

/-- An entry only depends on these parts of the tasks. -/
theorem Holds.congr (h : Holds s p c) (hn : s'.taskCount = s.taskCount)
    (hpid : ∀ j, (s'.tasks j).pid = (s.tasks j).pid)
    (hstate : (s'.tasks c.slot).state = .dead ↔ (s.tasks c.slot).state = .dead)
    (hcode : (s'.tasks c.slot).exitCode = (s.tasks c.slot).exitCode) : Holds s' p c where
  lt := hn ▸ h.lt
  ne := h.ne
  pid := (hpid _).trans h.pid
  alive := fun hc hd => h.alive hc (hstate.mp hd)
  ended := fun code hc => ⟨hstate.mpr (h.ended code hc).1, hcode.trans (h.ended code hc).2⟩
  unique := fun j hj hp => h.unique j (hn ▸ hj) ((hpid j).symm.trans hp)

/-- A child that was just put into `slot` is entered under its parent. -/
theorem Accounts.enter (h : Accounts m) (pid slot : Nat) (f : Task → Task)
    (hf : ∃ fs,
    f m.sched.cur = { m.sched.cur with children := m.sched.cur.children ++ [pid], fpuState := fs })
    (hlt : slot < m.sched.taskCount) (hne : slot ≠ m.sched.currentIdx)
    (hslot : (m.sched.tasks slot).pid = pid) (hlive : (m.sched.tasks slot).state ≠ .dead)
    (hpid : Unlisted m.sched pid)
    (hunique : ∀ j < m.sched.taskCount, (m.sched.tasks j).pid = pid → j = slot ∨ j = 0)
    (hw : m.waiting m.sched.currentIdx = false) :
    Accounts { m.enter pid slot with sched := m.sched.modify m.sched.currentIdx f } := by
  have hcur := h.table.cur_live
  have hkin :
    ∀ {α : Type} (g : Task → α), (∀ t cs fs, g { t with children := cs, fpuState := fs } = g t) →
      ∀ j, g ((m.sched.modify m.sched.currentIdx f).tasks j) = g (m.sched.tasks j) := by
    intro α g hg j
    rw [modify_tasks]
    split
    · next hj =>
        obtain ⟨fs, hfs⟩ := hf
        subst hj
        exact (congrArg g hfs).trans (hg _ _ _)
    · rfl
  have hstate := hkin Task.state fun _ _ _ => rfl
  have hpids := hkin Task.pid fun _ _ _ => rfl
  have hcode := hkin Task.exitCode fun _ _ _ => rfl
  have hun := hkin Task.unblockOnExit fun _ _ _ => rfl
  have hold : ∀ p, (m.sched.tasks p).state ≠ .dead → ∀ c ∈ m.ledger p, c.pid ≠ pid :=
    fun p hp c hc => h.unlisted hpid hp hc
  have hledger : ∀ p, p ≠ m.sched.currentIdx → (m.enter pid slot).ledger p = m.ledger p :=
    fun p hp => set_of_ne _ _ hp
  have hmine : (m.enter pid slot).ledger m.sched.currentIdx =
      m.ledger m.sched.currentIdx ++ [Child.mk pid slot none] := set_self _ _ _
  refine ⟨h.table.congr rfl rfl hstate (hkin Task.id fun _ _ _ => rfl), ?_, fun p hp => ?_,
    fun p hp => ?_,
    fun p q hp hq hpq c hc d hd => ?_, fun p hp c hc => ?_, fun p hwait hb c hc =>
      ?_, fun p hp => ?_⟩
  · change ((m.sched.modify m.sched.currentIdx f).tasks 0).state ≠ .dead
    rw [hstate]
    exact h.idle
  · change ((m.sched.modify m.sched.currentIdx f).tasks p).state ≠ .dead at hp
    rw [hstate] at hp
    change (List.map _ ((m.enter pid slot).ledger p)).Perm
      ((m.sched.modify m.sched.currentIdx f).tasks p).children
    by_cases hpc : p = m.sched.currentIdx
    · obtain ⟨fs, hfs⟩ := hf
      have hchildren := congrArg Task.children hfs
      rw [hpc, modify_tasks, if_pos rfl, hmine, List.map_append]
      change List.Perm _ (f m.sched.cur).children
      rw [hchildren]
      exact (h.listed _ hcur).append (.refl _)
    · rw [modify_tasks, if_neg hpc, hledger p hpc]
      exact h.listed p hp
  · change ((m.sched.modify m.sched.currentIdx f).tasks p).state ≠ .dead at hp
    rw [hstate] at hp
    change (List.map _ ((m.enter pid slot).ledger p)).Nodup
    by_cases hpc : p = m.sched.currentIdx
    · rw [hpc, hmine, List.map_append, List.nodup_append]
      refine ⟨h.nodup _ hcur, List.nodup_singleton _, ?_⟩
      rintro a ha b hb rfl
      obtain ⟨c, hc, rfl⟩ := List.mem_map.mp ha
      rw [List.map_singleton, List.mem_singleton] at hb
      exact hold _ hcur c hc hb
    · rw [hledger p hpc]
      exact h.nodup p hp
  · change ((m.sched.modify m.sched.currentIdx f).tasks p).state ≠ .dead at hp
    change ((m.sched.modify m.sched.currentIdx f).tasks q).state ≠ .dead at hq
    rw [hstate] at hp hq
    rcases mem_enter.mp hc with hc | ⟨rfl, rfl⟩
    · rcases mem_enter.mp hd with hd | ⟨rfl, rfl⟩
      · exact h.disjoint p q hp hq hpq c hc d hd
      · exact hold p hp c hc
    · rcases mem_enter.mp hd with hd | ⟨rfl, rfl⟩
      · exact (hold q hq d hd).symm
      · exact absurd rfl hpq
  · change ((m.sched.modify m.sched.currentIdx f).tasks p).state ≠ .dead at hp
    rw [hstate] at hp
    rcases mem_enter.mp hc with hc | ⟨rfl, rfl⟩
    · exact (h.held p hp c hc).congr rfl hpids (by rw [hstate]) (hcode _)
    · have hnew : Holds m.sched m.sched.currentIdx { pid, slot } :=
        ⟨hlt, hne, hslot, fun _ => hlive, nofun, hunique⟩
      exact hnew.congr rfl hpids (by rw [hstate]) (hcode _)
  · change ((m.sched.modify m.sched.currentIdx f).tasks p).state = .blocked at hb
    change ((m.sched.modify m.sched.currentIdx f).tasks c.slot).unblockOnExit = p ∧ _
    rw [hstate] at hb
    rw [hun]
    rcases mem_enter.mp hc with hc | ⟨rfl, _⟩
    · exact h.registered p hwait hb c hc
    · rw [show (m.enter pid slot).waiting m.sched.currentIdx = false from hw] at hwait
      contradiction
  · change ((m.sched.modify m.sched.currentIdx f).tasks p).state ≠ .dead at hp
    rw [hstate] at hp
    change (List.map _ (m.answers p) ++ List.map _ ((m.enter pid slot).ledger p)).Perm
      (set m.forks m.sched.currentIdx (m.forks m.sched.currentIdx ++ [pid]) p)
    by_cases hpc : p = m.sched.currentIdx
    · rw [hpc, hmine, set_self, List.map_append, ← List.append_assoc]
      exact (h.balance _ hcur).append (.refl _)
    · rw [set_of_ne _ _ hpc, hledger p hpc]
      exact h.balance p hp

/-- The record of a new slot is outside the scheduler. -/
theorem born_sched (m : WaitSys) : m.born.sched = m.sched := by
  unfold born
  split <;> rfl

/-- The record of the slot that is handed out. -/
theorem born_slot (hv : m.sched.Vacant slot) : m.born.ledger slot = [] ∧ m.born.forks slot = [] ∧
    m.born.answers slot = [] ∧ m.born.waiting slot = false := by
  rw [born, hv.fst]
  exact ⟨set_self _ _ _, set_self _ _ _, set_self _ _ _, set_self _ _ _⟩

/-- The other records stay. -/
theorem born_waiting (hv : m.sched.Vacant slot) (hp : p ≠ slot) :
    m.born.waiting p = m.waiting p := by
  rw [born, hv.fst]
  exact set_of_ne _ _ hp

/-- `create` after the record of the slot was cleaned. -/
theorem Accounts.put {child : Task} {n e : Nat} {frames : Nat → TrapFrame} (h : Accounts m)
    (hv : m.sched.Vacant slot) (hforgot : Forgotten m.sched slot)
    (hpid : Unlisted m.sched child.pid)
    (hchild : child.state ≠ .dead → child.children = [])
    (ht : Table (m.sched.built slot child m.sched.cur n e frames)) :
    Accounts { m.born with sched := m.sched.built slot child m.sched.cur n e frames } := by
  have hb := h.reborn
  have hs := born_sched m
  obtain ⟨hl, hf, ha, hw⟩ := born_slot hv
  rw [← hs] at hv hforgot hpid ht ⊢
  exact hb.create hv hl hf ha hw hforgot hpid hchild ht

/-- A creation that failed and left the slot as it was. -/
theorem Accounts.same {child : Task} {e : Nat} {frames : Nat → TrapFrame} (h : Accounts m)
    (hlt : slot < m.sched.taskCount) (hkin : child.kin = (m.sched.tasks slot).kin)
    (hstate : child.state = (m.sched.tasks slot).state)
    (ht : Table (m.sched.built slot child m.sched.cur m.sched.nextPid e frames)) :
    Accounts { m.born with
      sched := m.sched.built slot child m.sched.cur m.sched.nextPid e frames
      ledger := fun p => (m.born.ledger p).map
        (settle (m.sched.built slot child m.sched.cur m.sched.nextPid e frames)) } := by
  have hcalm : Calm m.sched .pitTick m.sched
      (m.sched.built slot child m.sched.cur m.sched.nextPid e frames) := by
    refine .of_kin (Nat.max_eq_left hlt) rfl (fun i => ?_) fun i => .inl ?_
    · by_cases hi : i = slot
      · rw [hi, built_slot]
        exact hkin
      · rw [built_of_ne hi]
    · by_cases hi : i = slot
      · rw [hi, built_slot]
        exact hstate
      · rw [built_of_ne hi]
  have hs := born_sched m
  rw [← hs] at hcalm ht ⊢
  exact h.reborn.calm hcalm ht nofun (fun _ => rfl) nofun

/-- The last part of `fork`: the child is put into its slot, then its parent
learns about it. -/
theorem Accounts.fork_child {t : Task} {n e : Nat} {frames : Nat → TrapFrame} (h : Accounts m)
    (hv : m.sched.Vacant slot) (hne : m.sched.currentIdx ≠ slot) (hforgot : Forgotten m.sched slot)
    (hpid : Unlisted m.sched m.sched.nextPid) (hunused : Unused m.sched slot)
    (hnew : Newborn m.sched slot t) (hw : m.waiting m.sched.currentIdx = false)
    (ht : Table (m.sched.built slot t (m.sched.forked m.sched.cur) n e frames)) :
    Accounts { m.born.enter m.sched.nextPid slot with
      sched := m.sched.built slot t (m.sched.forked m.sched.cur) n e frames } := by
  obtain ⟨cs, fs, hforked⟩ := forked_eq m.sched m.sched.cur
  have hsame :
    ∀ {α : Type} (g : Task → α), (∀ t cs fs, g { t with children := cs, fpuState := fs } = g t) →
      ∀ i, g ((m.sched.built slot t m.sched.cur n e frames).tasks i) =
        g ((m.sched.built slot t (m.sched.forked m.sched.cur) n e frames).tasks i) := by
    intro α g hg i
    by_cases hi : i = slot
    · rw [hi, built_slot, built_slot]
    · by_cases hc : i = m.sched.currentIdx
      · rw [hc, built_cur hne, built_cur hne, hforked]
        exact (hg _ _ _).symm
      · rw [built_other hi hc, built_other hi hc]
  have ht₁ : Table (m.sched.built slot t m.sched.cur n e frames) :=
    ht.congr rfl rfl (hsame Task.state fun _ _ _ => rfl) (hsame Task.id fun _ _ _ => rfl)
  have hput := h.put hv hforgot (by rw [hnew.pid]; exact hpid) (fun _ => hnew.children) ht₁
  have hcur : (m.sched.built slot t m.sched.cur n e frames).cur = m.sched.cur := built_cur hne
  have hroom : m.sched.cur.children.length < Task.maxChildren := by
    have hlen := (h.listed _ h.table.cur_live).length_eq
    have hlt := h.length_lt h.table.cur_live
    rw [List.length_map] at hlen
    rw [cur, ← hlen]
    exact hlt
  have hlt : ∀ j, j ≠ slot → j < max m.sched.taskCount (slot + 1) → j < m.sched.taskCount := by
    intro j hj hlt
    rcases hv.free with ⟨h1, _⟩ | ⟨h1, _⟩ <;> omega
  have henter := hput.enter m.sched.nextPid slot (fun _ => m.sched.forked m.sched.cur) ?_
    (Nat.lt_of_lt_of_le (Nat.lt_succ_self _) (Nat.le_max_right _ _)) hne.symm ?_ ?_ ?_ ?_ ?_
  · have hmod : (m.sched.built slot t m.sched.cur n e frames).modify m.sched.currentIdx
        (fun _ => m.sched.forked m.sched.cur) =
          m.sched.built slot t (m.sched.forked m.sched.cur) n e frames := built_modify_cur hne _
    have hidx : m.born.sched.currentIdx = m.sched.currentIdx := by rw [born_sched]
    have hrec : m.born.enter m.sched.nextPid slot =
        { WaitSys.enter { m.born with sched := m.sched.built slot t m.sched.cur n e frames }
          m.sched.nextPid slot with sched := m.born.sched } := by
      simp only [WaitSys.enter, hidx]
      rfl
    rw [hrec, ← hmod]
    exact henter
  · obtain ⟨fs, hfs⟩ := forked_of_room (s := m.sched) hroom
    refine ⟨fs, hfs.trans ?_⟩
    dsimp only
    rw [hcur]
  · change ((m.sched.built slot t m.sched.cur n e frames).tasks slot).pid = _
    rw [built_slot]
    exact hnew.pid
  · change ((m.sched.built slot t m.sched.cur n e frames).tasks slot).state ≠ _
    rw [built_slot, hnew.state]
    decide
  · intro p hp hlive
    change m.sched.nextPid ∉ ((m.sched.built slot t m.sched.cur n e frames).tasks p).children
    change ((m.sched.built slot t m.sched.cur n e frames).tasks p).state ≠ .dead at hlive
    by_cases hps : p = slot
    · rw [hps, built_slot, hnew.children]
      exact List.not_mem_nil
    · rw [built_of_ne hps] at hlive ⊢
      exact hpid p (hlt p hps hp) hlive
  · intro j hj hpj
    change ((m.sched.built slot t m.sched.cur n e frames).tasks j).pid = _ at hpj
    by_cases hjs : j = slot
    · exact .inl hjs
    · rw [built_of_ne hjs] at hpj
      by_contra hno
      exact hunused j (hlt j hjs hj) hjs (fun h0 => hno (.inr h0)) hpj
  · change m.born.waiting m.sched.currentIdx = false
    rw [born_waiting hv hne]
    exact hw

/-- `addTask` creates no child. -/
theorem addTask_accounts {named : Bool} {entry pageDir priority stack : Nat} (h : Accounts m)
    (hc : Clean m.sched (.addTask named entry pageDir priority stack))
    (hs : m.step (.addTask named entry pageDir priority stack) = .ok m') : Accounts m' := by
  have hstep : m.sched.step (.addTask named entry pageDir priority stack) =
      .ok (m.sched.addTask named entry pageDir priority stack).2 := rfl
  have ht := step_table h.table hstep
  simp only [step, hstep, bind_eq_ok, Except.ok.injEq, exists_eq_left'] at hs
  subst hs
  have hnote : m.note (.addTask named entry pageDir priority stack) = m.born := rfl
  rw [hnote]
  rcases addTask_ok m.sched named entry pageDir priority stack with
    he | ⟨hnamed, slot, hv, ⟨h0, he⟩ | ⟨h0, t, frames, hnew, _, he⟩⟩
  · rw [he, ← born_sched m]
    exact h.reborn.settled
  · have hclean := hc.1 hnamed slot (hv.lt_max h.table) hv.fst
    rw [if_pos h0] at hclean
    rw [he] at ht ⊢
    by_cases hlt : slot < m.sched.taskCount
    · exact h.same hlt rfl rfl ht
    · have hgrown : slot = m.sched.taskCount := by
        rcases hv.free with ⟨hlt', _⟩ | ⟨heq, _⟩
        · exact absurd hlt' hlt
        · exact heq
      refine (Accounts.put h hv (fun hlt' => absurd hlt' hlt) ?_ ?_ ht).settled
      · exact hclean hgrown
      · exact fun hl => absurd (hv.dead h.table) hl
  · have hpid := hc.1 hnamed slot (hv.lt_max h.table) hv.fst
    have hforgot := hc.2 hnamed h0 slot (hv.lt_max h.table) hv.fst
    rw [if_neg h0] at hpid
    rw [he] at ht ⊢
    exact (h.put hv hforgot (by rw [hnew.pid]; exact hpid) (fun _ => hnew.children) ht).settled

/-- `addUserElfTask` creates a child of the current task. -/
theorem addUserElfTask_accounts {stack dir : Nat} {stackPhys : Option (Nat → Nat)}
    {elf : Option ElfResult} (h : Accounts m)
    (hc : Clean m.sched (.addUserElfTask stack stackPhys dir elf))
    (hs : m.step (.addUserElfTask stack stackPhys dir elf) = .ok m') : Accounts m' := by
  have hstep : m.sched.step (.addUserElfTask stack stackPhys dir elf) =
      .ok (m.sched.addUserElfTask stack stackPhys dir elf).2 := rfl
  have ht := step_table h.table hstep
  simp only [step, hstep, bind_eq_ok, Except.ok.injEq, exists_eq_left'] at hs
  subst hs
  have hnote : m.note (.addUserElfTask stack stackPhys dir elf) = m.born := rfl
  rw [hnote]
  rcases addUserElfTask_ok m.sched stack stackPhys dir elf with
    he | ⟨slot, hv, ⟨hno, t, hd, he⟩ | ⟨hyes, t, e, frames, hnew, _, he⟩⟩
  · rw [he, ← born_sched m]
    exact h.reborn.settled
  · have hpid := hc.1 slot (hv.lt_max h.table) hv.fst
    have hforgot := hc.2 slot (hv.lt_max h.table) hv.fst
    rw [if_neg hno] at hpid
    rw [he] at ht ⊢
    exact (h.put hv hforgot (by rw [hd.pid]; exact hpid) (fun _ => hd.children) ht).settled
  · have hpid := hc.1 slot (hv.lt_max h.table) hv.fst
    have hforgot := hc.2 slot (hv.lt_max h.table) hv.fst
    rw [if_pos hyes] at hpid
    rw [he] at ht ⊢
    exact (h.put hv hforgot (by rw [hnew.pid]; exact hpid) (fun _ => hnew.children) ht).settled

/-- `fork` creates a child of the current task. -/
theorem fork_accounts {stack dir : Nat} (h : Accounts m) (hc : Clean m.sched (.fork stack dir))
    (hw : m.waiting m.sched.currentIdx = false) (hs : m.step (.fork stack dir) = .ok m') :
    Accounts m' := by
  have hstep : m.sched.step (.fork stack dir) = .ok (m.sched.fork stack dir).2 := rfl
  have ht := step_table h.table hstep
  simp only [step, hstep, bind_eq_ok, Except.ok.injEq, exists_eq_left'] at hs
  subst hs
  rcases fork_ok m.sched stack dir h.table.cur_lt h.table.cur_live with
    he | ⟨huser, hesp, slot, hv, hne,
      ⟨hno, t, frames, hd, he⟩ | ⟨hstack, hdir, t, frames, hnew, _, _, he⟩⟩
  · have hnote : m.note (.fork stack dir) = m.born := by
      simp only [note, he]
    rw [hnote, he, ← born_sched m]
    exact h.reborn.settled
  · have hnote : m.note (.fork stack dir) = m.born := by
      simp only [note, he]
    have hpid := hc.1 huser hesp slot (hv.lt_max h.table) hv.fst
    have hforgot := hc.2 huser hesp slot (hv.lt_max h.table) hv.fst
    rw [if_neg hno] at hpid
    rw [he] at ht
    rw [hnote, he]
    exact (h.put hv hforgot (by rw [hd.pid]; exact hpid) (fun _ => hd.children) ht).settled
  · have hnote : m.note (.fork stack dir) = m.born.enter m.sched.nextPid slot := by
      simp only [note, he, hv.fst]
    have hpid := hc.1 huser hesp slot (hv.lt_max h.table) hv.fst
    have hforgot := hc.2 huser hesp slot (hv.lt_max h.table) hv.fst
    rw [if_pos ⟨hstack, hdir⟩] at hpid
    rw [he] at ht
    rw [hnote, he]
    exact (h.fork_child hv hne hforgot hpid.1 hpid.2 hnew hw ht).settled

/-! ## waitpid -/

/-- **Answers are owed**: the DEAD slot that is found for a listed pid is that
of a child in the ledger, and holds its exit code. -/
theorem Accounts.owed {pid t : Nat} (h : Accounts m) (hp : (m.sched.tasks p).state ≠ .dead)
    (hmem : pid ∈ (m.sched.tasks p).children) (hd : m.sched.findDead pid = some t) :
    ∃ c ∈ m.ledger p, c.pid = pid ∧ c.code = some (m.sched.tasks t).exitCode := by
  obtain ⟨c, hc, rfl⟩ := List.mem_map.mp ((h.listed p hp).mem_iff.mpr hmem)
  obtain ⟨hlt, hpid, hdead⟩ := findDead_some hd
  have hheld := h.held p hp c hc
  have hslot : t = c.slot := by
    rcases hheld.unique t hlt hpid with ht | rfl
    · exact ht
    · exact absurd hdead h.idle
  subst hslot
  refine ⟨c, hc, rfl, ?_⟩
  cases hcode : c.code with
  | none => exact absurd hdead (hheld.alive hcode)
  | some code => rw [(hheld.ended code hcode).2]

/-- A child that ended is found. -/
theorem Accounts.found {code : Int} (h : Accounts m) (hp : (m.sched.tasks p).state ≠ .dead)
    (hc : c ∈ m.ledger p) (hcode : c.code = some code) : ∃ t, m.sched.findDead c.pid = some t := by
  have hheld := h.held p hp c hc
  cases hd : m.sched.findDead c.pid with
  | some t => exact ⟨t, rfl⟩
  | none => exact absurd (hheld.ended code hcode).1 (findDead_none hd hheld.lt hheld.pid)

/-- One child is told. -/
theorem erase_pids {l : List Child} {pid : Nat} (h : pid ∈ l.map Child.pid) :
    (pid :: (l.eraseP fun c => c.pid = pid).map Child.pid).Perm (l.map Child.pid) := by
  have herase : (l.eraseP fun c => c.pid = pid).map Child.pid = (l.map Child.pid).erase pid := by
    rw [List.erase_eq_eraseP', List.eraseP_map]
    rfl
  rw [herase]
  exact (List.perm_cons_erase h).symm

/-- **Reaping**: an answer strikes one child out. -/
theorem Accounts.reap {i pid : Nat} (h : Accounts m) (hi : m.sched.cur.children[i]? = some pid)
    (code : Int) :
    Accounts { m.answered (.reaped pid code) with
      sched := m.sched.modify m.sched.currentIdx fun t =>
        { t with children := removeChild t.children i } } := by
  have hcur := h.table.cur_live
  have hkin : ∀ {α : Type} (g : Task → α), (∀ t cs, g { t with children := cs } = g t) →
      ∀ j, g ((m.sched.modify m.sched.currentIdx fun t =>
        { t with children := removeChild t.children i }).tasks j) = g (m.sched.tasks j) := by
    intro α g hg j
    rw [modify_tasks]
    split
    · exact hg _ _
    · rfl
  have hstate := hkin Task.state fun _ _ => rfl
  have hmine : (m.answered (.reaped pid code)).ledger m.sched.currentIdx =
      (m.ledger m.sched.currentIdx).eraseP fun c => c.pid = pid := set_self _ _ _
  have hledger : ∀ p, p ≠ m.sched.currentIdx →
      (m.answered (.reaped pid code)).ledger p = m.ledger p :=
    fun p hp => set_of_ne _ _ hp
  have hsub : ∀ p c, c ∈ (m.answered (.reaped pid code)).ledger p → c ∈ m.ledger p := by
    intro p c hc
    by_cases hp : p = m.sched.currentIdx
    · rw [hp, hmine] at hc
      rw [hp]
      exact List.mem_of_mem_eraseP hc
    · rwa [hledger p hp] at hc
  have hmem : pid ∈ (m.ledger m.sched.currentIdx).map Child.pid :=
    (h.listed _ hcur).mem_iff.mpr (List.mem_of_getElem? hi)
  have hpids := erase_pids hmem
  have hwait : (m.answered (.reaped pid code)).waiting m.sched.currentIdx = false := set_self _ _ _
  refine ⟨h.table.congr rfl rfl hstate (hkin Task.id fun _ _ => rfl), ?_, fun p hp => ?_,
    fun p hp => ?_,
    fun p q hp hq hpq c hc d hd => ?_, fun p hp c hc => ?_, fun p hw hb c hc => ?_, fun p hp => ?_⟩
  · dsimp only
    rw [hstate]
    exact h.idle
  · dsimp only at hp ⊢
    rw [hstate] at hp
    by_cases hpc : p = m.sched.currentIdx
    · rw [hpc, hmine, modify_tasks, if_pos rfl]
      exact (hpids.trans ((h.listed _ hcur).trans (removeChild_cons hi).symm)).cons_inv
    · rw [hledger p hpc, modify_tasks, if_neg hpc]
      exact h.listed p hp
  · dsimp only at hp ⊢
    rw [hstate] at hp
    by_cases hpc : p = m.sched.currentIdx
    · rw [hpc, hmine]
      exact (List.nodup_cons.mp (hpids.nodup_iff.mpr (h.nodup _ hcur))).2
    · rw [hledger p hpc]
      exact h.nodup p hp
  · dsimp only at hp hq
    rw [hstate] at hp hq
    exact h.disjoint p q hp hq hpq c (hsub p c hc) d (hsub q d hd)
  · dsimp only at hp
    rw [hstate] at hp
    exact (h.held p hp c (hsub p c hc)).congr rfl (hkin Task.pid fun _ _ => rfl) (by rw [hstate])
      (hkin Task.exitCode (fun _ _ => rfl) _)
  · dsimp only at hw hb ⊢
    have hpc : p ≠ m.sched.currentIdx := by
      rintro rfl
      rw [hwait] at hw
      contradiction
    rw [hstate] at hb
    rw [hkin Task.unblockOnExit fun _ _ => rfl]
    refine h.registered p ?_ hb c (hsub p c hc)
    rwa [show (m.answered (.reaped pid code)).waiting p = m.waiting p from set_of_ne _ _ hpc] at hw
  · dsimp only at hp ⊢
    rw [hstate] at hp
    by_cases hpc : p = m.sched.currentIdx
    · rw [hpc, hmine, show (m.answered (.reaped pid code)).answers m.sched.currentIdx =
        m.answers m.sched.currentIdx ++ [(pid, code)] from set_self _ _ _, List.map_append,
        List.append_assoc]
      exact ((List.Perm.refl _).append hpids).trans (h.balance _ hcur)
    · rw [hledger p hpc, show (m.answered (.reaped pid code)).answers p = m.answers p from
        set_of_ne _ _ hpc]
      exact h.balance p hp

/-- **Blocking**: a parent none of whose children is dead registers with all
of them. -/
theorem Accounts.block (h : Accounts m)
    (hnone : ∀ pid ∈ m.sched.cur.children, m.sched.findDead pid = none)
    (ht : Table ((m.sched.registerChildren m.sched.cur.children).modify m.sched.currentIdx fun t =>
      { t with state := .blocked })) :
    Accounts { m.answered .blocked with
      sched := (m.sched.registerChildren m.sched.cur.children).modify m.sched.currentIdx fun t =>
        { t with state := .blocked } } := by
  have hcur := h.table.cur_live
  obtain ⟨s', hs'⟩ : ∃ s', s' = (m.sched.registerChildren m.sched.cur.children).modify
    m.sched.currentIdx
    (fun t => { t with state := .blocked }) := ⟨_, rfl⟩
  have hcount : s'.taskCount = m.sched.taskCount := by
    rw [hs']
    rfl
  have htask : ∀ j, s'.tasks j = { m.sched.tasks j with
      unblockOnExit := m.sched.waker m.sched.cur.children j
      state := if j = m.sched.currentIdx then .blocked else (m.sched.tasks j).state } := by
    intro j
    rw [hs', modify_tasks, registerChildren_tasks]
    split <;> rfl
  rw [← hs'] at ht ⊢
  have hlive : ∀ j, (s'.tasks j).state = .dead ↔ (m.sched.tasks j).state = .dead := by
    intro j
    rw [htask]
    dsimp only
    split
    · next hj =>
        subst hj
        simp only [reduceCtorEq, false_iff]
        exact hcur
    · rfl
  have hlive' : ∀ j, (s'.tasks j).state ≠ .dead → (m.sched.tasks j).state ≠ .dead :=
    fun j hj hd => hj ((hlive j).mpr hd)
  refine ⟨ht, fun hd => h.idle ((hlive 0).mp hd), fun p hp => ?_,
    fun p hp => h.nodup p (hlive' p hp),
    fun p q hp hq => h.disjoint p q (hlive' p hp) (hlive' q hq), fun p hp c hc => ?_,
    fun p hw hb c hc => ?_, fun p hp => h.balance p (hlive' p hp)⟩
  · dsimp only at hp ⊢
    rw [htask]
    exact h.listed p (hlive' p hp)
  · refine (h.held p (hlive' p hp) c hc).congr hcount (fun j => ?_) (hlive _) ?_
    · rw [htask]
    · rw [htask]
  · dsimp only at hw hb ⊢
    have hp : (m.sched.tasks p).state ≠ .dead := hlive' p (by rw [hb]; decide)
    have hheld := h.held p hp c hc
    rw [htask] at hb ⊢
    change m.sched.waker _ _ = _ ∧ _
    unfold waker
    by_cases hpc : p = m.sched.currentIdx
    · -- the children of the task itself are alive and in its list
      subst hpc
      have hmem := h.mem_children hp hc
      have halive := findDead_none (hnone c.pid hmem) hheld.lt hheld.pid
      rw [if_pos ⟨hheld.lt, hheld.pid ▸ hmem, halive⟩]
      have hlt := Nat.lt_of_lt_of_le h.table.cur_lt h.table.count_le
      have hmax : maxTasks = 8 := rfl
      refine ⟨?_, ?_⟩
      · rw [int8, Int.bmod_def]
        omega
      · cases hcode : c.code with
        | none => rfl
        | some code => exact absurd (hheld.ended code hcode).1 halive
    · -- nobody else's child is in that list
      rw [if_neg hpc] at hb
      rw [if_neg]
      · refine h.registered p ?_ hb c hc
        rwa [show (m.answered .blocked).waiting p = m.waiting p from set_of_ne _ _ hpc] at hw
      · rintro ⟨_, hmem, _⟩
        rw [hheld.pid] at hmem
        obtain ⟨d, hd, hdp⟩ := List.mem_map.mp ((h.listed _ hcur).mem_iff.mpr hmem)
        exact h.disjoint p _ hp hcur hpc c hc d hd hdp.symm

/-- A call that fails tells nothing. -/
theorem Accounts.failed (h : Accounts m) : Accounts (m.answered .failed) := by
  refine h.congr rfl (fun _ _ => ⟨rfl, rfl, rfl⟩) fun p _ hw => ?_
  change set m.waiting m.sched.currentIdx false p = true at hw
  by_cases hp : p = m.sched.currentIdx
  · rw [hp, set_self] at hw
    contradiction
  · rwa [set_of_ne _ _ hp] at hw

/-- `waitpid` tells of a dead child, fails or waits. -/
theorem waitpid_accounts {status : Nat} (h : Accounts m) (hs : m.step (.waitpid status) = .ok m') :
    Accounts m' := by
  have hlt : m.sched.currentIdx < maxTasks := Nat.lt_of_lt_of_le h.table.cur_lt h.table.count_le
  simp only [step, bind_eq_ok, Except.ok.injEq] at hs
  obtain ⟨s', hstep, rfl⟩ := hs
  have ht := step_table h.table hstep
  simp only [Sched.step, bind_eq_ok, Except.ok.injEq] at hstep
  obtain ⟨⟨r, s''⟩, hw, rfl⟩ := hstep
  have hnote : m.note (.waitpid status) = m.answered r := by
    simp only [note, answer, hw, told]
  rw [hnote]
  rcases waitpid_ok hlt hw with ⟨rfl, hs, _⟩ | ⟨i, pid, t, hi, hd, rfl, hs⟩ | ⟨rfl, _, hnone, hs⟩
  · dsimp only at hs ⊢
    rw [hs]
    exact h.failed.settled
  · dsimp only at hs ⊢
    rw [hs]
    exact (h.reap hi _).settled
  · dsimp only at hs ht ⊢
    rw [hs] at ht ⊢
    exact (h.block hnone ht).settled

/-- The rest of `waitpid` tells of a dead child, or of none. -/
theorem waitpidResume_accounts (h : Accounts m) (hs : m.step .waitpidResume = .ok m') :
    Accounts m' := by
  have hstep : m.sched.step .waitpidResume = .ok m.sched.waitpidResume.2 := rfl
  simp only [step, hstep, bind_eq_ok, Except.ok.injEq, exists_eq_left'] at hs
  subst hs
  have hnote : m.note .waitpidResume = m.answered m.sched.waitpidResume.1 := rfl
  rw [hnote]
  rcases waitpidResume_ok m.sched with ⟨_, hr⟩ | ⟨i, pid, t, hi, hd, hr⟩
  · rw [hr]
    exact h.failed.settled
  · rw [hr]
    exact (h.reap hi _).settled

/-- An operation that neither creates nor waits. -/
theorem bystander_accounts (h : Accounts m) (hop : op.bystands = true) (hnote : m.note op = m)
    (h0 : m.sched.ends op ≠ some 0)
    (hwait : m.waiting m.sched.currentIdx = true → op.blocks = false)
    (hs : m.step op = .ok m') : Accounts m' := by
  simp only [step, bind_eq_ok, Except.ok.injEq] at hs
  obtain ⟨s', hstep, rfl⟩ := hs
  rw [hnote]
  exact h.calm (step_calm hop h.table hstep) (step_table h.table hstep) h0 hwait
    fun i hi => step_ends h.table hi hstep

/-- **Step**: the scheduler keeps following the ledger. -/
theorem step_accounts (h : Accounts m) (hc : Allowed m op) (hs : m.step op = .ok m') :
    Accounts m' := by
  obtain ⟨⟨h0, hlegal⟩, hclean⟩ := hc
  cases op with
  | init | setUnblockOnExit => exact absurd hlegal not_false
  | addTask => exact addTask_accounts h hclean hs
  | addUserElfTask => exact addUserElfTask_accounts h hclean hs
  | fork => exact fork_accounts h hclean hlegal hs
  | waitpid => exact waitpid_accounts h hs
  | waitpidResume => exact waitpidResume_accounts h hs
  | exec | sleep | blockCurrentTask | exitCurrentTask | deliverSignals | fpu =>
      refine bystander_accounts h rfl rfl h0 (fun hw => ?_) hs
      rw [show m.waiting m.sched.currentIdx = false from hlegal] at hw
      contradiction
  | pitTick | tick | unblockTask | sendSignal | killTask =>
      exact bystander_accounts h rfl rfl h0 (fun _ => rfl) hs

/-- **Every run** keeps the accounts. -/
theorem reach_accounts {tr : List Op} (h : Reach step Allowed (start s₀) tr m) : Accounts m :=
  Reach.inv (P := Accounts) (start_accounts s₀) (fun _ _ _ ha hc hs => step_accounts ha hc hs) h

/-! ## exactly once -/

/-- The task in slot `p` does not end and forks no further child. -/
def Keeps (p : Nat) (m : WaitSys) (op : Op) : Prop :=
  m.sched.ends op ≠ some p ∧ ∀ stack dir, op = .fork stack dir → m.sched.currentIdx ≠ p

/-- What parents can rely on, in runs whose steps meet `C`. -/
structure Waited (C : WaitSys → Op → Prop) (m : WaitSys) : Prop where
  /-- `waitpid` returns only the pid and the exit code of a child that is owed. -/
  owed : ∀ op pid code, m.sched.answer op = some (.reaped pid code) →
    ∃ c ∈ m.ledger m.sched.currentIdx, c.pid = pid ∧ c.code = some code
  /-- The exit code is the one the child exited with. -/
  coded : ∀ code m', m.step (.exitCurrentTask code) = .ok m' → ∀ p, ∀ c ∈ m.ledger p,
    c.slot = m.sched.currentIdx → c.code = none → { c with code := some code } ∈ m'.ledger p
  /-- A call returns as long as a child that has ended is owed. -/
  prompt : ∀ c ∈ m.ledger m.sched.currentIdx, c.code ≠ none → ∀ status < kernelVirtualBase,
    ∃ pid code, m.sched.answer (.waitpid status) = some (.reaped pid code)
  /-- So does a call that had to wait, -/
  resumed : ∀ c ∈ m.ledger m.sched.currentIdx, c.code ≠ none →
    ∃ pid code, m.sched.answer .waitpidResume = some (.reaped pid code)
  /-- and its task is awake by then. -/
  woken : ∀ p, m.waiting p = true → ∀ c ∈ m.ledger p, c.code ≠ none →
    (m.sched.tasks p).state ≠ .blocked
  /-- Nobody waits for nothing. -/
  childless : m.ledger m.sched.currentIdx = [] →
    ∀ status, m.sched.answer (.waitpid status) = some .failed
  /-- While a parent lives and forks no more, its answers and what it is still
  owed are what it was owed before, every child once and with its exit code. -/
  once : ∀ p, (m.sched.tasks p).state ≠ .dead → ((m.ledger p).map Child.pid).Nodup ∧
    ∀ tr m', Reach step (fun a op => C a op ∧ Keeps p a op) m tr m' →
      ∃ since, m'.answers p = m.answers p ++ since ∧
        (since.map Prod.fst ++ (m'.ledger p).map Child.pid).Perm ((m.ledger p).map Child.pid) ∧
        ∀ c ∈ m.ledger p, ∀ code, c.code = some code → c ∈ m'.ledger p ∨ (c.pid, code) ∈ since

/-- What is told was owed. -/
theorem Accounts.answer_owed (h : Accounts m) {pid : Nat} {code : Int}
    (ha : m.sched.answer op = some (.reaped pid code)) :
    ∃ c ∈ m.ledger m.sched.currentIdx, c.pid = pid ∧ c.code = some code := by
  have hlt : m.sched.currentIdx < maxTasks := Nat.lt_of_lt_of_le h.table.cur_lt h.table.count_le
  have hcur := h.table.cur_live
  have hreap : ∀ i pid' t : Nat, m.sched.cur.children[i]? = some pid' →
    m.sched.findDead pid' = some t →
      WaitResult.reaped pid' (m.sched.tasks t).exitCode = .reaped pid code →
      ∃ c ∈ m.ledger m.sched.currentIdx, c.pid = pid ∧ c.code = some code := by
    intro i pid' t hi hd he
    simp only [WaitResult.reaped.injEq] at he
    obtain ⟨rfl, rfl⟩ := he
    exact h.owed hcur (List.mem_of_getElem? hi) hd
  cases op with
  | waitpid status =>
      simp only [answer] at ha
      split at ha
      · next r s' hw =>
          simp only [Option.some.injEq] at ha
          subst ha
          rcases waitpid_ok hlt hw with ⟨he, _⟩ | ⟨i, pid', t, hi, hd, he, _⟩ | ⟨he, _⟩
          · contradiction
          · exact hreap i pid' t hi hd he.symm
          · contradiction
      · contradiction
  | waitpidResume =>
      simp only [answer, Option.some.injEq] at ha
      rcases waitpidResume_ok m.sched with ⟨_, hr⟩ | ⟨i, pid', t, hi, hd, hr⟩
      · rw [hr] at ha
        contradiction
      · rw [hr] at ha
        exact hreap i pid' t hi hd ha
  | init | addTask | addUserElfTask | fork | exec | pitTick | tick | sleep | blockCurrentTask
  | unblockTask | sendSignal | killTask | exitCurrentTask | setUnblockOnExit | deliverSignals
  | fpu => contradiction

/-- The records of a parent after an operation: `since` are its new answers. -/
structure Since (m m' : WaitSys) (p : Nat) (since : List (Nat × Int)) : Prop where
  forks : m'.forks p = m.forks p
  answers : m'.answers p = m.answers p ++ since
  ledger : ∀ c ∈ m.ledger p, ∀ code, c.code = some code → c ∈ m'.ledger p ∨ (c.pid, code) ∈ since

theorem Since.refl (m : WaitSys) (p : Nat) : Since m m p [] :=
  ⟨rfl, (List.append_nil _).symm, fun _ hc _ _ => .inl hc⟩

theorem Since.trans {m₁ : WaitSys} {l l' : List (Nat × Int)} (h : Since m m₁ p l)
    (h' : Since m₁ m' p l') :
    Since m m' p (l ++ l') where
  forks := h'.forks.trans h.forks
  answers := by rw [h'.answers, h.answers, List.append_assoc]
  ledger := by
    intro c hc code hcode
    rcases h.ledger c hc code hcode with hc | hc
    · rcases h'.ledger c hc code hcode with hc | hc
      · exact .inl hc
      · exact .inr (List.mem_append_right _ hc)
    · exact .inr (List.mem_append_left _ hc)

/-- A new task tells nobody anything. -/
theorem born_since (h : Accounts m) (hp : (m.sched.tasks p).state ≠ .dead) :
    Since m m.born p [] := by
  rcases findSlot_cases m.sched with hf | ⟨slot, hf⟩
  · rw [born, hf]
    exact .refl m p
  · have hne : p ≠ slot := by
      rintro rfl
      exact hp (hf.dead h.table)
    rw [born, hf.fst]
    refine ⟨set_of_ne _ _ hne, ?_, fun c hc _ _ => .inl ?_⟩
    · rw [List.append_nil]
      exact set_of_ne _ _ hne
    · dsimp only
      rw [set_of_ne _ _ hne]
      exact hc

/-- A child of another task. -/
theorem enter_since {pid : Nat} (hp : m.sched.currentIdx ≠ p) :
    Since m (m.enter pid slot) p [] := by
  refine ⟨set_of_ne _ _ hp.symm, (List.append_nil _).symm, fun c hc _ _ => .inl ?_⟩
  exact mem_enter.mpr (.inl hc)

/-- An answer to a parent strikes out the child it names and no other. -/
theorem answered_since {r : WaitResult} (h : Accounts m) (hp : (m.sched.tasks p).state ≠ .dead)
    (hr : m.sched.answer op = some r) : ∃ since, Since m (m.answered r) p since := by
  cases r with
  | failed | blocked => exact ⟨[], rfl, (List.append_nil _).symm, fun _ hc _ _ => .inl hc⟩
  | reaped pid code =>
      by_cases hpc : p = m.sched.currentIdx
      · subst hpc
        refine ⟨[(pid, code)], rfl, set_self _ _ _, fun c hc code' hcode => ?_⟩
        change c ∈ set m.ledger _ _ _ ∨ _
        rw [set_self]
        by_cases hpid : c.pid = pid
        · obtain ⟨d, hd, hdpid, hdcode⟩ := h.answer_owed hr
          have hsame : c = d :=
            List.inj_on_of_nodup_map (h.nodup _ hp) hc hd (hpid.trans hdpid.symm)
          rw [hsame, hdcode, Option.some.injEq] at hcode
          rw [hpid, hcode]
          exact .inr List.mem_cons_self
        · exact .inl ((List.mem_eraseP_of_neg (by simpa using hpid)).mpr hc)
      · refine ⟨[], rfl, ?_, fun c hc _ _ => .inl ?_⟩
        · rw [List.append_nil]
          exact set_of_ne _ _ hpc
        · change c ∈ set m.ledger _ _ _
          rw [set_of_ne _ _ hpc]
          exact hc

/-- What one operation tells a task. -/
theorem note_since (h : Accounts m) (hp : (m.sched.tasks p).state ≠ .dead) (hk : Keeps p m op) :
    ∃ since, Since m (m.note op) p since := by
  have hanswer : ∀ op, ∃ since, Since m (m.told (m.sched.answer op)) p since := by
    intro op
    cases hr : m.sched.answer op with
    | some r => exact answered_since h hp hr
    | none => exact ⟨[], .refl m p⟩
  cases op with
  | addTask | addUserElfTask => exact ⟨[], born_since h hp⟩
  | fork stack dir =>
      simp only [note]
      split
      · next pid slot _ _ =>
          have hne : m.born.sched.currentIdx ≠ p := by
            rw [born_sched]
            exact hk.2 stack dir rfl
          exact ⟨[] ++ [], (born_since h hp).trans (enter_since hne)⟩
      · exact ⟨[], born_since h hp⟩
  | waitpid status => exact hanswer (.waitpid status)
  | waitpidResume => exact hanswer .waitpidResume
  | init | exec | pitTick | tick | sleep | blockCurrentTask | unblockTask | sendSignal | killTask
  | exitCurrentTask | setUnblockOnExit | deliverSignals | fpu => exact ⟨[], .refl m p⟩

/-- What one step tells a task. -/
theorem step_since (h : Accounts m) (hp : (m.sched.tasks p).state ≠ .dead) (hk : Keeps p m op)
    (hs : m.step op = .ok m') : ∃ since, Since m m' p since := by
  simp only [step, bind_eq_ok, Except.ok.injEq] at hs
  obtain ⟨s', _, rfl⟩ := hs
  obtain ⟨since, hsince⟩ := note_since h hp hk
  refine ⟨since, hsince.forks, hsince.answers, fun c hc code hcode => ?_⟩
  rcases hsince.ledger c hc code hcode with hc | hc
  · left
    have hsettled : settle s' c = c := if_neg fun hno => by
      rw [hcode] at hno
      exact absurd hno.1 (by simp)
    exact List.mem_map.mpr ⟨c, hc, hsettled⟩
  · exact .inr hc

/-- **Run**: what a parent is told while it lives and forks no more. -/
theorem reach_since {tr : List Op} (h : Accounts m) (hp : (m.sched.tasks p).state ≠ .dead)
    (hr : Reach step (fun a op => Allowed a op ∧ Keeps p a op) m tr m') :
    Accounts m' ∧ (m'.sched.tasks p).state ≠ .dead ∧ ∃ since, Since m m' p since := by
  refine Reach.inv (P := fun m' => Accounts m' ∧ (m'.sched.tasks p).state ≠ .dead ∧ ∃ since,
    Since m m' p since)
    ⟨h, hp, [], .refl m p⟩ ?_ hr
  rintro a op b ⟨ha, hlive, since, hsince⟩ ⟨hc, hk⟩ hs
  obtain ⟨new, hnew⟩ := step_since ha hlive hk hs
  refine ⟨step_accounts ha hc hs, ?_, since ++ new, hsince.trans hnew⟩
  simp only [step, bind_eq_ok, Except.ok.injEq] at hs
  obtain ⟨s', hstep, rfl⟩ := hs
  refine step_lives ?_ ha.table hlive hk.1 hstep
  rintro rfl
  exact hc.1.2

/-- A parent's ledger says what `waitpid` does. -/
theorem Accounts.waited (h : Accounts m) : Waited Allowed m where
  owed := fun op pid code ha => h.answer_owed ha
  coded := by
    intro code m' hs p c hc hslot hcode
    simp only [step, bind_eq_ok, Except.ok.injEq] at hs
    obtain ⟨s', hexit, rfl⟩ := hs
    have hdead := (exit_ended hexit).dead
    have hsettled : settle s' c = { c with code := some code } := by
      rw [settle, hslot, if_pos ⟨hcode, hdead⟩, exit_exitCode hexit]
    exact List.mem_map.mpr ⟨c, hc, hsettled⟩
  prompt := by
    intro c hc hcode status hstatus
    obtain ⟨code, hcode⟩ := Option.ne_none_iff_exists'.mp hcode
    obtain ⟨t, ht⟩ := h.found h.table.cur_live hc hcode
    obtain ⟨pid, code', s', hw⟩ :=
      waitpid_prompt (Nat.lt_of_lt_of_le h.table.cur_lt h.table.count_le)
      hstatus (h.mem_children h.table.cur_live hc) ht
    exact ⟨pid, code', by simp only [answer, hw]⟩
  resumed := by
    intro c hc hcode
    obtain ⟨code, hcode⟩ := Option.ne_none_iff_exists'.mp hcode
    obtain ⟨t, ht⟩ := h.found h.table.cur_live hc hcode
    obtain ⟨pid, code', hw⟩ := waitpidResume_prompt (h.mem_children h.table.cur_live hc) ht
    exact ⟨pid, code', congrArg some hw⟩
  woken := fun p hw c hc hcode hb => hcode (h.registered p hw hb c hc).2
  childless := by
    intro hnil status
    have hempty : m.sched.cur.children = [] := by
      have hlisted := h.listed _ h.table.cur_live
      rw [hnil] at hlisted
      exact List.nil_perm.mp hlisted
    simp only [answer, waitpid_childless status hempty]
  once := by
    intro p hp
    refine ⟨h.nodup p hp, fun tr m' hr => ?_⟩
    obtain ⟨h', hp', since, hsince⟩ := reach_since h hp hr
    refine ⟨since, hsince.answers, ?_, hsince.ledger⟩
    have hbal := h'.balance p hp'
    rw [hsince.forks, hsince.answers, List.map_append, List.append_assoc] at hbal
    exact (List.perm_append_left_iff _).mp (hbal.trans (h.balance p hp).symm)

/-- **Every child is waited for exactly once**: in every run whose steps meet
`Allowed`, parents can rely on `waitpid`. -/
theorem waited_exactly_once {tr : List Op} (h : Reach step Allowed (start s₀) tr m) :
    Waited Allowed m :=
  (reach_accounts h).waited

/-- The task in slot 1 forks a child, which exits with code 7. -/
def exitRun : List Op :=
  [.addUserElfTask 0x8000 (some fun _ => 0) 0x1000 (some {}), .tick 0 {} true, .pitTick,
    .tick 0 {} true, .fork 0xA000 0x2000, .pitTick, .tick 0 {} true, .exitCurrentTask 7]

/-- A child exits and is waited for. -/
theorem waited_exactly_once_exitRun :
    ∃ m : WaitSys, Reach step Allowed (start { syscallFrameEsp := 0x9000 })
      (exitRun ++ [.waitpid 0]) m ∧
      m.answers 1 = [(1, 7)] ∧ m.ledger 1 = [] ∧ Waited Allowed m := by
  obtain ⟨m, hr, hp⟩ := Reach.of_runsTo step Allowed (start { syscallFrameEsp := 0x9000 })
    (exitRun ++ [.waitpid 0]) (fun m => m.answers 1 = [(1, 7)] ∧ m.ledger 1 = []) (by decide)
  obtain ⟨ha, hl⟩ := of_decide_eq_true hp
  exact ⟨m, hr, ha, hl, waited_exactly_once hr⟩

/-- **Forgotten exit**: a new task is put into the slot of the dead child, and
the parent's `waitpid` blocks although the child has ended. -/
theorem waitpid_forgets :
    ∃ m : WaitSys, Reach step Legal (start { syscallFrameEsp := 0x9000 })
      (exitRun ++ [.addTask true 0x1000 0 Task.priorityNormal 0xC000]) m ∧ ¬ Waited Legal m := by
  obtain ⟨m, hr, hp⟩ := Reach.of_runsTo step Legal (start { syscallFrameEsp := 0x9000 })
    (exitRun ++ [.addTask true 0x1000 0 Task.priorityNormal 0xC000])
    (fun m => m.ledger m.sched.currentIdx = [⟨1, 2, some 7⟩] ∧
      m.sched.answer (.waitpid 0) = some .blocked) (by decide)
  obtain ⟨hl, hb⟩ := of_decide_eq_true hp
  refine ⟨m, hr, fun hw => ?_⟩
  obtain ⟨pid, code, ha⟩ := hw.prompt ⟨1, 2, some 7⟩ (by rw [hl]; exact List.mem_cons_self) nofun 0
    (by decide)
  rw [hb] at ha
  exact absurd ha (by simp)

end WaitSys

end Doors
