import Doors.Lib.Run
import Doors.Memory.Fork
import Doors.Process.Exec

/-!
# Doors.Process.Spaces

The address spaces of all tasks, over whole runs of the system.

A `Family` is the memory with the directory of the kernel and those of the tasks.  An operation
is what the kernel does for a task: mapping a page with contents (the stack, a page of an ELF
file), giving pages up, a new task, `fork`, an exit, and a store of the task, which may fault.

* `sane_run` — the directories stay well formed: no page twice in one, and what a task may write
  in no other;
* `accounts_run` — every frame is counted as often as it is referred to, and free without a
  reference.
-/

namespace Doors

open Memory Phys Run

/-- The memory and the page directories in it; that of the kernel is among them. -/
structure Family where
  phys : Phys
  kernelDir : Nat
  dirs : List Nat

inductive SpaceOp where
  /-- A page of `dir` with these bytes. -/
  | map (dir v : Nat) (bytes : Nat → BitVec 8)
  | unmap (dir v : Nat)
  /-- The pages around `v`, before a file is loaded. -/
  | clear (dir v : Nat)
  /-- `addUserTask` and `addUserElfTask`. -/
  | spawn
  | fork (dir : Nat)
  | exit (dir : Nat)
  /-- The task with the directory `dir` stores a byte. -/
  | store (dir x : Nat) (b : BitVec 8)

namespace Memory.Phys

variable (st : Phys)

/-- The bytes of a frame, written by its physical address. -/
def fillFrame (f : Nat) (bytes : Nat → BitVec 8) : Phys :=
  { st with mem := fun x => if f ≤ x ∧ x < f + pageSize then bytes (x - f) else st.mem x }

/-- Whether the processor lets a task with the directory `dir` write at `x`. -/
def mayStore (dir x : Nat) : Bool :=
  let pde := st.entry dir (pdeIdx x)
  let pte := st.entry (addr pde) (pteIdx x)
  present pde && user pde && writable pde && present pte && user pte && writable pte

def poke (dir x : Nat) (b : BitVec 8) : Phys :=
  { st with
    mem :=
      Function.update st.mem
      (addr (st.entry (addr (st.entry dir (pdeIdx x))) (pteIdx x)) + x % pageSize) b }

/-- A store of a task.  A page fault goes to `handleCowFault`, and when that serves it, the
store is tried again; a task that faults again is killed. -/
def userStore (dir x : Nat) (b : BitVec 8) : Bool × Phys :=
  if st.mayStore dir x then (true, st.poke dir x b)
  else
    match st.handleCowFault x dir with
    | (true, st) => if st.mayStore dir x then (true, st.poke dir x b) else (false, st)
    | (false, st) => (false, st)

end Memory.Phys

namespace Family

variable (F : Family)

/-- What an operation does, and its result: `none` when it fails, and the directory of a new
task. -/
def step : SpaceOp → Option Nat × Family
  | .map dir v bytes =>
      match allocAndMapUserPage v dir F.phys with
      | (some f, st) => (some f, { F with phys := st.fillFrame f bytes })
      | (none, st) => (none, { F with phys := st })
  | .unmap dir v => (some 0, { F with phys := F.phys.unmapPage dir v })
  | .clear dir v =>
      (if F.phys.free = [] then none else some 0, { F with phys := F.phys.clearPageTable dir v })
  | .spawn =>
      match F.phys.clonePageDir F.kernelDir with
      | (0, st) => (none, { F with phys := st })
      | (pd, st) => (some pd, { F with phys := st, dirs := pd :: F.dirs })
  | .fork dir =>
      match F.phys.forkDir dir with
      | (0, st) => (none, { F with phys := st })
      | (pd, st) => (some pd, { F with phys := st, dirs := pd :: F.dirs })
  | .exit dir => (some 0, { F with phys := exitMemory dir F.phys, dirs := F.dirs.erase dir })
  | .store dir x b =>
      match F.phys.userStore dir x b with
      | (true, st) => (some 0, { F with phys := st })
      | (false, st) => (none, { F with phys := st })

/-- An operation on the page of `v`, which is no page of the kernel. -/
def UserPage (dir v : Nat) : Prop :=
  dir ∈ F.dirs ∧ v < 2 ^ 32 ∧
    (present (F.phys.entry dir (pdeIdx v)) = true → user (F.phys.entry dir (pdeIdx v)) = true)

/-- What the callers see to: a directory that there is, a slot for a new task, and no exit and
no store with the directory of the kernel. -/
def Allowed : SpaceOp → Prop
  | .map dir v _ | .unmap dir v | .clear dir v => F.UserPage dir v
  | .spawn => F.dirs.length ≤ Scheduler.maxTasks
  | .fork dir => dir ∈ F.dirs ∧ F.dirs.length ≤ Scheduler.maxTasks
  | .exit dir => dir ∈ F.dirs ∧ dir ≠ F.kernelDir
  | .store dir x _ => dir ∈ F.dirs ∧ dir ≠ F.kernelDir ∧ x < 2 ^ 32

end Family

/-! ## the entries of all directories -/

/-- No directory has a frame at two pages. -/
def Once (dirs : List Nat) (s : Nat → Nat → Nat → Nat) : Prop :=
  ∀ d ∈ dirs, ∀ i < pteCount, ∀ j < pteCount, ∀ i' < pteCount, ∀ j' < pteCount,
    present (s d i j) = true →
    present (s d i' j') = true → addr (s d i j) = addr (s d i' j') → i = i' ∧ j = j'

/-- What a task may write, no other directory has. -/
def Sole (dirs : List Nat) (kernelDir : Nat) (s : Nat → Nat → Nat → Nat) : Prop :=
  ∀ d ∈ dirs, d ≠ kernelDir → ∀ i < pteCount, ∀ j < pteCount, present (s d i j) = true →
    writable (s d i j) = true →
    cow (s d i j) = false ∧ ∀ d' ∈ dirs, ∀ i' < pteCount, ∀ j' < pteCount,
      present (s d' i' j') = true →
      addr (s d' i' j') = addr (s d i j) → d' = d

/-- **The invariant** of the entries. -/
structure Fair (dirs : List Nat) (kernelDir : Nat) (s : Nat → Nat → Nat → Nat) : Prop where
  once : Once dirs s
  sole : Sole dirs kernelDir s

variable {dirs dirs' : List Nat} {s s' : Nat → Nat → Nat → Nat} {d d' e i j k pd : Nat}

/-- Slots that stay. -/
theorem Fair.congr (h : Fair dirs k s)
    (heq : ∀ d ∈ dirs, ∀ i < pteCount, ∀ j < pteCount, s' d i j = s d i j) : Fair dirs k s' := by
  constructor
  · intro d hd i hi j hj i' hi' j' hj'
    rw [heq d hd i hi j hj, heq d hd i' hi' j' hj']
    exact h.once d hd i hi j hj i' hi' j' hj'
  · intro d hd hk i hi j hj hp hw
    rw [heq d hd i hi j hj] at hp hw ⊢
    obtain ⟨hc, hall⟩ := h.sole d hd hk i hi j hj hp hw
    refine ⟨hc, fun d' hd' i' hi' j' hj' => ?_⟩
    rw [heq d' hd' i' hi' j' hj']
    exact hall d' hd' i' hi' j' hj'

/-- Fewer directories. -/
theorem Fair.mono (h : Fair dirs k s) (hsub : ∀ d ∈ dirs', d ∈ dirs) : Fair dirs' k s :=
  ⟨fun d hd => h.once d (hsub d hd), fun d hd hk i hi j hj hp hw => by
    obtain ⟨hc, hall⟩ := h.sole d (hsub d hd) hk i hi j hj hp hw
    exact ⟨hc, fun d' hd' => hall d' (hsub d' hd')⟩⟩

/-- Entries that are taken away. -/
theorem Fair.drop (h : Fair dirs k s)
    (hsub : ∀ d i j, present (s' d i j) = true → s d i j = s' d i j) : Fair dirs k s' := by
  constructor
  · intro d hd i hi j hj i' hi' j' hj' hp hp' haddr
    have h₁ := hsub d i j hp
    have h₂ := hsub d i' j' hp'
    exact h.once d hd i hi j hj i' hi' j' hj' (by rw [h₁]; exact hp) (by rw [h₂]; exact hp')
      (by rw [h₁, h₂]; exact haddr)
  · intro d hd hk i hi j hj hp hw
    have h₁ := hsub d i j hp
    obtain ⟨hc, hall⟩ := h.sole d hd hk i hi j hj (by rw [h₁]; exact hp) (by rw [h₁]; exact hw)
    rw [h₁] at hc hall
    refine ⟨hc, fun d' hd' i' hi' j' hj' hp' haddr => ?_⟩
    have h₂ := hsub d' i' j' hp'
    exact hall d' hd' i' hi' j' hj' (by rw [h₂]; exact hp') (by rw [h₂]; exact haddr)

/-- An entry for a frame that no other entry has. -/
theorem Fair.set (h : Fair dirs k s) (hc : cow e = false)
    (halone : ∀ d' ∈ dirs, ∀ i' < pteCount, ∀ j' < pteCount, ¬ (d' = d ∧ i' = i ∧ j' = j) →
    present (s d' i' j') = true → addr (s d' i' j') ≠ addr e) :
    Fair dirs k (setSlot s d i j e) := by
  have hcase : ∀ d' i' j', (d' = d ∧ i' = i ∧ j' = j) ∧ setSlot s d i j e d' i' j' = e ∨
      ¬ (d' = d ∧ i' = i ∧ j' = j) ∧ setSlot s d i j e d' i' j' = s d' i' j' := by
    intro d' i' j'
    by_cases hat : d' = d ∧ i' = i ∧ j' = j
    · exact .inl ⟨hat, if_pos hat⟩
    · exact .inr ⟨hat, if_neg hat⟩
  constructor
  · intro d₁ hd₁ i₁ hi₁ j₁ hj₁ i₂ hi₂ j₂ hj₂ hp₁ hp₂ haddr
    rcases hcase d₁ i₁ j₁ with ⟨hat₁, heq₁⟩ | ⟨hne₁, heq₁⟩
    · rcases hcase d₁ i₂ j₂ with ⟨hat₂, heq₂⟩ | ⟨hne₂, heq₂⟩
      · exact ⟨hat₁.2.1.trans hat₂.2.1.symm, hat₁.2.2.trans hat₂.2.2.symm⟩
      · rw [heq₂] at hp₂ haddr
        rw [heq₁] at haddr
        exact absurd haddr.symm (halone d₁ hd₁ i₂ hi₂ j₂ hj₂ hne₂ hp₂)
    · rw [heq₁] at hp₁ haddr
      rcases hcase d₁ i₂ j₂ with ⟨hat₂, heq₂⟩ | ⟨hne₂, heq₂⟩
      · rw [heq₂] at haddr
        exact absurd haddr (halone d₁ hd₁ i₁ hi₁ j₁ hj₁ hne₁ hp₁)
      · rw [heq₂] at hp₂ haddr
        exact h.once d₁ hd₁ i₁ hi₁ j₁ hj₁ i₂ hi₂ j₂ hj₂ hp₁ hp₂ haddr
  · intro d₁ hd₁ hk i₁ hi₁ j₁ hj₁ hp₁ hw₁
    rcases hcase d₁ i₁ j₁ with ⟨hat₁, heq₁⟩ | ⟨hne₁, heq₁⟩
    · rw [heq₁] at hp₁ hw₁ ⊢
      refine ⟨hc, fun d₂ hd₂ i₂ hi₂ j₂ hj₂ hp₂ haddr => ?_⟩
      rcases hcase d₂ i₂ j₂ with ⟨hat₂, heq₂⟩ | ⟨hne₂, heq₂⟩
      · rw [hat₁.1, hat₂.1]
      · rw [heq₂] at hp₂ haddr
        exact absurd haddr (halone d₂ hd₂ i₂ hi₂ j₂ hj₂ hne₂ hp₂)
    · rw [heq₁] at hp₁ hw₁ ⊢
      obtain ⟨hc₁, hall⟩ := h.sole d₁ hd₁ hk i₁ hi₁ j₁ hj₁ hp₁ hw₁
      refine ⟨hc₁, fun d₂ hd₂ i₂ hi₂ j₂ hj₂ hp₂ haddr => ?_⟩
      rcases hcase d₂ i₂ j₂ with ⟨hat₂, heq₂⟩ | ⟨hne₂, heq₂⟩
      · rw [heq₂] at haddr
        exact absurd haddr.symm (halone d₁ hd₁ i₁ hi₁ j₁ hj₁ hne₁ hp₁)
      · rw [heq₂] at hp₂ haddr
        exact hall d₂ hd₂ i₂ hi₂ j₂ hj₂ hp₂ haddr

/-- A protected page may not be written. -/
theorem protect_rights (hp : present e = true) : writable (protect e) = false := by
  unfold protect writable pageRw pageCow
  rw [decide_eq_false_iff_not]
  split
  · next h =>
      obtain ⟨-, hw⟩ := h
      split
      · omega
      · omega
  · next h =>
      rw [not_and] at h
      exact h hp

/-- A shared page may not be written. -/
theorem share_rights (hp : present e = true) (hc : writable e = true → cow e = false) :
    writable (share e) = false := by
  unfold share
  split
  · next h =>
      obtain ⟨-, hw, hno⟩ := h
      unfold writable cow pageRw pageCow at *
      simp only [decide_eq_true_eq, decide_eq_false_iff_not] at *
      omega
  · next h =>
      by_contra hw
      rw [Bool.not_eq_false] at hw
      exact h ⟨hp, hw, by rw [hc hw]; decide⟩

/-- What a task may write, at once or after a fault. -/
def mayWrite (e : Nat) : Bool := writable e || cow e

/-- Entries that a task cannot tell apart, but for the faults. -/
structure Alike (e e' : Nat) : Prop where
  present : present e' = present e
  addr : addr e' = addr e
  user : user e' = user e
  mayWrite : mayWrite e' = mayWrite e

theorem Alike.refl (e : Nat) : Alike e e := ⟨rfl, rfl, rfl, rfl⟩

/-- Protection keeps the page. -/
theorem protect_alike (e : Nat) : Alike e (protect e) := by
  refine ⟨(protect_same e).1, (protect_same e).2, ?_, ?_⟩
  · unfold protect Memory.user pageRw pageCow pageUser
    split
    · next h =>
        obtain ⟨-, hw⟩ := h
        rw [decide_eq_decide]
        split
        · omega
        · omega
    · rfl
  · unfold protect mayWrite Memory.writable cow pageRw pageCow
    split
    · next h =>
        obtain ⟨-, hw⟩ := h
        have hcow : (e - 2 + if e / 512 % 2 = 1 then 0 else 512) / 512 % 2 = 1 := by
          split
          · omega
          · omega
        simp only [hw, hcow, decide_true, Bool.or_true, Bool.true_or]
    · rfl

/-- Sharing keeps the page. -/
theorem share_alike (e : Nat) : Alike e (share e) := by
  refine ⟨(share_same e).1, (share_same e).2.1, (share_same e).2.2, ?_⟩
  unfold share
  split
  · next h =>
      obtain ⟨-, hw, hno⟩ := h
      have hcow : cow (e - pageRw + pageCow) = true := by
        unfold Memory.writable cow pageRw pageCow at *
        simp only [decide_eq_true_eq] at *
        omega
      unfold mayWrite
      rw [hw, hcow, Bool.or_true, Bool.true_or]
  · rfl

/-- One more directory, with the frames of `d`, none of which may be written by `d` or by the
new one. -/
theorem Fair.copy (h : Fair dirs k s) (hd : d ∈ dirs)
    (hold : ∀ d' ∈ dirs, ∀ i < pteCount, ∀ j < pteCount, Alike (s d' i j) (s' d' i j))
    (hnew : ∀ i < pteCount, ∀ j < pteCount, Alike (s d i j) (s' pd i j))
    (hw : ∀ d' ∈ pd :: dirs, d' ≠ k → ∀ i < pteCount, ∀ j < pteCount, present (s' d' i j) = true →
    writable (s' d' i j) = true →
      d' ∈ dirs ∧ d' ≠ d ∧ s' d' i j = s d' i j) : Fair (pd :: dirs) k s' := by
  have hsrc : ∀ d' ∈ pd :: dirs, ∃ d₀ ∈ dirs, (d' = pd ∧ d₀ = d ∨ d₀ = d') ∧ ∀ i < pteCount,
      ∀ j < pteCount, Alike (s d₀ i j) (s' d' i j) := by
    intro d' hd'
    rcases List.mem_cons.mp hd' with rfl | hd'
    · exact ⟨d, hd, .inl ⟨rfl, rfl⟩, hnew⟩
    · exact ⟨d', hd', .inr rfl, hold d' hd'⟩
  constructor
  · intro d₁ hd₁ i hi j hj i' hi' j' hj' hp hp' haddr
    obtain ⟨d₀, hd₀, -, hlike⟩ := hsrc d₁ hd₁
    have h₁ := hlike i hi j hj
    have h₂ := hlike i' hi' j' hj'
    rw [h₁.present] at hp
    rw [h₂.present] at hp'
    rw [h₁.addr, h₂.addr] at haddr
    exact h.once d₀ hd₀ i hi j hj i' hi' j' hj' hp hp' haddr
  · intro d₁ hd₁ hk i hi j hj hp hwr
    obtain ⟨hd₁', hne, heq⟩ := hw d₁ hd₁ hk i hi j hj hp hwr
    rw [heq] at hp hwr ⊢
    obtain ⟨hc, hall⟩ := h.sole d₁ hd₁' hk i hi j hj hp hwr
    refine ⟨hc, fun d₂ hd₂ i' hi' j' hj' hp' haddr => ?_⟩
    obtain ⟨d₀, hd₀, hwhich, hlike⟩ := hsrc d₂ hd₂
    have h₂ := hlike i' hi' j' hj'
    rw [h₂.present] at hp'
    rw [h₂.addr] at haddr
    have howner := hall d₀ hd₀ i' hi' j' hj' hp' haddr
    rcases hwhich with ⟨-, hsame⟩ | hsame
    · exact absurd (howner.symm.trans hsame) hne
    · exact hsame.symm.trans howner

/-- The directory of a new task has the pages of the kernel. -/
theorem Fair.clone (h : Fair dirs k s) (hk : k ∈ dirs) (hpd : pd ∉ dirs) :
    Fair (pd :: dirs) k (cloneSlots s k pd) := by
  have hne : ∀ d' ∈ dirs, d' ≠ pd := fun d' hd' heq => hpd (heq ▸ hd')
  have hother : ∀ d' ∈ dirs, ∀ i j, cloneSlots s k pd d' i j = s d' i j :=
    fun d' hd' i j => if_neg (hne d' hd')
  have hself : ∀ i j, cloneSlots s k pd pd i j = protect (s k i j) := fun i j => if_pos rfl
  refine h.copy hk (fun d' hd' i hi j hj => ?_) (fun i hi j hj => ?_)
    fun d' hd' hdk i hi j hj hp hw => ?_
  · rw [hother d' hd']
    exact .refl _
  · rw [hself]
    exact protect_alike _
  · rcases List.mem_cons.mp hd' with rfl | hd'
    · rw [hself] at hp hw
      rw [protect_rights ((protect_alike _).present.symm.trans hp)] at hw
      exact absurd hw (by decide)
    · exact ⟨hd', hdk, hother d' hd' i j⟩

/-- After `fork` neither the parent nor the child may write what they share. -/
theorem Fair.fork (h : Fair dirs k s) (hd : d ∈ dirs) (hpd : pd ∉ dirs) :
    Fair (pd :: dirs) k (forkSlots s d pd) := by
  have hnpd : ∀ d' ∈ dirs, d' ≠ pd := fun d' hd' heq => hpd (heq ▸ hd')
  have hdpd := hnpd d hd
  have hparent : ∀ i j, forkSlots s d pd d i j = share (s d i j) := fun i j => by
    unfold forkSlots shareSlots cloneSlots
    rw [if_pos rfl, if_neg hdpd]
  have hchild : ∀ i j, forkSlots s d pd pd i j = protect (s d i j) := fun i j => by
    unfold forkSlots shareSlots cloneSlots
    rw [if_neg hdpd.symm, if_pos rfl]
  have hother : ∀ d' ∈ dirs, d' ≠ d → ∀ i j, forkSlots s d pd d' i j = s d' i j :=
    fun d' hd' hne i j => by
    unfold forkSlots shareSlots cloneSlots
    rw [if_neg hne, if_neg (hnpd d' hd')]
  refine h.copy hd (fun d' hd' i hi j hj => ?_) (fun i hi j hj => ?_)
    fun d' hd' hdk i hi j hj hp hw => ?_
  · by_cases hdd : d' = d
    · rw [hdd, hparent]
      exact share_alike _
    · rw [hother d' hd' hdd]
      exact .refl _
  · rw [hchild]
    exact protect_alike _
  · rcases List.mem_cons.mp hd' with rfl | hd'
    · rw [hchild] at hp hw
      rw [protect_rights ((protect_alike _).present.symm.trans hp)] at hw
      exact absurd hw (by decide)
    · by_cases hdd : d' = d
      · rw [hdd] at hdk hp hw
        rw [hparent] at hp hw
        have hp' := (share_alike _).present.symm.trans hp
        rw [share_rights hp' fun hw' => (h.sole d hd hdk i hi j hj hp' hw').1] at hw
        exact absurd hw (by decide)
      · exact ⟨hd', hdd, hother d' hd' hdd i j⟩

/-! ## how often a frame is mapped -/

/-- A sum with at most one summand that has `g`, and that once. -/
theorem count_sum_le_one {g n : Nat} (P Q : Nat → Multiset Nat) (hP : ∀ n, P (n + 1) = Q n + P n)
    (hzero : P 0 = 0)
    (hone : ∀ i < n, (Q i).count g ≤ 1) (hinj : ∀ i < n, ∀ i' < n, g ∈ Q i → g ∈ Q i' → i = i') :
    (P n).count g ≤ 1 ∧ (g ∈ P n → ∃ i < n, g ∈ Q i) := by
  induction n with
  | zero =>
      exact ⟨by rw [hzero, Multiset.count_zero]; omega,
        fun hg => absurd hg (by rw [hzero]; exact Multiset.notMem_zero g)⟩
  | succ n ih =>
      obtain ⟨hle, hmem⟩ := ih (fun i hi => hone i (by omega)) fun i hi i' hi' =>
        hinj i (by omega) i' (by omega)
      rw [hP, Multiset.count_add]
      constructor
      · by_cases hg : g ∈ Q n
        · have hno : g ∉ P n := fun hin => by
            obtain ⟨i, hi, hin⟩ := hmem hin
            have heq := hinj i (by omega) n (by omega) hin hg
            omega
          rw [Multiset.count_eq_zero.mpr hno]
          exact hone n (by omega)
        · rw [Multiset.count_eq_zero.mpr hg]
          omega
      · intro hin
        rcases Multiset.mem_add.mp hin with hg | hg
        · exact ⟨n, by omega, hg⟩
        · obtain ⟨i, hi, hg⟩ := hmem hg
          exact ⟨i, by omega, hg⟩

variable {M : Set Nat} {st st' : Phys} {mem : Nat → BitVec 8} {live held : Multiset Nat}
  {a f g v x : Nat} {b : BitVec 8}

/-- A directory with no frame twice. -/
theorem count_dirPages_le_one (h : ∀ i < pteCount, ∀ j < pteCount, ∀ i' < pteCount, ∀ j' < pteCount,
    present (pteAt mem d i j) = true →
    present (pteAt mem d i' j') = true → addr (pteAt mem d i j) = addr (pteAt mem d i' j') →
      i = i' ∧ j = j') (g : Nat) :
    (dirPages mem d pteCount).count g ≤ 1 := by
  refine (count_sum_le_one (dirPages mem d) (fun i => pageRefs mem (word mem (d + 4 * i)))
    (dirPages_succ mem d) (dirPages_zero mem d)
    (fun i hi => ?_) fun i hi i' hi' hg hg' => ?_).1
  · unfold pageRefs
    split
    · next hu =>
        refine (count_sum_le_one (tableRefs mem (addr (word mem (d + 4 * i))))
          (fun j => entryRefs (word mem (addr (word mem (d + 4 * i)) + 4 * j)))
          (tableRefs_succ mem _) (tableRefs_zero mem _) (fun j _ => ?_) fun j hj j' hj' hg hg' =>
            ?_).1
        · unfold entryRefs
          split
          · exact Multiset.nodup_iff_count_le_one.mp (Multiset.nodup_singleton _) g
          · rw [Multiset.count_zero]
            omega
        · rw [← pteAt_user hu, mem_entryRefs] at hg hg'
          exact (h i hi j hj i hi j' hj' hg.1 hg'.1 (hg.2.symm.trans hg'.2)).2
    · rw [Multiset.count_zero]
      omega
  · obtain ⟨j, hj, hg⟩ := mem_pageRefs.mp hg
    obtain ⟨j', hj', hg'⟩ := mem_pageRefs.mp hg'
    rw [mem_entryRefs] at hg hg'
    exact (h i hi j hj i' hi' j' hj' hg.1 hg'.1 (hg.2.symm.trans hg'.2)).1

/-- No more references than directories. -/
theorem count_mapped_le (h : Once dirs (pteAt mem)) (g : Nat) :
    (mapped mem ↑dirs).count g ≤ dirs.length := by
  induction dirs with
  | nil => simp [mapped]
  | cons d dirs ih =>
      have hd := count_dirPages_le_one (fun i hi j hj => h d (List.mem_cons_self ..) i hi j hj) g
      have hrest := ih fun d' hd' => h d' (List.mem_cons_of_mem _ hd')
      rw [← Multiset.cons_coe, mapped_cons, Multiset.count_add, List.length_cons]
      omega

/-- **There is room for one more reference** to what a directory maps. -/
theorem Once.room (h : Once dirs (pteAt st.mem)) (hS : Spaces M ↑dirs 0 st) (hd : d ∈ dirs)
    (hfew : dirs.length ≤ Scheduler.maxTasks) :
    Room (refsOf st.mem ↑dirs 0) st.mem d := by
  intro g hg
  have hm : g ∈ mapped st.mem ↑dirs := mem_pages hd hg
  have hno : (structs st.mem ↑dirs).count g = 0 :=
    Multiset.count_eq_zero.mpr (hS.no_struct (Multiset.mem_add.mpr (.inl hm)))
  have hle := count_mapped_le h g
  have hone := count_dirPages_le_one (h d hd) g
  rw [refsOf, Multiset.count_add, Multiset.count_add, hno, Multiset.count_zero]
  unfold Scheduler.maxTasks at hfew
  unfold maxRefcount
  omega

/-- A frame with one reference is in one directory. -/
theorem mapped_one (hone : (refsOf mem live held).count g = 1) (hd : d ∈ live)
    (hg : g ∈ dirPages mem d pteCount) (hd' : d' ∈ live)
    (hg' : g ∈ dirPages mem d' pteCount) : d' = d := by
  by_contra hne
  obtain ⟨rest, rfl⟩ := Multiset.exists_cons_of_mem hd
  obtain ⟨rest', rfl⟩ := Multiset.exists_cons_of_mem ((Multiset.mem_cons.mp hd').resolve_left hne)
  rw [refsOf, Multiset.count_add, Multiset.count_add, mapped_cons, mapped_cons, Multiset.count_add,
    Multiset.count_add] at hone
  have h₁ := Multiset.count_pos.mpr hg
  have h₂ := Multiset.count_pos.mpr hg'
  omega

/-! ## mapping a page -/

/-- An operation that changed nothing but a frame `f` without structures. -/
theorem Memory.Remapped.touch {s : Nat → Nat → Nat → Nat} {held' : Multiset Nat}
    (h : Remapped M live held live held' st st' s)
    {st'' : Phys} (hexact : Exact M (refsOf st'.mem live held') st'') (hfal : f % pageSize = 0)
    (hf : f ∉ structs st'.mem live)
    (hfresh : f ∉ mapped st.mem live + held)
    (hmem : ∀ x, x < f ∨ f + pageSize ≤ x → st''.mem x = st'.mem x)
    (hwithin : Within (· ∈ M) st' st'') : Remapped M live held live held' st st'' s := by
  have hout : ∀ a, a % pageSize = 0 → a ≠ f → Same st'.mem st''.mem a :=
    fun a hal haf => same_of_outside hal hfal haf hmem
  have hsame : ∀ a ∈ structs st'.mem live, Same st'.mem st''.mem a :=
    fun a ha => hout a (h.spaces.aligned ha) fun heq => hf (heq ▸ ha)
  obtain ⟨hstructs, hmapped⟩ := refs_same hsame
  refine ⟨h.spaces.keep hsame hexact fun a ha => (h.spaces.not_mapped ha).2,
    fun d hd i hi j hj => ?_, fun a ha ha' => ?_, fun hg d hd i hi => ?_,
    fun K hK d hd i hi => ?_, h.within.trans hwithin⟩
  · rw [(pteAt_same hsame hd hi).2 j hj]
    exact h.slots d hd i hi j hj
  · rw [refsOf, hstructs, hmapped, ← refsOf] at ha'
    refine (h.kept a ha ha').trans
      (hout a (h.spaces.exact.aligned (h.spaces.exact.used_in a ha')) fun heq => hfresh (heq ▸ ha))
  · rw [(pteAt_same hsame hd hi).1]
    exact h.gates hg d hd i hi
  · rw [(pteAt_same hsame hd hi).1]
    exact h.kernel K hK d hd i hi

/-- **`allocAndMapUserPage`** maps a fresh frame, or fails and leaves no trace. -/
theorem Memory.Spaces.allocAndMap (h : Spaces M live 0 st) (hd : d ∈ live)
    (hv : pdeIdx v < pteCount)
    (hu : present (word st.mem (d + 4 * pdeIdx v)) = true →
    user (word st.mem (d + 4 * pdeIdx v)) = true) (bytes : Nat → BitVec 8) :
    (∃ f st', allocAndMapUserPage v d st = (some f, st') ∧ f % pageSize = 0 ∧
      f ∉ mapped st.mem live ∧
      Remapped M live 0 live 0 st (st'.fillFrame f bytes)
        (setSlot (pteAt st.mem) d (pdeIdx v) (pteIdx v) (mkEntry f 7))) ∨
      ∃ st', allocAndMapUserPage v d st = (none, st') ∧
        Remapped M live 0 live 0 st st' (pteAt st.mem) := by
  unfold allocAndMapUserPage
  split
  · next st₁ halloc =>
      obtain ⟨rfl, -⟩ := allocFrame_none halloc
      exact .inr ⟨_, rfl, .refl h⟩
  · next f st₁ halloc =>
      obtain ⟨hexact, hf, hfresh, hmem, -⟩ := h.exact.alloc halloc
      have hfal := h.exact.aligned hf
      have hout : ∀ a ∈ refsOf st.mem live 0, Same st.mem st₁.mem a := fun a ha =>
        same_of_outside (h.exact.aligned (h.exact.used_in a ha)) hfal
          (fun heq => hfresh (heq ▸ ha)) hmem
      have hsame : ∀ a ∈ structs st.mem live, Same st.mem st₁.mem a :=
        fun a ha => hout a (mem_refs ha 0)
      obtain ⟨hstructs, hmapped⟩ := refs_same hsame
      have h₁ : Spaces M live (f ::ₘ 0) st₁ := by
        refine h.keep hsame ?_ fun a ha heq => ?_
        · rw [Multiset.add_cons, ← refsOf]
          exact hexact
        · rw [Multiset.mem_cons] at heq
          exact hfresh (heq.resolve_right (Multiset.notMem_zero a) ▸ mem_refs ha 0)
      have hword : word st₁.mem (d + 4 * pdeIdx v) = word st.mem (d + 4 * pdeIdx v) :=
        (pteAt_same hsame hd hv).1
      cases hmap : st₁.mapPage d v f userFlags with
      | mk b st₂ =>
          rcases h₁.mapPage hd hv (by rw [hword]; exact hu) (by decide) hmap
            with ⟨rfl, h₂⟩ | ⟨rfl, rfl⟩
          · have hnm : f ∉ mapped st.mem live + 0 := fun hm => hfresh (by
              rw [refsOf, add_assoc]
              exact Multiset.mem_add.mpr (.inr hm))
            refine .inl ⟨f, st₂, rfl, hfal, by rwa [add_zero] at hnm, ?_⟩
            have h₃ : Remapped M live 0 live 0 st st₂
                (setSlot (pteAt st.mem) d (pdeIdx v) (pteIdx v) (mkEntry f 7)) := by
              refine ⟨h₂.spaces, fun d' hd' i hi j hj => ?_, fun a ha ha' => ?_,
                fun hg => h₂.gates fun d' hd' i hi => ?_,
                fun K hK => h₂.kernel K fun d' hd' i hi =>
                  ?_, (h.exact.within_alloc halloc).trans h₂.within⟩
              · rw [h₂.slots d' hd' i hi j hj]
                unfold setSlot
                rw [(pteAt_same hsame hd' hi).2 j hj]
                rfl
              · refine (hout a ?_).trans (h₂.kept a ?_ ha')
                · rw [refsOf, add_assoc]
                  exact Multiset.mem_add.mpr (.inr ha)
                · rw [add_zero] at ha
                  rw [hmapped]
                  exact Multiset.mem_add.mpr (.inl ha)
              · rw [(pteAt_same hsame hd' hi).1]
                exact hg d' hd' i hi
              · rw [(pteAt_same hsame hd' hi).1]
                exact hK d' hd' i hi
            have hfstruct : f ∉ structs st₂.mem live := by
              refine h₂.spaces.no_struct
                (Multiset.mem_add.mpr (.inl (mem_mapped.mpr ⟨d, hd, _, hv, _, pteIdx_lt v, ?_⟩)))
              rw [h₂.slots d hd _ hv _ (pteIdx_lt v), setSlot, if_pos ⟨rfl, rfl, rfl⟩]
              refine mem_entryRefs.mpr ⟨?_, ?_⟩
              · rw [present_iff, mkEntry_mod]
                decide
              · rw [addr_mkEntry (by decide), addr_of_aligned hfal]
            refine h₃.touch (h₂.spaces.exact.congr rfl rfl rfl rfl) hfal hfstruct hnm
              (fun x hx => if_neg (by omega)) ?_
            exact Written.within ⟨fun x hx => if_neg (by omega), rfl, rfl, rfl, rfl⟩ hfal hf
          · obtain ⟨h₂, hsteady⟩ := hexact.freeFrame
            exact .inr ⟨_, rfl, .of_steady h h₂ (fun a ha => (hout a ha).trans (hsteady a ha))
              ((h.exact.within_alloc halloc).trans (within_freeFrame hfal hf))⟩

/-! ## stores -/

/-- What the processor checks is in the entries. -/
theorem mayStore_iff : st.mayStore d x = true ↔
    (present (word st.mem (d + 4 * pdeIdx x)) = true ∧ user (word st.mem (d + 4 * pdeIdx x)) =
      true) ∧ writable (word st.mem (d + 4 * pdeIdx x)) = true ∧
      present (pteAt st.mem d (pdeIdx x) (pteIdx x)) = true ∧
        user (pteAt st.mem d (pdeIdx x) (pteIdx x)) = true ∧
        writable (pteAt st.mem d (pdeIdx x) (pteIdx x)) = true := by
  unfold mayStore Phys.entry
  simp only [Bool.and_eq_true]
  constructor
  · rintro ⟨⟨⟨⟨⟨hp, hu⟩, hw⟩, hp'⟩, hu'⟩, hw'⟩
    rw [pteAt_user ⟨hp, hu⟩]
    exact ⟨⟨hp, hu⟩, hw, hp', hu', hw'⟩
  · rintro ⟨hpu, hw, hp', hu', hw'⟩
    rw [pteAt_user hpu] at hp' hu' hw'
    exact ⟨⟨⟨⟨⟨hpu.1, hpu.2⟩, hw⟩, hp'⟩, hu'⟩, hw'⟩

/-- Where a store goes. -/
def target (mem : Nat → BitVec 8) (d x : Nat) : Nat :=
  addr (pteAt mem d (pdeIdx x) (pteIdx x)) + x % pageSize

/-- A store goes to the byte that the directory leads to. -/
theorem poke_mem (hu : present (word st.mem (d + 4 * pdeIdx x)) = true ∧
    user (word st.mem (d + 4 * pdeIdx x)) = true) :
    (st.poke d x b).mem = Function.update st.mem (target st.mem d x) b := by
  unfold target
  rw [pteAt_user hu]
  rfl

/-- **A store** changes no directory and no table. -/
theorem Memory.Spaces.poke (h : Spaces M live held st) (hd : d ∈ live) (hx : pdeIdx x < pteCount)
    (hm : st.mayStore d x = true) :
    Spaces M live held (st.poke d x b) ∧ ∀ a ∈ structs st.mem live,
      Same st.mem (st.poke d x b).mem a := by
  obtain ⟨hu, -, hp, -⟩ := mayStore_iff.mp hm
  have hin : addr (pteAt st.mem d (pdeIdx x) (pteIdx x)) ∈ mapped st.mem live :=
    mem_mapped.mpr ⟨d, hd, _, hx, _, pteIdx_lt x, mem_entryRefs.mpr ⟨hp, rfl⟩⟩
  have hsame : ∀ a ∈ structs st.mem live, Same st.mem (st.poke d x b).mem a := by
    intro a ha
    have hne : a ≠ addr (pteAt st.mem d (pdeIdx x) (pteIdx x)) :=
      fun heq => h.no_struct (Multiset.mem_add.mpr (.inl hin)) (heq ▸ ha)
    refine same_of_outside (h.aligned ha) (addr_mod _) hne fun y hy => ?_
    rw [poke_mem hu]
    refine Function.update_of_ne ?_ _ _
    have hlt : x % pageSize < pageSize := Nat.mod_lt _ (by decide)
    unfold target
    omega
  refine ⟨h.keep hsame (h.exact.congr rfl rfl rfl rfl) fun a ha => (h.not_mapped ha).2, hsame⟩

/-- The frame of the page at `x` has other uses. -/
def SharedFrame (mem : Nat → BitVec 8) (live : Multiset Nat) (d x : Nat) : Prop :=
  (refsOf mem live 0).count (addr (pteAt mem d (pdeIdx x) (pteIdx x))) ≠ 1

/-- **How a store ends**: it is done, perhaps after a fault that was served, or it is not, and no
byte changed. -/
inductive Stored (M : Set Nat) (live : Multiset Nat) (d x : Nat) (b : BitVec 8) (st : Phys) :
    Bool × Phys → Prop where
  | done (h : st.mayStore d x = true) : Stored M live d x b st (true, st.poke d x b)
  | served {e' : Nat} {st' : Phys} (h : ¬ st.mayStore d x = true)
    (hs : Served M live 0 d (pdeIdx x) (pteIdx x) e' st st')
      (hfree : st.free = [] → ¬ SharedFrame st.mem live d x)
        (h' : st'.mayStore d x = true) : Stored M live d x b st (true, st'.poke d x b)
  | fault {e' : Nat} {st' : Phys} (h : ¬ st.mayStore d x = true)
    (hs : Served M live 0 d (pdeIdx x) (pteIdx x) e' st st')
      (h' : ¬ st'.mayStore d x = true) : Stored M live d x b st (false, st')
  | none (h : ¬ st.mayStore d x = true)
    (hfree : present (pteAt st.mem d (pdeIdx x) (pteIdx x)) = true →
      cow (pteAt st.mem d (pdeIdx x) (pteIdx x)) = true →
        st.free = [] ∧ SharedFrame st.mem live d x) : Stored M live d x b st (false, st)

/-- **A store of a task**, with the fault that it may raise. -/
theorem Memory.Spaces.userStore (h : Spaces M live 0 st) (hd : d ∈ live) (hx : pdeIdx x < pteCount)
    (b : BitVec 8) :
    Stored M live d x b st (st.userStore d x b) := by
  unfold Phys.userStore
  split
  · next hm => exact .done hm
  · next hm =>
      rcases h.handleCowFault hd hx with ⟨e', st', heq, hs, hfree⟩ | ⟨heq, hfree⟩
      · rw [heq]
        dsimp only
        split
        · next hm' => exact .served hm hs (fun hno hsh => hsh (hfree hno)) hm'
        · next hm' => exact .fault hm hs hm'
      · rw [heq]
        exact .none hm hfree

/-! ## every step keeps the invariant -/

namespace Family

/-- **The invariant of all directories**, with exact counts of the frames `M`. -/
structure Sane (M : Set Nat) (F : Family) : Prop where
  spaces : Spaces M ↑F.dirs 0 F.phys
  kernel : F.kernelDir ∈ F.dirs
  few : F.dirs.length ≤ Scheduler.maxTasks + 1
  gates : Gates F.phys.mem ↑F.dirs
  fair : Fair F.dirs F.kernelDir (pteAt F.phys.mem)

variable {F : Family} {s : Nat → Nat → Nat → Nat} {st : Phys} {d v x pd : Nat}

/-- After an operation on the directories that there are. -/
theorem Sane.remapped (h : Sane M F) (hR : Remapped M ↑F.dirs 0 ↑F.dirs 0 F.phys st s)
    (hfair : Fair F.dirs F.kernelDir s) :
    Sane M { F with phys := st } :=
  ⟨hR.spaces, h.kernel, h.few, hR.gates h.gates, hfair.congr fun d hd => hR.slots d hd⟩

/-- After an operation that added a directory. -/
theorem Sane.added (h : Sane M F) (hlen : F.dirs.length ≤ Scheduler.maxTasks)
    (hR : Remapped M ↑F.dirs 0 (pd ::ₘ ↑F.dirs) 0 F.phys st s)
    (hfair : Fair (pd :: F.dirs) F.kernelDir s) :
    Sane M { F with phys := st, dirs := pd :: F.dirs } := by
  refine ⟨hR.spaces, List.mem_cons_of_mem _ h.kernel, ?_, hR.gates h.gates,
    hfair.congr fun d hd => hR.slots d hd⟩
  rw [List.length_cons]
  omega

/-- A fresh frame is mapped nowhere. -/
theorem Sane.fair_fresh (h : Sane M F) {f i j e : Nat} (hf : f ∉ mapped F.phys.mem ↑F.dirs)
    (he : addr e = f) (hc : cow e = false) :
    Fair F.dirs F.kernelDir (setSlot (pteAt F.phys.mem) d i j e) := by
  refine h.fair.set hc fun d' hd' i' hi' j' hj' _ hp haddr => hf ?_
  rw [← he, ← haddr]
  exact mem_mapped.mpr ⟨d', hd', i', hi', j', hj', mem_entryRefs.mpr ⟨hp, rfl⟩⟩

/-- Emptying a slot keeps the pages fair. -/
theorem Sane.fair_set (h : Sane M F) (i j : Nat) :
    Fair F.dirs F.kernelDir (setSlot (pteAt F.phys.mem) d i j 0) := by
  refine h.fair.drop fun d' i' j' hp => ?_
  unfold setSlot at *
  split
  · next hat =>
      rw [if_pos hat] at hp
      exact absurd hp (by decide)
  · rfl

/-- Clearing a table keeps the pages fair. -/
theorem Sane.fair_clear (h : Sane M F) (i : Nat) :
    Fair F.dirs F.kernelDir (clearSlots (pteAt F.phys.mem) d i) := by
  refine h.fair.drop fun d' i' j' hp => ?_
  unfold clearSlots at *
  split
  · next hat =>
      rw [if_pos hat] at hp
      exact absurd hp (by decide)
  · rfl

/-- An index into a directory. -/
theorem pdeIdx_lt_of (hx : x < 2 ^ 32) : pdeIdx x < pteCount := by
  unfold pdeIdx pdeSize pteCount
  omega

/-- After a fault that was served, the frame is in no other directory. -/
theorem Sane.served {e' : Nat} (h : Sane M F) (hd : d ∈ F.dirs) (hx : x < 2 ^ 32)
    (hs : Served M ↑F.dirs 0 d (pdeIdx x) (pteIdx x) e' F.phys st) :
    Sane M { F with phys := st } := by
  refine h.remapped hs.remapped (h.fair.set hs.rights.2 fun d' hd' i' hi' j' hj' hne hp haddr => ?_)
  have hi := pdeIdx_lt_of hx
  have hj := pteIdx_lt x
  rcases hs.frame with hsame | hfresh
  · by_cases hdd : d' = d
    · subst hdd
      obtain ⟨hii, hjj⟩ :=
        h.fair.once d' hd' i' hi' j' hj' _ hi _ hj hp hs.faulted.1 (haddr.trans hsame)
      exact hne ⟨rfl, hii, hjj⟩
    · have hself : addr e' ∈ dirPages st.mem d pteCount := mem_dirPages.mpr ⟨_, hi, _, hj, by
        rw [hs.remapped.slots d hd _ hi _ hj, setSlot, if_pos ⟨rfl, rfl, rfl⟩]
        exact mem_entryRefs.mpr ⟨hs.flags.1.trans hs.faulted.1, rfl⟩⟩
      have hother : addr e' ∈ dirPages st.mem d' pteCount := mem_dirPages.mpr ⟨i', hi', j', hj', by
        rw [hs.remapped.slots d' hd' i' hi' j' hj', setSlot, if_neg hne]
        exact mem_entryRefs.mpr ⟨hp, haddr.symm⟩⟩
      exact hdd
        (mapped_one hs.alone (Multiset.mem_coe.mpr hd) hself (Multiset.mem_coe.mpr hd') hother)
  · exact hfresh (mem_mapped.mpr ⟨d', hd', i', hi', j', hj', mem_entryRefs.mpr ⟨hp, haddr.symm⟩⟩)

/-- After a store. -/
theorem Sane.poke (h : Sane M F) (hd : d ∈ F.dirs) (hx : x < 2 ^ 32)
    (hm : F.phys.mayStore d x = true) (b : BitVec 8) :
    Sane M { F with phys := F.phys.poke d x b } := by
  obtain ⟨hS, hsame⟩ := h.spaces.poke (b := b) (Multiset.mem_coe.mpr hd) (pdeIdx_lt_of hx) hm
  refine ⟨hS, h.kernel, h.few, fun d' hd' i hi => ?_,
    h.fair.congr fun d' hd' i hi j hj => (pteAt_same hsame hd' hi).2 j hj⟩
  show Gate (word (F.phys.poke d x b).mem (d' + 4 * i))
  rw [(pteAt_same hsame hd' hi).1]
  exact h.gates d' hd' i hi

/-- **What a step can do**, and what its result is. -/
inductive Stepped (M : Set Nat) (F : Family) : SpaceOp → Option Nat × Family → Prop where
  | map {d v f : Nat} {bytes : Nat → BitVec 8} {st : Phys} (hd : d ∈ F.dirs) (hv : v < 2 ^ 32)
    (hfal : f % pageSize = 0)
      (hf : f ∉ mapped F.phys.mem ↑F.dirs)
      (h : Remapped M ↑F.dirs 0 ↑F.dirs 0 F.phys (st.fillFrame f bytes)
        (setSlot (pteAt F.phys.mem) d (pdeIdx v) (pteIdx v) (mkEntry f 7))) :
      Stepped M F (.map d v bytes) (some f, { F with phys := st.fillFrame f bytes })
  | unmap {d v : Nat} {st : Phys} (h : Remapped M ↑F.dirs 0 ↑F.dirs 0 F.phys st
    (setSlot (pteAt F.phys.mem) d (pdeIdx v) (pteIdx v) 0)) :
      Stepped M F (.unmap d v) (some 0, { F with phys := st })
  | clear {d v : Nat} {st : Phys}
    (h : Remapped M ↑F.dirs 0 ↑F.dirs 0 F.phys st (clearSlots (pteAt F.phys.mem) d (pdeIdx v))) :
      Stepped M F (.clear d v) (some 0, { F with phys := st })
  | spawn {pd : Nat} {st : Phys} (hlen : F.dirs.length ≤ Scheduler.maxTasks) (hno : pd ∉ F.dirs)
      (h : Remapped M ↑F.dirs 0 ↑(pd :: F.dirs) 0 F.phys st
        (cloneSlots (pteAt F.phys.mem) F.kernelDir pd)) :
      Stepped M F .spawn (some pd, { F with phys := st, dirs := pd :: F.dirs })
  | fork {d pd : Nat} {st : Phys} (hd : d ∈ F.dirs) (hlen : F.dirs.length ≤ Scheduler.maxTasks)
    (hno : pd ∉ F.dirs)
      (h : Remapped M ↑F.dirs 0 ↑(pd :: F.dirs) 0 F.phys st (forkSlots (pteAt F.phys.mem) d pd)) :
      Stepped M F (.fork d) (some pd, { F with phys := st, dirs := pd :: F.dirs })
  | exit {d : Nat} {st : Phys} (hk : d ≠ F.kernelDir) (hd : d ∈ F.dirs) (hno : d ∉ F.dirs.erase d)
      (h : Remapped M ↑F.dirs 0 ↑(F.dirs.erase d) 0 F.phys st (pteAt F.phys.mem)) :
      Stepped M F (.exit d) (some 0, { F with phys := st, dirs := F.dirs.erase d })
  | stored {d x : Nat} {b : BitVec 8} {st : Phys} (hd : d ∈ F.dirs) (hk : d ≠ F.kernelDir)
    (hx : x < 2 ^ 32)
      (h : Stored M ↑F.dirs d x b F.phys (true, st)) : Stepped M F (.store d x b)
        (some 0, { F with phys := st })
  | fault {d x : Nat} {b : BitVec 8} {st : Phys} (hd : d ∈ F.dirs) (hx : x < 2 ^ 32)
    (h : Stored M ↑F.dirs d x b F.phys (false, st)) :
      Stepped M F (.store d x b) (none, { F with phys := st })
  | failed {op : SpaceOp} {st : Phys}
    (h : Remapped M ↑F.dirs 0 ↑F.dirs 0 F.phys st (pteAt F.phys.mem)) :
      Stepped M F op (none, { F with phys := st })

/-- **One step**, case by case. -/
theorem Sane.step_cases {op : SpaceOp} (h : Sane M F) (hop : F.Allowed op) :
    Stepped M F op (F.step op) := by
  cases op with
  | map d v bytes =>
      obtain ⟨hd, hv, hu⟩ := hop
      unfold Family.step
      rcases h.spaces.allocAndMap (Multiset.mem_coe.mpr hd) (pdeIdx_lt_of hv) hu bytes
        with ⟨f, st', heq, hfal, hf, hR⟩ | ⟨st', heq, hR⟩
      · simp only [heq]
        exact .map hd hv hfal hf hR
      · simp only [heq]
        exact .failed hR
  | unmap d v =>
      obtain ⟨hd, hv, hu⟩ := hop
      exact .unmap (h.spaces.unmapPage (Multiset.mem_coe.mpr hd) (pdeIdx_lt_of hv) hu)
  | clear d v =>
      obtain ⟨hd, hv, hu⟩ := hop
      unfold Family.step
      rcases h.spaces.clearPageTable (Multiset.mem_coe.mpr hd) (pdeIdx_lt_of hv) hu
        with ⟨hfree, hR⟩ | ⟨hfree, heq⟩
      · simp only [if_neg hfree]
        exact .clear hR
      · simp only [if_pos hfree, heq]
        exact .failed (.refl h.spaces)
  | spawn =>
      have hroom := h.fair.once.room h.spaces h.kernel hop
      unfold Family.step
      cases hclone : F.phys.clonePageDir F.kernelDir with
      | mk pd st =>
          rcases h.spaces.clonePageDir (Multiset.mem_coe.mpr h.kernel) hroom hclone
            with ⟨hpd, hfresh, hR⟩ | ⟨rfl, hR⟩
          · have hno : pd ∉ F.dirs := fun hin =>
              hfresh (mem_refs (mem_structs.mpr (.inl (Multiset.mem_coe.mpr hin))) 0)
            cases pd with
            | zero => exact absurd rfl hpd
            | succ n => exact .spawn hop hno hR
          · exact .failed hR
  | fork d =>
      obtain ⟨hd, hlen⟩ := hop
      have hroom := h.fair.once.room h.spaces hd hlen
      unfold Family.step
      cases hfork : F.phys.forkDir d with
      | mk pd st =>
          rcases h.spaces.forkDir (Multiset.mem_coe.mpr hd) hroom hfork
            with ⟨hpd, hfresh, hR⟩ | ⟨rfl, hR⟩
          · have hno : pd ∉ F.dirs := fun hin =>
              hfresh (mem_refs (mem_structs.mpr (.inl (Multiset.mem_coe.mpr hin))) 0)
            simp only [hfork]
            cases pd with
            | zero => exact absurd rfl hpd
            | succ n => exact .fork hd hlen hno hR
          · simp only [hfork]
            exact .failed hR
  | exit d =>
      obtain ⟨hd, hk⟩ := hop
      have hsplit : (↑F.dirs : Multiset Nat) = d ::ₘ ↑(F.dirs.erase d) := by
        rw [← Multiset.coe_erase, Multiset.cons_erase (Multiset.mem_coe.mpr hd)]
      have hS := h.spaces
      rw [hsplit] at hS
      refine .exit hk hd (fun hin => hS.dir (Multiset.mem_coe.mpr hin)) ?_
      rw [hsplit]
      exact hS.freePageDirectory
  | store d x b =>
      obtain ⟨hd, hk, hx⟩ := hop
      have hst := h.spaces.userStore (Multiset.mem_coe.mpr hd) (pdeIdx_lt_of hx) b
      unfold Family.step
      cases hr : F.phys.userStore d x b with
      | mk ok st =>
          rw [hr] at hst
          simp only [hr]
          cases ok with
          | true => exact .stored hd hk hx hst
          | false => exact .fault hd hx hst

/-- **Every operation** keeps the directories well formed. -/
theorem Sane.step {op : SpaceOp} (h : Sane M F) (hop : F.Allowed op) : Sane M (F.step op).2 := by
  have hcases := h.step_cases hop
  generalize F.step op = r at hcases ⊢
  cases hcases with
  | map hd hv hfal hf hR =>
      refine h.remapped hR (h.fair_fresh hf ?_ ?_)
      · rw [addr_mkEntry (by decide), addr_of_aligned hfal]
      · unfold cow mkEntry addr pageCow pageSize at *
        rw [decide_eq_false_iff_not]
        omega
  | unmap hR => exact h.remapped hR (h.fair_set _ _)
  | clear hR => exact h.remapped hR (h.fair_clear _)
  | spawn hlen hno hR => exact h.added hlen hR (h.fair.clone h.kernel hno)
  | fork hd hlen hno hR => exact h.added hlen hR (h.fair.fork hd hno)
  | exit hk hd hno hR =>
      refine ⟨hR.spaces, (List.mem_erase_of_ne (Ne.symm hk)).mpr h.kernel, ?_, hR.gates h.gates,
        (h.fair.mono fun d' hd' => List.mem_of_mem_erase hd').congr fun d' hd' => hR.slots d' hd'⟩
      exact (List.length_erase_le).trans h.few
  | stored hd hk hx hst =>
      cases hst with
      | done hm => exact h.poke hd hx hm _
      | served _ hs _ hm' => exact (h.served hd hx hs).poke hd hx hm' _
  | fault hd hx hst =>
      cases hst with
      | fault _ hs _ => exact h.served hd hx hs
      | none => exact h
  | failed hR => exact h.remapped hR h.fair

/-! ## runs -/

/-- The operations one after the other. -/
def next (F : Family) (op : SpaceOp) : Except Unit Family := .ok (F.step op).2

variable {F₀ : Family} {tr : List SpaceOp}

/-- **Every run** stays sane. -/
theorem sane_run (h : Sane M F₀) (hrun : Reach next Allowed F₀ tr F) : Sane M F :=
  Reach.inv (P := Sane M) h (fun F op F' hF hop hnext => by
    obtain rfl : (F.step op).2 = F' := Except.ok.inj hnext
    exact hF.step hop) hrun

/-- **The accounts of the frames `M`**: counted as often as they are referred to by the directories,
and free, once, without a reference. -/
structure Accounts (M : Set Nat) (F : Family) : Prop where
  refs : ∀ g ∈ M, F.phys.refs (g / pageSize) = (refsOf F.phys.mem ↑F.dirs 0).count g
  free : ∀ g ∈ M, F.phys.free.count g = if (refsOf F.phys.mem ↑F.dirs 0).count g = 0 then 1 else 0
  only : ∀ g, g ∈ F.phys.free ∨ g ∈ refsOf F.phys.mem ↑F.dirs 0 → g ∈ M
  calm : F.phys.panicked = false

/-- Directories without user tables, as that of the kernel is before there is any task. -/
theorem sane_bare (st : Phys) (kernelDir : Nat) (dirs : List Nat) (hk : kernelDir ∈ dirs)
    (hlen : dirs.length ≤ Scheduler.maxTasks + 1)
    (hmax : st.maxFrameIdx < maxFrames) (hnodup : (dirs ++ st.free).Nodup)
    (hframes : ∀ a ∈ dirs ++ st.free, a % pageSize = 0 ∧ a ≠ 0 ∧ a / pageSize < st.maxFrameIdx)
    (hidle : ∀ a ∈ st.free, st.refs (a / pageSize) = 0)
    (hdirs : ∀ a ∈ dirs, st.refs (a / pageSize) = 1) (hcalm : st.panicked = false)
    (hno : ∀ d ∈ dirs, ∀ i < pteCount,
    ¬ (present (word st.mem (d + 4 * i)) = true ∧ user (word st.mem (d + 4 * i)) = true)) :
    Sane {a | a ∈ dirs ++ st.free} { phys := st, kernelDir := kernelDir, dirs := dirs } := by
  have hslot : ∀ d ∈ dirs, ∀ i < pteCount, ∀ j, pteAt st.mem d i j = 0 :=
    fun d hd i hi j => pteAt_none (hno d hd i hi) j
  have htabs : (↑dirs : Multiset Nat).bind (fun d => dirTabs st.mem d pteCount) = 0 :=
    Multiset.eq_zero_of_forall_notMem fun a ha => by
    obtain ⟨d, hd, ha⟩ := Multiset.mem_bind.mp ha
    obtain ⟨i, hi, ha⟩ := mem_dirTabs.mp ha
    exact hno d hd i hi (mem_tabRefs.mp ha).1
  have hpages : mapped st.mem ↑dirs = 0 := Multiset.eq_zero_of_forall_notMem fun a ha => by
    obtain ⟨d, hd, i, hi, j, -, ha⟩ := mem_mapped.mp ha
    rw [hslot d hd i hi, mem_entryRefs] at ha
    exact absurd ha.1 (by decide)
  have hstructs : structs st.mem ↑dirs = ↑dirs := by rw [structs, htabs, add_zero]
  have hrefs : refsOf st.mem ↑dirs 0 = ↑dirs := by rw [refsOf, hstructs, hpages, add_zero, add_zero]
  obtain ⟨hnd, hnf, hdisj⟩ := List.nodup_append.mp hnodup
  have hone : ∀ g ∈ dirs, (↑dirs : Multiset Nat).count g = 1 := fun g hg => by
    rw [Multiset.coe_count, List.count_eq_one_of_mem hnd hg]
  have hzero : ∀ g ∈ st.free, (↑dirs : Multiset Nat).count g = 0 := fun g hg =>
    Multiset.count_eq_zero.mpr fun hin => hdisj g (Multiset.mem_coe.mp hin) g hg rfl
  refine ⟨⟨⟨fun g hg => ?_, fun g hg => ?_, fun g hg => ?_, fun g hg => ?_,
        fun g hg => List.mem_append_right _ hg, hcalm⟩, fun a ha => ?_⟩,
    hk, hlen, fun d hd i hi hp hu =>
      ?_, ⟨fun d hd i hi j _ i' _ j' _ hp => ?_, fun d hd _ i hi j _ hp => ?_⟩⟩
  · obtain ⟨hal, hne, hlt⟩ := hframes g hg
    refine ⟨hal, hlt, hne, ?_⟩
    show g < st.maxFrameIdx * pageSize % 2 ^ 32
    unfold maxFrames at hmax
    unfold pageSize at *
    omega
  · rw [hrefs]
    rcases List.mem_append.mp hg with hg | hg
    · rw [hdirs g hg, hone g hg]
    · rw [hidle g hg, hzero g hg]
  · rw [hrefs]
    rcases List.mem_append.mp hg with hg | hg
    · rw [hone g hg, if_neg (by omega)]
      exact List.count_eq_zero.mpr fun hin => hdisj g hg g hin rfl
    · rw [hzero g hg, if_pos rfl, List.count_eq_one_of_mem hnf hg]
  · rw [hrefs] at hg
    exact List.mem_append_left _ (Multiset.mem_coe.mp hg)
  · rw [hstructs] at ha
    rw [hrefs]
    exact hone a (Multiset.mem_coe.mp ha)
  · exact absurd ⟨hp, hu⟩ (hno d hd i hi)
  · rw [hslot d hd i hi] at hp
    exact absurd hp (by decide)
  · rw [hslot d hd i hi] at hp
    exact absurd hp (by decide)

/-- **In every run** of the system the accounts are right, and nothing panics. -/
theorem accounts_run (h : Sane M F₀) (hrun : Reach next Allowed F₀ tr F) : Accounts M F :=
  have hE := (sane_run h hrun).spaces.exact
  ⟨hE.refs, hE.free, fun g hg => hg.elim (hE.free_in g) (hE.used_in g), hE.calm⟩

/-- Six frames: the directories of the kernel and of a task without pages, and four free ones. -/
def bare : Family where
  phys :=
    { mem := fun _ => 0, free := [0x3000, 0x4000, 0x5000, 0x6000],
      refs := fun n => if n = 1 ∨ n = 2 then 1 else 0, maxFrameIdx := 16,
      panicked := false }
  kernelDir := 0x1000
  dirs := [0x1000, 0x2000]

/-- The kernel alone. -/
theorem bare_sane : Sane {a | a ∈ [0x1000, 0x2000, 0x3000, 0x4000, 0x5000, 0x6000]} bare := by
  refine sane_bare bare.phys 0x1000 [0x1000, 0x2000] (by decide) (by decide) (by decide) (by decide)
    (by decide) (by decide) (by decide) rfl
    fun d _ i hi => ?_
  have hword : word bare.phys.mem (d + 4 * i) = 0 := word_zero (fun _ _ _ => rfl) hi
  rw [hword]
  decide

/-- A step adds one directory at most. -/
theorem Sane.length_step {op : SpaceOp} (h : Sane M F) (hop : F.Allowed op) :
    (F.step op).2.dirs.length ≤ F.dirs.length + 1 := by
  have hcases := h.step_cases hop
  generalize F.step op = r at hcases ⊢
  cases hcases with
  | exit => exact List.length_erase_le.trans (Nat.le_succ _)
  | spawn => exact le_rfl
  | fork => exact le_rfl
  | _ => exact Nat.le_succ _

/-- A page for the kernel, and two tasks that get it. -/
def twoTasks : List SpaceOp := [.map 0x1000 0 fun _ => 7, .spawn, .spawn]

/-- Two tasks and their pages. -/
theorem reach_twoTasks : ∃ F, Reach next Allowed bare twoTasks F := by
  have hmap : Allowed bare (.map 0x1000 0 fun _ => 7) := ⟨by decide, by decide, by decide⟩
  have hbare : bare.dirs.length = 2 := rfl
  have hmax : Scheduler.maxTasks = 8 := rfl
  have hlen := bare_sane.length_step hmap
  have hspawn : Allowed (bare.step (.map 0x1000 0 fun _ => 7)).2 .spawn := by
    show List.length _ ≤ _
    omega
  have hlen' := (bare_sane.step hmap).length_step hspawn
  refine ⟨_, .snoc (.snoc (.snoc .nil hmap rfl) hspawn rfl) ?_ rfl⟩
  show List.length _ ≤ _
  omega

/-- Their frames are accounted for. -/
theorem accounts_twoTasks :
    ∃ F, Reach next Allowed bare twoTasks F ∧
      Accounts {a | a ∈ [0x1000, 0x2000, 0x3000, 0x4000, 0x5000, 0x6000]} F := by
  obtain ⟨F, hrun⟩ := reach_twoTasks
  exact ⟨F, hrun, accounts_run bare_sane hrun⟩

end Family

end Doors
