import Doors.Syscall.Machine

/-!
# Doors.Syscall.Slot

The slots of creations in progress.

The slot that `findSlot` hands out stays DEAD until the last part of the
creation, so a second creation that starts in the meantime is given the same
slot, unless a lower slot has become DEAD.  Unlike `addTask`, `fork` and
`addUserElfTask` do not disable interrupts.

* `Spaced` — a creation starts only when every creation in progress has a
  DEAD slot below its own;
* `slots_apart` — then creations in progress work on different slots, and
  each leaves its own task in its slot;
* `slot_shared` — a run with two creations in one slot.
-/

namespace Doors

open Cells Run Scheduler

/-- What a creation in progress has put into its slot. -/
def Task.plot (t : Task) : TaskState × Nat × (Nat → Nat) := (t.state, t.pageDir, t.userStackPhys)

namespace Sched

variable {s₀ s s' : Sched} {op : Op}

/-! ## DEAD slots -/

/-- A switch leaves DEAD slots as they are. -/
theorem switch_fallow {next i : Nat} (hready : (s.leave.tasks next).state = .ready)
    (hd : (s.tasks i).state = .dead) : ((s.leave.install next).tasks i).plot =
    (s.tasks i).plot := by
  have hleave : s.leave.tasks i = s.tasks i := by
    rw [leave_tasks]
    split
    · unfold left
      rw [if_neg (by rw [hd]; decide)]
    · rfl
  rw [install_tasks, if_neg]
  · exact congrArg Task.plot hleave
  · rintro rfl
    rw [hleave, hd] at hready
    contradiction

/-- **DEAD slots** are left alone by everything but creations. -/
theorem Effect.fallow (he : Effect s₀ op s s') (hc : op.creates = false) (hi : op ≠ .init)
    (h : Table s)
    {i : Nat} (hd : (s.tasks i).state = .dead) : (s'.tasks i).plot = (s.tasks i).plot := by
  have hcur : i ≠ s.currentIdx := by
    rintro rfl
    exact h.cur_live hd
  cases he with
  | init hop => exact absurd hop hi
  | quiet hq => exact hq.field Task.plot i fun _ => rfl
  | timer => rfl
  | notify tasks hu _ =>
      obtain ⟨u, hu⟩ := hu i
      have hplot := congrArg Task.plot hu
      exact hplot
  | reap | mark =>
      rw [modify_tasks]
      split <;> rfl
  | block => rw [modify_tasks, if_neg hcur]
  | sleep =>
      simp only [modify_tasks]
      rw [if_neg hcur]
  | @wake j _ _ _ _ _ hb =>
      have hij : i ≠ j := by
        rintro rfl
        rw [hd] at hb
        contradiction
      simp only [modify_tasks]
      rw [if_neg hij]
  | pop =>
      simp only [modify_tasks]
      split
      · have hne : (s.tasks i).state ≠ .blocked := by
          rw [hd]
          decide
        unfold Task.plot popped
        dsimp only
        rw [if_neg hne]
      · rfl
  | switch _ hready => exact switch_fallow hready hd
  | @exit code next q n _ _ _ _ hne hready =>
      obtain ⟨ppid, hp⟩ := departed_tasks s code q n hcur
      obtain ⟨ppid', hp'⟩ := departed_tasks s code q n hne
      have hplot := congrArg Task.plot hp
      refine (switch_fallow ?_ ?_).trans hplot
      · rw [leave_tasks, departed_currentIdx, if_neg hne, hp']
        exact hready
      · rw [hp]
        exact hd
  | @kill j q n _ _ hlive =>
      have hij : i ≠ j := by
        rintro rfl
        exact hlive hd
      obtain ⟨ppid, hk⟩ := killed_tasks s j hij
      have hplot := congrArg Task.plot hk
      exact hplot
  | create hop =>
      rw [hc] at hop
      contradiction
  | image => rw [modify_tasks, if_neg hcur]
  | fpu => rfl

/-- A DEAD slot is not written by an operation that creates nobody. -/
theorem step_fallow (hc : op.creates = false) (hi : op ≠ .init) (h : Table s)
    (hs : s.step op = .ok s')
    {i : Nat} (hd : (s.tasks i).state = .dead) : (s'.tasks i).plot = (s.tasks i).plot := by
  have hkeep : ∀ a b, Effect s op a b → Table a ∧ (a.tasks i).plot = (s.tasks i).plot →
      Table b ∧ (b.tasks i).plot = (s.tasks i).plot := by
    rintro a b he ⟨ht, hp⟩
    have hda : (a.tasks i).state = .dead := (congrArg Prod.fst hp).trans hd
    exact ⟨he.table ht, (he.fallow hc hi ht hda).trans hp⟩
  exact (step_inv h.cur_lt h.cur_live hkeep ⟨h, rfl⟩ hs).2

/-! ## the contents of a slot in progress -/

/-- What the slot of a creation holds in each of its phases. -/
def Content (s : Sched) : Phase → Prop
  | .forkCloned slot _ dir => (s.tasks slot).pageDir = dir
  | .elfMapped slot _ phys => ∀ i < userStackPages, (s.tasks slot).userStackPhys i = phys i
  | .elfCloned slot _ phys dir => (s.tasks slot).pageDir = dir ∧
      ∀ i < userStackPages, (s.tasks slot).userStackPhys i = phys i
  | _ => True

/-- A creation in progress keeps its slot. -/
theorem Content.congr {ph : Phase} (h : Content s ph)
    (hp : ∀ k, ph.slot = some k → (s'.tasks k).plot = (s.tasks k).plot) : Content s' ph := by
  have hfields : ∀ k, ph.slot = some k → (s'.tasks k).pageDir = (s.tasks k).pageDir ∧
      (s'.tasks k).userStackPhys = (s.tasks k).userStackPhys := by
    intro k hk
    have hplot := hp k hk
    simp only [Task.plot, Prod.mk.injEq] at hplot
    exact hplot.2
  cases ph with
  | forkCloned slot stack dir =>
      change (s'.tasks slot).pageDir = dir
      rw [(hfields slot rfl).1]
      exact h
  | elfMapped slot stack phys =>
      change ∀ i < userStackPages, (s'.tasks slot).userStackPhys i = phys i
      rw [(hfields slot rfl).2]
      exact h
  | elfCloned slot stack phys dir =>
      change (s'.tasks slot).pageDir = dir ∧ ∀ i < userStackPages,
        (s'.tasks slot).userStackPhys i = phys i
      rw [(hfields slot rfl).1, (hfields slot rfl).2]
      exact h
  | user | pushed _ | called _ | forkFound _ | forkReset _ | forkStacked _ _ | forkCopied _ _
  | elfFound _
  | elfReset _ | elfStacked _ _ | execLoaded _ | done => trivial

/-- A part of a creation writes its own slot. -/
theorem advance_content (s : Sched) (ph : Phase) (op : PartOp) (h : Content s ph) :
    Content (s.advance ph op).1 (s.advance ph op).2 := by
  have hfind : ∀ found : Nat → Phase, (∀ s' slot, Content s' (found slot)) →
      Content (s.advanceFind found).1 (s.advanceFind found).2 := by
    intro found hfound
    rcases findSlot_cases s with hf | ⟨slot, hv⟩
    · rw [advanceFind_none hf]
      trivial
    · rw [advanceFind_some hv]
      exact hfound _ slot
  unfold advance
  split
  · split
    · split
      · trivial
      · exact hfind .forkFound fun _ _ => trivial
    · split
      · exact hfind .elfFound fun _ _ => trivial
      · exact h
  · trivial
  · dsimp only
    split <;> trivial
  · trivial
  · next slot _ dir =>
      dsimp only
      split
      · trivial
      · change ((s.setPageDir slot dir).tasks slot).pageDir = dir
        rw [setPageDir, modify_tasks, if_pos rfl]
  · trivial
  · trivial
  · dsimp only
    split <;> trivial
  · trivial
  · next slot _ phys =>
      intro i hi
      dsimp only
      rw [mapUserStackPages, modify_tasks, if_pos rfl]
      exact if_pos hi
  · next slot _ _ dir =>
      dsimp only
      split
      · trivial
      · refine ⟨?_, fun i hi => ?_⟩
        · rw [setPageDir, modify_tasks, if_pos rfl]
        · rw [setPageDir, modify_tasks, if_pos rfl]
          exact h i hi
  · trivial
  · trivial
  · trivial
  · exact h

/-- A creation is done when its task comes to life. -/
theorem advance_births {ph : Phase} {op : PartOp} {k : Nat} (h : ph.births op = some k) :
    (s.advance ph op).2 = .done := by
  unfold Phase.births at h
  split at h
  · rfl
  · rfl
  · contradiction

end Sched

namespace CallSys

open Sched

/-! ## runs -/

/-- The step makes `findSlot` look for a slot. -/
def Starts (m : CallSys) : CallOp → Prop
  | .sys (.addTask named _ _ _ _) => named = true
  | .sys (.addUserElfTask _ _ _ _) => True
  | .part .find =>
      match m.phase m.sched.currentIdx with
      | .called nr => nr = sysExecmod ∨ nr = sysFork ∧ m.sched.cur.userStackPageCount ≠ 0 ∧
          m.sched.syscallFrameEsp ≠ 0
      | _ => False
  | _ => False

/-- Some slot below `k` is DEAD. -/
def Covered (s : Sched) (k : Nat) : Prop := ∃ j < k, (s.tasks j).state = .dead

/-- Every creation in progress has a DEAD slot below its own. -/
def AllCovered (m : CallSys) : Prop :=
  ∀ p < m.sched.taskCount, (m.sched.tasks p).state ≠ .dead →
    ∀ k ∈ (m.phase p).slot, Covered m.sched k

/-- A creation starts only when `AllCovered` holds. -/
def Spaced (m : CallSys) (op : CallOp) : Prop := Legal m op ∧ (Starts m op → AllCovered m)

instance (m : CallSys) (op : CallOp) : Decidable (Starts m op) := by
  match op with
  | .sys op => apply @Op.casesOn _ op <;> intros <;> unfold Starts <;> infer_instance
  | .part .find =>
      unfold Starts
      dsimp only
      generalize m.phase m.sched.currentIdx = ph
      apply @Phase.casesOn _ ph <;> intros <;> infer_instance
  | .part .reset | .part (.alloc _) | .part .copy | .part (.map _) | .part (.clone _)
  | .part (.finish _) | .part .redirect => unfold Starts; infer_instance
  | .int80 _ | .store | .load _ | .ret _ => unfold Starts; infer_instance

instance (s : Sched) (k : Nat) : Decidable (Covered s k) := by
  unfold Covered
  infer_instance

instance (m : CallSys) : Decidable (AllCovered m) := by
  unfold AllCovered
  infer_instance

instance (m : CallSys) (op : CallOp) : Decidable (Spaced m op) :=
  inferInstanceAs (Decidable (_ ∧ _))

/-- Creations in progress work on different slots, none of them a live
task's, and a creation that succeeds leaves its own task in its slot. -/
structure OwnSlots (m : CallSys) : Prop where
  distinct : ∀ p q k, (m.sched.tasks p).state ≠ .dead → (m.sched.tasks q).state ≠ .dead → p ≠ q →
    (m.phase p).slot = some k → (m.phase q).slot ≠ some k
  vacant : ∀ p k, (m.sched.tasks p).state ≠ .dead → (m.phase p).slot = some k →
    (m.sched.tasks k).state = .dead
  forked : ∀ slot stack dir elf m', m.phase m.sched.currentIdx = .forkCloned slot stack dir →
    m.step (.part (.finish elf)) = .ok m' →
    Mine (m'.sched.tasks slot) slot stack dir ∧ (m'.sched.tasks slot).pid = m.sched.nextPid
  loaded : ∀ slot stack phys dir elf m', m.phase m.sched.currentIdx =
    .elfCloned slot stack phys dir →
    m.step (.part (.finish (some elf))) = .ok m' →
    Mine (m'.sched.tasks slot) slot stack dir ∧
      (∀ i < userStackPages, (m'.sched.tasks slot).userStackPhys i = phys i) ∧
      (m'.sched.tasks slot).elfPageCount = elf.numPages ∧
      ∀ i < elf.numPages, (m'.sched.tasks slot).elfPhys i = elf.phys i

/-! ## the invariant -/

structure Apart (m : CallSys) : Prop where
  sound : Sound m
  distinct : ∀ p q k, (m.sched.tasks p).state ≠ .dead → (m.sched.tasks q).state ≠ .dead → p ≠ q →
    (m.phase p).slot = some k → (m.phase q).slot ≠ some k
  vacant : ∀ p k, (m.sched.tasks p).state ≠ .dead → (m.phase p).slot = some k →
    (m.sched.tasks k).state = .dead
  content : ∀ p, (m.sched.tasks p).state ≠ .dead → Content m.sched (m.phase p)

variable {m m' : CallSys} {s s' s₀ : Sched} {op : Op} {p : Nat}

/-- No creation is in progress at the start. -/
theorem start_apart (s : Sched) : Apart (start s) :=
  ⟨start_sound s,
    fun _ _ _ _ _ _ h => by contradiction, fun _ _ _ h => by contradiction, fun _ _ => trivial⟩

/-- `findSlot` never hands out a slot that a creation works on while the
creations in progress are covered. -/
theorem Sound.fresh {slot k : Nat} (h : Sound m) (hall : AllCovered m) (hv : m.sched.Vacant slot)
    (hp : (m.sched.tasks p).state ≠ .dead) (hk : (m.phase p).slot = some k) : slot ≠ k := by
  rintro rfl
  have hlt : p < m.sched.taskCount := by
    by_contra hge
    exact hp (h.table.beyond p (by omega))
  obtain ⟨j, hj, hd⟩ := hall p hlt hp slot (by rw [hk]; rfl)
  exact (findSlot_ok hv).2.1 j hj hd

/-- Creations that end, or go on in the slots they had, keep the invariant. -/
theorem Apart.carry (h : Apart m) (hsound : Sound m')
    (hold : ∀ p, (m'.sched.tasks p).state ≠ .dead → (m'.phase p).slot = none ∨
      (m.sched.tasks p).state ≠ .dead ∧ (m'.phase p).slot = (m.phase p).slot)
    (hdead : ∀ p k, (m.sched.tasks p).state ≠ .dead → (m'.phase p).slot = some k →
      (m.phase p).slot = some k → (m'.sched.tasks k).state = .dead)
    (hcontent : ∀ p, (m'.sched.tasks p).state ≠ .dead → Content m'.sched (m'.phase p)) :
    Apart m' := by
  have hslot : ∀ p k, (m'.sched.tasks p).state ≠ .dead → (m'.phase p).slot = some k →
      (m.sched.tasks p).state ≠ .dead ∧ (m.phase p).slot = some k := by
    intro p k hp hk
    rcases hold p hp with hn | ⟨hl, hs⟩
    · rw [hn] at hk
      contradiction
    · exact ⟨hl, hs ▸ hk⟩
  refine ⟨hsound, fun p q k hp hq hpq hpk hqk => ?_, fun p k hp hk => ?_, hcontent⟩
  · obtain ⟨hlp, hpk⟩ := hslot p k hp hpk
    obtain ⟨hlq, hqk⟩ := hslot q k hq hqk
    exact h.distinct p q k hlp hlq hpq hpk hqk
  · obtain ⟨hlp, hpk⟩ := hslot p k hp hk
    exact hdead p k hlp hk hpk

/-- An operation, or a slot it fills, is not that of a creation in progress. -/
theorem sys_plot (h : Apart m) (hl : Legal m (.sys op)) (hsp : Starts m (.sys op) → AllCovered m)
    (hs : m.sched.step op = .ok s') {k : Nat} (hp : (m.sched.tasks p).state ≠ .dead)
    (hk : (m.phase p).slot = some k) : (s'.tasks k).plot = (m.sched.tasks k).plot := by
  have hinit : op ≠ .init := by
    rintro rfl
    exact hl
  have htable := h.sound.table
  have hd := h.vacant p k hp hk
  cases hc : op.creates with
  | false => exact step_fallow hc hinit htable hs hd
  | true =>
      by_cases hstart : Starts m (.sys op)
      · rcases step_built hc htable hs with rfl | ⟨slot, child, parent, n, e, frames, hv, _, _, rfl⟩
        · rfl
        · have hks := (h.sound.fresh (hsp hstart) hv hp hk).symm
          have hkc : k ≠ m.sched.currentIdx := by
            rintro rfl
            exact htable.cur_live hd
          rw [built_other hks hkc]
      · -- only `addTask` without a name creates nothing
        cases op with
        | addTask named entry pageDir priority stack =>
            have hname : ¬ named = true := hstart
            simp only [Sched.step, addTask, if_pos hname, Except.ok.injEq] at hs
            rw [← hs]
        | addUserElfTask => exact absurd trivial hstart
        | fork => exact absurd hl id
        | _ => contradiction

/-- A whole operation. -/
theorem sys_apart (h : Apart m) (hl : Legal m (.sys op)) (hsp : Starts m (.sys op) → AllCovered m)
    (hs : m.sched.step op = .ok s') (hsound : Sound { m with
      sched := s', phase := m.settle (if op.creates then m.sched.findSlot.1 else none) }) :
    Apart { m with
      sched := s', phase := m.settle (if op.creates then m.sched.findSlot.1 else none) } := by
  have hinit : op ≠ .init := by
    rintro rfl
    exact hl
  have hold : ∀ p, (s'.tasks p).state ≠ .dead →
      m.settle (if op.creates then m.sched.findSlot.1 else none) p = .user ∨
      (m.sched.tasks p).state ≠ .dead ∧
        m.settle (if op.creates then m.sched.findSlot.1 else none) p = m.phase p := by
    intro p hp
    rcases settle_cases m (if op.creates then m.sched.findSlot.1 else none) p with ⟨_, hu⟩ | hsame
    · exact .inl hu
    · rcases sys_live h.sound.table hinit hs hp with hlive | ⟨hc, hborn⟩
      · exact .inr ⟨hlive, hsame⟩
      · rw [if_pos hc, hborn]
        exact .inl (set_self ..)
  refine h.carry hsound (fun p hp => ?_) (fun p k hp _ hk => ?_) fun p hp => ?_
  · rcases hold p hp with hu | ⟨hlive, hsame⟩
    · exact .inl (by dsimp only; rw [hu]; rfl)
    · exact .inr ⟨hlive, by dsimp only; rw [hsame]⟩
  · exact (congrArg Prod.fst (sys_plot h hl hsp hs hp hk)).trans (h.vacant p k hp hk)
  · dsimp only
    rcases hold p hp with hu | ⟨hlive, hsame⟩
    · rw [hu]
      trivial
    · rw [hsame]
      exact (h.content p hlive).congr fun k hk => sys_plot h hl hsp hs hlive hk

/-- A part that finds a slot has looked for one. -/
theorem find_starts {ph' : Phase} {slot : Nat} (hnone : (m.phase m.sched.currentIdx).slot = none)
    (hadv : m.sched.advance (m.phase m.sched.currentIdx) .find = (s', ph'))
    (hslot : ph'.slot = some slot) :
    Starts m (.part .find) := by
  have hph : ph' = (m.sched.advance (m.phase m.sched.currentIdx) .find).2 := by rw [hadv]
  unfold Starts
  dsimp only
  cases hcur : m.phase m.sched.currentIdx with
  | called nr =>
      rw [hcur] at hph
      dsimp only [advance] at hph
      by_cases hf : nr = sysFork
      · rw [if_pos hf] at hph
        split at hph
        · rw [hph] at hslot
          contradiction
        · next hguard =>
            exact .inr ⟨hf, fun h => hguard (.inr (.inl h)), fun h => hguard (.inr (.inr h))⟩
      · rw [if_neg hf] at hph
        split at hph
        · next he => exact .inl he
        · rw [hph] at hslot
          contradiction
  | _ =>
      rw [hcur] at hnone hph
      dsimp only [advance] at hph
      rw [hph, hnone] at hslot
      contradiction

/-- The search brings nobody to life. -/
theorem births_find (ph : Phase) : ph.births .find = none := by
  cases ph <;> rfl

/-- A part of a creation. -/
theorem part_apart (h : Apart m) {op : PartOp} {ph' : Phase}
    (hsp : Starts m (.part op) → AllCovered m)
    (hadv : m.sched.advance (m.phase m.sched.currentIdx) op = (s', ph')) (hsound : Sound { m with
      sched := s',
      phase := set (m.settle ((m.phase m.sched.currentIdx).births op)) m.sched.currentIdx ph' }) :
    Apart { m with
      sched := s',
      phase :=
        set (m.settle ((m.phase m.sched.currentIdx).births op)) m.sched.currentIdx ph' } := by
  have hcur := h.sound.table.cur_live
  have hok := advance_ok m.sched (m.phase m.sched.currentIdx) op
  have hcontent := advance_content m.sched (m.phase m.sched.currentIdx) op (h.content _ hcur)
  have hdone : ∀ k, (m.phase m.sched.currentIdx).births op = some k → ph' = .done := by
    intro k hk
    have := advance_births (s := m.sched) hk
    rwa [hadv] at this
  rw [hadv] at hok hcontent
  dsimp only at hok hcontent
  have hold : ∀ p, p ≠ m.sched.currentIdx → (s'.tasks p).state ≠ .dead →
      m.settle ((m.phase m.sched.currentIdx).births op) p = .user ∨
      (m.sched.tasks p).state ≠ .dead ∧
        m.settle ((m.phase m.sched.currentIdx).births op) p = m.phase p := by
    intro p _ hp
    rcases settle_cases m ((m.phase m.sched.currentIdx).births op) p with ⟨_, hu⟩ | hsame
    · exact .inl hu
    · rcases hok.live hp with hlive | hborn
      · exact .inr ⟨hlive, hsame⟩
      · rw [hborn]
        exact .inl (set_self ..)
  cases hok with
  | found slot _ hfind hnone hv hslot =>
      subst hfind
      have hall := hsp (find_starts hnone hadv hslot)
      rw [births_find] at hold hsound ⊢
      change Apart
        { m with sched := m.sched.grow slot, phase := set m.phase m.sched.currentIdx ph' }
      refine ⟨hsound, fun p q k hp hq hpq hpk hqk => ?_, fun p k hp hk => ?_, fun p hp => ?_⟩
      · dsimp only at hp hq hpk hqk
        by_cases hpc : p = m.sched.currentIdx
        · rw [hpc, set_self, hslot, Option.some.injEq] at hpk
          rw [set_of_ne _ _ (hpc ▸ hpq.symm), ← hpk] at hqk
          exact h.sound.fresh hall hv hq hqk rfl
        · rw [set_of_ne _ _ hpc] at hpk
          by_cases hqc : q = m.sched.currentIdx
          · rw [hqc, set_self, hslot, Option.some.injEq] at hqk
            rw [← hqk] at hpk
            exact h.sound.fresh hall hv hp hpk rfl
          · rw [set_of_ne _ _ hqc] at hqk
            exact h.distinct p q k hp hq hpq hpk hqk
      · dsimp only at hp hk ⊢
        by_cases hpc : p = m.sched.currentIdx
        · rw [hpc, set_self, hslot, Option.some.injEq] at hk
          rw [← hk]
          exact hv.dead h.sound.table
        · rw [set_of_ne _ _ hpc] at hk
          exact h.vacant p k hp hk
      · dsimp only at hp ⊢
        by_cases hpc : p = m.sched.currentIdx
        · rw [hpc, set_self]
          exact hcontent
        · rw [set_of_ne _ _ hpc]
          exact (h.content p hp).congr fun _ _ => rfl
  | worked slot _ _ hslot hnew hw hborn =>
      have hplot : ∀ k, k ≠ slot → (s'.tasks k).plot = (m.sched.tasks k).plot := by
        intro k hk
        obtain ⟨cs, fs, he⟩ := hw.others k hk
        have hplot := congrArg Task.plot he
        exact hplot
      refine h.carry hsound (fun p hp => ?_) (fun p k hp hk' hk => ?_) fun p hp => ?_
      · dsimp only at hp ⊢
        by_cases hpc : p = m.sched.currentIdx
        · rw [hpc, set_self, hslot]
          rcases hnew with hn | hn
          · exact .inl hn
          · exact .inr ⟨hcur, hn⟩
        · rw [set_of_ne _ _ hpc]
          rcases hold p hpc hp with hu | ⟨hlive, hsame⟩
          · exact .inl (by rw [hu]; rfl)
          · exact .inr ⟨hlive, by rw [hsame]⟩
      · dsimp only at hk' ⊢
        by_cases hpc : p = m.sched.currentIdx
        · rw [hpc, hslot, Option.some.injEq] at hk
          subst hk
          have hdead := h.vacant _ slot hcur hslot
          rcases hborn with hs | hs | hb
          · exact hs.trans hdead
          · exact hs
          · rw [hpc, set_self, hdone slot hb] at hk'
            contradiction
        · have hks : k ≠ slot := by
            rintro rfl
            exact h.distinct p _ k hp hcur hpc hk hslot
          exact (congrArg Prod.fst (hplot k hks)).trans (h.vacant p k hp hk)
      · dsimp only at hp ⊢
        by_cases hpc : p = m.sched.currentIdx
        · rw [hpc, set_self]
          exact hcontent
        · rw [set_of_ne _ _ hpc]
          rcases hold p hpc hp with hu | ⟨hlive, hsame⟩
          · rw [hu]
            trivial
          · rw [hsame]
            refine (h.content p hlive).congr fun k hk => hplot k ?_
            rintro rfl
            exact h.distinct p _ k hlive hcur hpc hk hslot
  | framed frames _ hnew =>
      refine h.carry hsound (fun p hp => ?_) (fun p k hp _ hk => h.vacant p k hp hk) fun p hp => ?_
      · dsimp only at hp ⊢
        by_cases hpc : p = m.sched.currentIdx
        · rw [hpc, set_self]
          exact .inl hnew
        · rw [set_of_ne _ _ hpc]
          rcases hold p hpc hp with hu | ⟨hlive, hsame⟩
          · exact .inl (by rw [hu]; rfl)
          · exact .inr ⟨hlive, by rw [hsame]⟩
      · dsimp only at hp ⊢
        by_cases hpc : p = m.sched.currentIdx
        · rw [hpc, set_self]
          exact hcontent
        · rw [set_of_ne _ _ hpc]
          rcases hold p hpc hp with hu | ⟨hlive, hsame⟩
          · rw [hu]
            trivial
          · rw [hsame]
            exact (h.content p hlive).congr fun _ _ => rfl

/-- The current task leaves its phase for one outside a creation. -/
theorem Apart.goto (h : Apart m) {ph : Phase} {trap : Nat → Nat}
    (hsound : Sound { sched := s', phase := set m.phase m.sched.currentIdx ph, trap := trap })
    (hl : ∀ j, (s'.tasks j).state ≠ .dead → (m.sched.tasks j).state ≠ .dead)
    (hplot : ∀ j, (m.sched.tasks j).state = .dead → (s'.tasks j).plot = (m.sched.tasks j).plot)
    (hph : ph.slot = none) (hcon : Content s' ph) :
    Apart { sched := s', phase := set m.phase m.sched.currentIdx ph, trap := trap } := by
  refine h.carry hsound (fun p hp => ?_) (fun p k hp _ hk => ?_) fun p hp => ?_
  · dsimp only at hp ⊢
    by_cases hpc : p = m.sched.currentIdx
    · rw [hpc, set_self]
      exact .inl hph
    · rw [set_of_ne _ _ hpc]
      exact .inr ⟨hl p hp, rfl⟩
  · have hd := h.vacant p k hp hk
    exact (congrArg Prod.fst (hplot k hd)).trans hd
  · dsimp only at hp ⊢
    by_cases hpc : p = m.sched.currentIdx
    · rw [hpc, set_self]
      exact hcon
    · rw [set_of_ne _ _ hpc]
      exact (h.content p (hl p hp)).congr fun k hk => hplot k (h.vacant p k (hl p hp) hk)

/-- **One step** keeps the slots of creations apart. -/
theorem step_apart {op : CallOp} (h : Apart m) (ho : Spaced m op) (hs : m.step op = .ok m') :
    Apart m' := by
  have hsound := step_sound h.sound ho.1 hs
  have htable := h.sound.table
  cases step_moved hs with
  | idle => exact h
  | sys op s' hstep => exact sys_apart h ho.1 ho.2 hstep hsound
  | pushed => exact h.goto hsound (fun _ hl => hl) (fun _ _ => rfl) rfl trivial
  | stored => exact h.goto hsound (fun _ hl => hl) (fun _ _ => rfl) rfl trivial
  | part op s' ph' hadv => exact part_apart h ho.2 hadv hsound
  | image stackPhys elf _ =>
      refine h.goto hsound (fun j hl => ?_) (fun j hd => ?_) rfl trivial
      · rw [← (execImage_task m.sched stackPhys elf j).1]
        exact hl
      · have hjc : j ≠ m.sched.currentIdx := by
          rintro rfl
          exact htable.cur_live hd
        unfold execImage execForget execDrop mapUserStackPages trackElfPages
        simp only [modify_tasks, modify_currentIdx, if_neg hjc]
  | failed out s' hstep =>
      have hne : Op.exec out ≠ .init := by simp
      have hk := step_keeps rfl hne htable hstep
      exact h.goto hsound (fun j hl hd => hl (hk.dead j hd))
        (fun j hd => step_fallow rfl hne htable hstep hd)
        rfl trivial
  | refused => exact h.goto hsound (fun _ hl => hl) (fun _ _ => rfl) rfl trivial
  | iret => exact h.goto hsound (fun _ hl => hl) (fun _ _ => rfl) rfl trivial

/-- **Slots apart**: in a run in which creations start only above a DEAD slot
of their own, no two of them share a slot and each succeeds with its own
task. -/
theorem slots_apart {tr : List CallOp} (h : Reach step Spaced (start s₀) tr m) : OwnSlots m := by
  have ha : Apart m := h.inv (start_apart s₀) fun _ _ _ ha ho hs => step_apart ha ho hs
  have hcon := ha.content m.sched.currentIdx ha.sound.table.cur_live
  refine ⟨ha.distinct, ha.vacant, fun slot stack dir elf m' hph hs => ?_,
    fun slot stack phys dir elf m' hph hs => ?_⟩
  · simp only [step, hph, advance, Except.ok.injEq] at hs
    rw [hph] at hcon
    have hmine := finishFork_slot m.sched m.sched.currentIdx slot stack
    rw [← hs]
    dsimp only
    rw [← show (m.sched.tasks slot).pageDir = dir from hcon]
    exact hmine
  · simp only [step, hph, advance, Except.ok.injEq] at hs
    rw [hph] at hcon
    obtain ⟨hmine, hstack, hpages⟩ := finishElfTask_slot m.sched slot stack elf
    rw [← hs]
    dsimp only
    rw [hstack, ← hcon.1]
    exact ⟨hmine, hcon.2, hpages⟩

/-- Slot 1 is current and enters the kernel to start a module. -/
def moduleRun : List CallOp :=
  [.sys (.addUserElfTask 0x8000 (some fun _ => 0) 0x1000 (some {})),
    .sys (.addUserElfTask 0xC000 (some fun _ => 0) 0x2000 (some {})), .sys (.tick 0 {} true),
      .sys .pitTick,
    .sys (.tick 0 {} true), .int80 { eax := sysExecmod }, .store, .part .find]

/-- A module is created while a fork is in progress. -/
theorem slots_apart_moduleRun :
    ∃ m : CallSys, Reach step Spaced (start {})
        (moduleRun ++ [.part .reset, .part (.alloc 0x10000), .part (.map (some fun i => i)),
          .part (.clone 0x3000)]) m ∧ (m.phase 1).slot = some 3 ∧ OwnSlots m := by
  obtain ⟨m, hr, hp⟩ := Reach.of_runsTo step Spaced (start {})
    (moduleRun ++ [.part .reset, .part (.alloc 0x10000), .part (.map (some fun i => i)),
        .part (.clone 0x3000)])
    (fun m => (m.phase 1).slot = some 3) (by decide)
  exact ⟨m, hr, of_decide_eq_true hp, slots_apart hr⟩

/-- **Shared slot**: a tick lets slot 2 start a module as well, in the slot
that slot 1 has found. -/
theorem slot_shared :
    ∃ m : CallSys, Reach step Legal (start {})
      (moduleRun ++ [.sys .pitTick, .sys (.tick 0x500 {} true),
      .int80 { eax := sysExecmod }, .store, .part .find]) m ∧ ¬ OwnSlots m := by
  obtain ⟨m, hr, hp⟩ := Reach.of_runsTo step Legal (start {}) (moduleRun ++ [.sys .pitTick,
      .sys (.tick 0x500 {} true), .int80 { eax := sysExecmod }, .store, .part .find])
    (fun m => (m.sched.tasks 1).state ≠ .dead ∧ (m.sched.tasks 2).state ≠ .dead ∧
      (m.phase 1).slot = some 3 ∧ (m.phase 2).slot = some 3) (by decide)
  obtain ⟨h1, h2, hs1, hs2⟩ := of_decide_eq_true hp
  exact ⟨m, hr, fun h => h.distinct 1 2 3 h1 h2 (by decide) hs1 hs2⟩

end CallSys

end Doors
