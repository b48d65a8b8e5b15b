import Doors.Syscall.Machine

/-!
# Doors.Syscall.Frame

The trap frame that `fork` copies and `exec` overwrites.

`asmInt80` stores the address of the frame in one global, which `fork` and
`exec` read much later, with interrupts enabled.  The entry of another task
in between replaces it.

* `Pending` — a task that will still use the global;
* `own_frame` — `fork` and `exec` act on their caller's own frame in every run
  in which nobody executes the store while another task is pending;
* `foreign_frame` — a run in which `fork` copies another task's frame.
-/

namespace Doors

open Cells Run Scheduler

/-- The task will still read `syscallFrameEsp`. -/
def Phase.pending : Phase → Bool
  | .called nr => nr = sysFork || nr = sysExec
  | .forkFound _ | .forkReset _ | .forkStacked _ _ | .execLoaded _ => true
  | _ => false

namespace Sched

variable {s₀ s s' : Sched} {op : Op}

/-- Only `asmInt80` writes `syscallFrameEsp`. -/
theorem Effect.syscallFrameEsp (he : Effect s₀ op s s') :
    s'.syscallFrameEsp = s.syscallFrameEsp := by
  cases he with
  | quiet hq =>
      obtain ⟨_, _, _, _, rfl⟩ := hq.rest
      rfl
  | create _ hc => exact hc.syscallFrameEsp
  | init | timer | notify | reap | mark | block | sleep | wake | pop | switch | exit | kill | image
  | fpu => rfl

/-- No operation of the scheduler writes the global. -/
theorem step_syscallFrameEsp (h : Table s) (hs : s.step op = .ok s') :
    s'.syscallFrameEsp = s.syscallFrameEsp := by
  refine step_inv (P := fun a => a.syscallFrameEsp = s.syscallFrameEsp) h.cur_lt h.cur_live
    (fun a b he ha => ?_) rfl hs
  exact he.syscallFrameEsp.trans ha

/-- No part of a creation does. -/
theorem Advanced.syscallFrameEsp {ph ph' : Phase} {op : PartOp} (h : Advanced s ph op s' ph') :
    s'.syscallFrameEsp = s.syscallFrameEsp := by
  cases h with
  | found => rfl
  | worked _ _ _ _ _ hw => exact hw.syscallFrameEsp
  | framed => rfl

/-- A part neither writes the global nor makes its task pending. -/
theorem advance_pending (s : Sched) (ph : Phase) (op : PartOp) :
    (s.advance ph op).1.syscallFrameEsp = s.syscallFrameEsp ∧
      ((s.advance ph op).2.pending = true → ph.pending = true) := by
  constructor
  · exact (advance_ok s ph op).syscallFrameEsp
  · have hfind : ∀ found : Nat → Phase, (∀ slot, (found slot).pending = false) →
        (s.advanceFind found).2.pending = false := by
      intro found hfound
      rcases findSlot_cases s with hf | ⟨slot, hv⟩
      · rw [advanceFind_none hf]
        rfl
      · rw [advanceFind_some hv]
        exact hfound slot
    unfold advance
    split
    · split
      · next hnr =>
          intro _
          rw [hnr]
          rfl
      · split
        · intro hp
          rw [hfind .elfFound fun _ => rfl] at hp
          contradiction
        · exact id
    all_goals first
      | exact id
      | exact fun _ => rfl
      | contradiction
      | (dsimp only; split <;> first | exact fun _ => rfl | exact nofun)

end Sched

namespace CallSys

open Sched

/-- Nobody executes the store while another task is pending. -/
def Undisturbed (m : CallSys) : CallOp → Prop
  | .store => ∀ p < m.sched.taskCount, p ≠ m.sched.currentIdx → (m.sched.tasks p).state ≠ .dead →
      (m.phase p).pending = false
  | _ => True

/-- The steps of the runs in which everyone finds its own frame. -/
def Orderly (m : CallSys) (op : CallOp) : Prop := Legal m op ∧ Undisturbed m op

instance (m : CallSys) (op : CallOp) : Decidable (Undisturbed m op) := by
  apply @CallOp.casesOn _ op <;> intros <;> unfold Undisturbed <;> infer_instance

instance (m : CallSys) (op : CallOp) : Decidable (Orderly m op) :=
  inferInstanceAs (Decidable (_ ∧ _))

/-- `fork` copies, and `exec` overwrites, the frame that the current task's
`INT 0x80` pushed. -/
structure OwnFrame (m : CallSys) : Prop where
  copied : ∀ slot stack m', m.phase m.sched.currentIdx = .forkStacked slot stack →
    m.step (.part .copy) = .ok m' → m'.sched.frames = set m.sched.frames (userFrameTop stack)
      { m.sched.frames (m.trap m.sched.currentIdx) with eax := 0 }
  overwritten : ∀ entry m', m.phase m.sched.currentIdx = .execLoaded entry →
    m.step (.part .redirect) = .ok m' → m'.sched.frames =
      set m.sched.frames (m.trap m.sched.currentIdx)
      { m.sched.frames (m.trap m.sched.currentIdx) with
        eip := entry, eflags := 0x202, userEsp := userStackVaddr + pageSize, ebx := 0 }

/-! ## the invariant -/

/-- The global is the frame of every pending task. -/
structure Framed (m : CallSys) : Prop where
  sound : Sound m
  own : ∀ p, (m.sched.tasks p).state ≠ .dead → (m.phase p).pending = true →
    m.sched.syscallFrameEsp = m.trap p

variable {m m' : CallSys} {s s' s₀ : Sched} {op : Op} {p : Nat}

/-- Nobody is in a call at the start. -/
theorem start_framed (s : Sched) : Framed (start s) :=
  ⟨start_sound s, fun _ _ h => by contradiction⟩

/-- The current task goes on and the others do not notice. -/
theorem Framed.goto (h : Framed m) {ph : Phase} {trap : Nat → Nat}
    (hsound : Sound { sched := s', phase := set m.phase m.sched.currentIdx ph, trap := trap })
    (hs : ∀ j, (s'.tasks j).state ≠ .dead → (m.sched.tasks j).state ≠ .dead)
    (hesp : s'.syscallFrameEsp = m.sched.syscallFrameEsp)
    (htrap : ∀ j, j ≠ m.sched.currentIdx → trap j = m.trap j)
    (hph : ph.pending = true → (m.phase m.sched.currentIdx).pending = true ∧
      trap m.sched.currentIdx = m.trap m.sched.currentIdx) :
    Framed { sched := s', phase := set m.phase m.sched.currentIdx ph, trap := trap } := by
  refine ⟨hsound, fun p hp hpend => ?_⟩
  dsimp only at hp hpend ⊢
  rw [hesp]
  by_cases hpc : p = m.sched.currentIdx
  · subst hpc
    rw [set_self] at hpend
    rw [(hph hpend).2]
    exact h.own _ (hs _ hp) (hph hpend).1
  · rw [set_of_ne _ _ hpc] at hpend
    rw [htrap p hpc]
    exact h.own p (hs p hp) hpend

/-- **One step** keeps the frames. -/
theorem step_framed {op : CallOp} (h : Framed m) (ho : Orderly m op) (hs : m.step op = .ok m') :
    Framed m' := by
  have hsound := step_sound h.sound ho.1 hs
  have htable := h.sound.table
  cases step_moved hs with
  | idle => exact h
  | sys op s' hstep =>
      refine ⟨hsound, fun p hp hpend => ?_⟩
      have hinit : op ≠ .init := by
        rintro rfl
        exact ho.1
      dsimp only at hp hpend ⊢
      rw [step_syscallFrameEsp htable hstep]
      rcases settle_cases m (if op.creates then m.sched.findSlot.1 else none) p with ⟨_, hu⟩ | hsame
      · rw [hu] at hpend
        contradiction
      · rcases sys_live htable hinit hstep hp with hl | ⟨hc, hborn⟩
        · rw [hsame] at hpend
          exact h.own p hl hpend
        · rw [if_pos hc, hborn] at hpend
          change (set m.phase p .user p).pending = true at hpend
          rw [set_self] at hpend
          contradiction
  | pushed frame esp =>
      exact h.goto hsound (fun _ hl => hl) rfl (fun j hj => set_of_ne _ _ hj) nofun
  | stored nr =>
      refine ⟨hsound, fun p hp hpend => ?_⟩
      change m.trap m.sched.currentIdx = m.trap p
      by_cases hpc : p = m.sched.currentIdx
      · rw [hpc]
      · -- the step condition: nobody else may be pending
        change (set m.phase m.sched.currentIdx _ p).pending = true at hpend
        rw [set_of_ne _ _ hpc] at hpend
        have hlt : p < m.sched.taskCount := by
          by_contra hge
          exact hp (htable.beyond p (by omega))
        rw [ho.2 p hlt hpc hp] at hpend
        contradiction
  | part op s' ph' hadv =>
      have hpart := advance_pending m.sched (m.phase m.sched.currentIdx) op
      have hok := advance_ok m.sched (m.phase m.sched.currentIdx) op
      rw [hadv] at hpart hok
      dsimp only at hpart hok
      refine ⟨hsound, fun p hp hpend => ?_⟩
      dsimp only at hp hpend ⊢
      rw [hpart.1]
      by_cases hpc : p = m.sched.currentIdx
      · subst hpc
        rw [set_self] at hpend
        exact h.own _ htable.cur_live (hpart.2 hpend)
      · rw [set_of_ne _ _ hpc] at hpend
        rcases settle_cases m ((m.phase m.sched.currentIdx).births op) p with ⟨_, hu⟩ | hsame
        · rw [hu] at hpend
          contradiction
        · rcases hok.live hp with hl | hborn
          · rw [hsame] at hpend
            exact h.own p hl hpend
          · rw [hborn] at hpend
            change (set m.phase p .user p).pending = true at hpend
            rw [set_self] at hpend
            contradiction
  | image stackPhys elf hph =>
      refine h.goto hsound (fun j hl => ?_) rfl (fun _ _ => rfl) fun _ => ⟨by rw [hph]; rfl, rfl⟩
      rw [← (execImage_task m.sched stackPhys elf j).1]
      exact hl
  | failed out s' hstep =>
      have hne : Op.exec out ≠ .init := by simp
      have hk := step_keeps rfl hne htable hstep
      exact h.goto hsound (fun j hl hd => hl (hk.dead j hd)) (step_syscallFrameEsp htable hstep)
        (fun _ _ => rfl) nofun
  | refused => exact h.goto hsound (fun _ hl => hl) rfl (fun _ _ => rfl) nofun
  | iret => exact h.goto hsound (fun _ hl => hl) rfl (fun _ _ => rfl) nofun

/-- **Own frames**: in a run in which nobody enters the kernel while another
task is on its way to the frame, `fork` and `exec` act on their caller's. -/
theorem own_frame {tr : List CallOp} (h : Reach step Orderly (start s₀) tr m) : OwnFrame m := by
  have hf : Framed m := h.inv (start_framed s₀) fun _ _ _ hf ho hs => step_framed hf ho hs
  have hcur := hf.own m.sched.currentIdx hf.sound.table.cur_live
  constructor
  · intro slot stack m' hph hs
    simp only [step, Except.ok.injEq] at hs
    rw [← hs, ← hcur (by rw [hph]; rfl), hph]
    rfl
  · intro entry m' hph hs
    simp only [step, Except.ok.injEq] at hs
    rw [← hs, ← hcur (by rw [hph]; rfl), hph]
    rfl

/-- Two user tasks; slot 1 is current and enters the kernel to fork. -/
def entryRun : List CallOp :=
  [.sys (.addUserElfTask 0x8000 (some fun _ => 0) 0x1000 (some {})),
    .sys (.addUserElfTask 0xC000 (some fun _ => 0) 0x2000 (some {})), .sys (.tick 0 {} true),
      .sys .pitTick,
    .sys (.tick 0 {} true), .int80 { eax := sysFork, eip := 0x111 }, .store, .part .find,
      .part .reset,
    .part (.alloc 0x10000)]

/-- A fork that is interrupted copies its own frame. -/
theorem own_frame_entryRun :
    ∃ m : CallSys, Reach step Orderly (start {}) entryRun m ∧
      m.phase 1 matches .forkStacked 3 0x10000 ∧
      OwnFrame m := by
  obtain ⟨m, hr, hp⟩ := Reach.of_runsTo step Orderly (start {}) entryRun
    (fun m => m.phase 1 matches .forkStacked 3 0x10000) (by decide)
  exact ⟨m, hr, hp, own_frame hr⟩

/-- The run in which slot 2 enters the kernel after slot 1. -/
def raceRun : List CallOp :=
  entryRun ++ [.sys .pitTick, .sys (.tick 0x500 {} true),
    .int80 { eax := sysExecmod, eip := 0x222 }, .store,
    .sys .pitTick, .sys (.tick 0x600 {} true)]

/-- **Foreign frame**: when slot 1 goes on, its child gets the frame of
slot 2. -/
theorem foreign_frame : ∃ m : CallSys, Reach step Legal (start {}) raceRun m ∧ ¬ OwnFrame m := by
  obtain ⟨m, hr, hp⟩ := Reach.of_runsTo step Legal (start {}) raceRun
    (fun m => (m.phase m.sched.currentIdx matches .forkStacked 3 0x10000) ∧
      (m.sched.frames m.sched.syscallFrameEsp).eip = 0x222 ∧
      (m.sched.frames (m.trap m.sched.currentIdx)).eip = 0x111) (by decide)
  obtain ⟨hph, hcell, hown⟩ := of_decide_eq_true hp
  refine ⟨m, hr, fun h => ?_⟩
  cases hphase : m.phase m.sched.currentIdx with
  | forkStacked slot stack =>
      have hcopy := h.copied slot stack _ hphase rfl
      have heip := congrArg (fun f => (f (userFrameTop stack)).eip) hcopy
      rw [hphase] at heip
      simp only [advance, copyFrame, set_self] at heip
      rw [hcell, hown] at heip
      contradiction
  | _ =>
      rw [hphase] at hph
      contradiction

end CallSys

end Doors
