import Doors.Process.Spaces

/-!
# Doors.Process.Isolation

Copy-on-write does what copying would do.

`view` is what a task sees of the memory: at each address whether it may write there, and the
byte.  In the `Ideal` memory every directory has bytes of its own: `fork` and a new task copy
them all at once, a store changes one byte of one task, and nothing ever faults.

* `ideal_run` — in every run all tasks see what they would see in the ideal memory;
* `store_fails_iff` — what is left of the faults: a store fails where a task may not write, and
  when a page is shared and there is no frame for a copy.
-/

namespace Doors

open Memory Phys Run

/-- What a task with the directory `d` sees at `x`: whether it may write, and the byte. -/
def view (mem : Nat → BitVec 8) (d x : Nat) : Option (Bool × BitVec 8) :=
  let e := pteAt mem d (pdeIdx x) (pteIdx x)
  if present e ∧ user e then some (mayWrite e, mem (addr e + x % pageSize)) else none

/-- A memory for each directory. -/
abbrev Ideal := Nat → Nat → Option (Bool × BitVec 8)

/-- The operations on memories that share nothing; one that failed did nothing. -/
def Ideal.step (I : Ideal) (kernelDir : Nat) : SpaceOp → Option Nat → Ideal
  | _, none => I
  | .map d v bytes, some _ => Function.update I d fun x =>
      if x / pageSize = v / pageSize then some (true, bytes (x % pageSize)) else I d x
  | .unmap d v, some _ => Function.update I d fun x =>
      if x / pageSize = v / pageSize then none else I d x
  | .clear d v, some _ => Function.update I d fun x =>
      if x / pdeSize = v / pdeSize then none else I d x
  | .spawn, some pd => Function.update I pd (I kernelDir)
  | .fork d, some pd => Function.update I pd (I d)
  | .exit _, some _ => I
  | .store d x b, some _ => Function.update I d (Function.update (I d) x (some (true, b)))

/-- The directories beside the ideal memory, which gets the same operations and their results. -/
structure Twin where
  family : Family
  ideal : Ideal

namespace Twin

def next (T : Twin) (op : SpaceOp) : Except Unit Twin :=
  .ok ⟨(T.family.step op).2, T.ideal.step T.family.kernelDir op (T.family.step op).1⟩

def Allowed (T : Twin) (op : SpaceOp) : Prop := T.family.Allowed op

/-- All tasks see the ideal memory. -/
def Agree (T : Twin) : Prop := ∀ d ∈ T.family.dirs, ∀ x < 2 ^ 32,
    view T.family.phys.mem d x = T.ideal d x

end Twin

/-! ## what an operation leaves in view -/

variable {M : Set Nat} {F : Family} {st st' : Phys} {mem : Nat → BitVec 8}
  {live live' held held' : Multiset Nat} {s : Nat → Nat → Nat → Nat}
variable {d d' d₀ e i j v x x' pd : Nat} {b : BitVec 8}

theorem same_page_iff : x / pageSize = v / pageSize ↔
    pdeIdx x = pdeIdx v ∧ pteIdx x = pteIdx v := by
  unfold pdeIdx pteIdx pdeSize pageSize
  omega

/-- The address of a byte is known by the page and the place in it. -/
theorem same_byte (hi : pdeIdx x' = pdeIdx x) (hj : pteIdx x' = pteIdx x)
    (hx : x' % pageSize = x % pageSize) : x' = x := by
  unfold pdeIdx pteIdx pdeSize pageSize at *
  omega

/-- **A page that is still there** looks as before. -/
theorem Memory.Remapped.view (h : Remapped M live held live' held' st st' s) (hd₀ : d₀ ∈ live)
    (hd : d ∈ live') (hx : pdeIdx x < pteCount)
    (hs : Alike (pteAt st.mem d₀ (pdeIdx x) (pteIdx x)) (s d (pdeIdx x) (pteIdx x))) :
    view st'.mem d x = view st.mem d₀ x := by
  have hj := pteIdx_lt x
  have hslot := h.slots d hd _ hx _ hj
  unfold Doors.view
  dsimp only
  rw [hslot, hs.present, hs.user, hs.mayWrite, hs.addr]
  split
  · next hu =>
      have hin : addr (pteAt st.mem d₀ (pdeIdx x) (pteIdx x)) ∈ mapped st.mem live :=
        mem_mapped.mpr ⟨d₀, hd₀, _, hx, _, hj, mem_entryRefs.mpr ⟨hu.1, rfl⟩⟩
      have hin' : addr (pteAt st.mem d₀ (pdeIdx x) (pteIdx x)) ∈ mapped st'.mem live' := by
        refine mem_mapped.mpr ⟨d, hd, _, hx, _, hj, mem_entryRefs.mpr ⟨?_, ?_⟩⟩
        · rw [hslot, hs.present]
          exact hu.1
        · rw [hslot, hs.addr]
      have hlt : x % pageSize < pageSize := Nat.mod_lt _ (by decide)
      rw [h.kept _ (Multiset.mem_add.mpr (.inl hin))
        (Multiset.mem_add.mpr (.inl (Multiset.mem_add.mpr (.inr hin')))) _ (by omega) (by omega)]
  · rfl

/-- What is not mapped is not seen. -/
theorem view_zero (h : pteAt mem d (pdeIdx x) (pteIdx x) = 0) : view mem d x = none := by
  unfold view
  rw [h]
  rfl

/-- **A fault that was served** is not seen. -/
theorem Memory.Served.view (hx : pdeIdx x < pteCount) (hd : d ∈ live)
    (hs : Served M live 0 d (pdeIdx x) (pteIdx x) e st st') (hd' : d' ∈ live)
    (hx' : pdeIdx x' < pteCount) : view st'.mem d' x' = view st.mem d' x' := by
  by_cases hat : d' = d ∧ pdeIdx x' = pdeIdx x ∧ pteIdx x' = pteIdx x
  · obtain ⟨rfl, hi, hj⟩ := hat
    have hslot := hs.remapped.slots d' hd _ hx _ (pteIdx_lt x)
    rw [setSlot, if_pos ⟨rfl, rfl, rfl⟩] at hslot
    unfold Doors.view
    dsimp only
    rw [hi, hj, hslot, hs.flags.1, hs.flags.2, hs.bytes _ (Nat.mod_lt _ (by decide))]
    unfold mayWrite
    rw [hs.rights.1, hs.faulted.2, Bool.or_true, Bool.true_or]
  · refine hs.remapped.view hd' hd' hx' ?_
    rw [setSlot, if_neg hat]
    exact .refl _

/-- **A store is seen** by its task, and by no other. -/
theorem Family.Sane.view_poke (h : Family.Sane M F) (hd : d ∈ F.dirs) (hk : d ≠ F.kernelDir)
    (hx : pdeIdx x < pteCount)
    (hm : F.phys.mayStore d x = true) (hd' : d' ∈ F.dirs) (hx' : pdeIdx x' < pteCount) :
    view (F.phys.poke d x b).mem d' x' = if d' = d ∧ x' = x then some (true, b)
      else view F.phys.mem d' x' := by
  obtain ⟨hu, -, hp, hus, hw⟩ := mayStore_iff.mp hm
  obtain ⟨-, hsame⟩ := h.spaces.poke (b := b) (Multiset.mem_coe.mpr hd) hx hm
  have hslot := (pteAt_same hsame (Multiset.mem_coe.mpr hd') hx').2 _ (pteIdx_lt x')
  have hj := pteIdx_lt x
  have hj' := pteIdx_lt x'
  unfold view
  dsimp only
  rw [hslot, poke_mem hu]
  by_cases hat : d' = d ∧ x' = x
  · obtain ⟨rfl, rfl⟩ := hat
    have htarget : addr (pteAt F.phys.mem d' (pdeIdx x') (pteIdx x')) + x' % pageSize =
      target F.phys.mem d' x' := rfl
    rw [if_pos ⟨hp, hus⟩, if_pos ⟨rfl, rfl⟩, htarget, Function.update_self]
    unfold mayWrite
    rw [hw, Bool.true_or]
  · rw [if_neg hat]
    split
    · next hv =>
        rw [Function.update_of_ne]
        intro heq
        have hal := addr_mod (pteAt F.phys.mem d' (pdeIdx x') (pteIdx x'))
        have hal' := addr_mod (pteAt F.phys.mem d (pdeIdx x) (pteIdx x))
        unfold target at heq
        have hframe : addr (pteAt F.phys.mem d' (pdeIdx x') (pteIdx x')) =
            addr (pteAt F.phys.mem d (pdeIdx x) (pteIdx x)) := by
          unfold pageSize at *
          omega
        have hplace : x' % pageSize = x % pageSize := by omega
        obtain ⟨-, hall⟩ := h.fair.sole d hd hk _ hx _ hj hp hw
        have hdd := hall d' hd' _ hx' _ hj' hv.1 hframe
        subst hdd
        obtain ⟨hii, hjj⟩ := h.fair.once d' hd _ hx' _ hj' _ hx _ hj hv.1 hp hframe
        exact hat ⟨rfl, same_byte hii hjj hplace⟩
    · rfl

/-! ## every step -/

namespace Twin

open Family

variable {T : Twin}

/-- An operation that is not seen. -/
theorem Agree.keep {I : Ideal} (h : Agree ⟨F, I⟩)
    (hlive : ∀ d ∈ F.dirs, ∀ x, pdeIdx x < pteCount → view st.mem d x = view F.phys.mem d x) :
    Agree ⟨{ F with phys := st }, I⟩ :=
  fun d hd x hx => (hlive d hd x (pdeIdx_lt_of hx)).trans (h d hd x hx)

/-- **One step**: what the tasks see stays what they would see in the ideal memory. -/
theorem Agree.step {I : Ideal} {op : SpaceOp} (hS : Sane M F) (h : Agree ⟨F, I⟩)
    (hop : F.Allowed op) :
    Agree ⟨(F.step op).2, I.step F.kernelDir op (F.step op).1⟩ := by
  have hcases := hS.step_cases hop
  generalize F.step op = r at hcases ⊢
  cases hcases with
  | @map d v f bytes st hd hv hfal hf hR =>
      intro d' hd' x hx
      have hi := pdeIdx_lt_of hx
      have hj := pteIdx_lt x
      show view _ d' x = Function.update I d _ d' x
      by_cases hdd : d' = d
      · subst hdd
        rw [Function.update_self]
        by_cases hpage : x / pageSize = v / pageSize
        · have hslot := hR.slots d' hd' _ hi _ hj
          obtain ⟨hii, hjj⟩ := same_page_iff.mp hpage
          rw [setSlot, if_pos ⟨rfl, hii, hjj⟩] at hslot
          have haddr : addr (mkEntry f 7) = f := by
            rw [addr_mkEntry (by decide), addr_of_aligned hfal]
          have hflags : present (mkEntry f 7) = true ∧ user (mkEntry f 7) = true := by
            rw [present_iff, user_iff, mkEntry_mod]
            decide
          have hwrite : mayWrite (mkEntry f 7) = true := by
            unfold mayWrite writable mkEntry addr pageRw pageSize
            rw [Bool.or_eq_true, decide_eq_true_iff]
            omega
          have hlt : x % pageSize < pageSize := Nat.mod_lt _ (by decide)
          have hbyte : (st.fillFrame f bytes).mem (f + x % pageSize) =
            bytes (f + x % pageSize - f) := if_pos (by omega)
          unfold view
          dsimp only
          rw [if_pos hpage, hslot, if_pos hflags, haddr, hwrite, hbyte, Nat.add_sub_cancel_left]
        · rw [if_neg hpage, hR.view hd' hd' hi, h d' hd' x hx]
          rw [setSlot, if_neg fun hat => hpage (same_page_iff.mpr hat.2)]
          exact .refl _
      · rw [Function.update_of_ne hdd, hR.view hd' hd' hi, h d' hd' x hx]
        rw [setSlot, if_neg fun hat => hdd hat.1]
        exact .refl _
  | @unmap d v st hR =>
      intro d' hd' x hx
      have hi := pdeIdx_lt_of hx
      have hj := pteIdx_lt x
      show view _ d' x = Function.update I d _ d' x
      by_cases hat : d' = d ∧ pdeIdx x = pdeIdx v ∧ pteIdx x = pteIdx v
      · have hslot := hR.slots d' hd' _ hi _ hj
        rw [setSlot, if_pos hat] at hslot
        rw [hat.1, Function.update_self, if_pos (same_page_iff.mpr hat.2), ← hat.1]
        exact view_zero hslot
      · have hsame : view st.mem d' x = I d' x := by
          rw [hR.view hd' hd' hi, h d' hd' x hx]
          rw [setSlot, if_neg hat]
          exact .refl _
        by_cases hdd : d' = d
        · rw [hdd, Function.update_self, if_neg fun hpage => hat ⟨hdd, same_page_iff.mp hpage⟩,
            ← hdd]
          exact hsame
        · rw [Function.update_of_ne hdd]
          exact hsame
  | @clear d v st hR =>
      intro d' hd' x hx
      have hi := pdeIdx_lt_of hx
      have hj := pteIdx_lt x
      show view _ d' x = Function.update I d _ d' x
      by_cases hat : d' = d ∧ pdeIdx x = pdeIdx v
      · have hslot := hR.slots d' hd' _ hi _ hj
        rw [clearSlots, if_pos hat] at hslot
        have htable : x / pdeSize = v / pdeSize := hat.2
        rw [hat.1, Function.update_self, if_pos htable, ← hat.1]
        exact view_zero hslot
      · have hsame : view st.mem d' x = I d' x := by
          rw [hR.view hd' hd' hi, h d' hd' x hx]
          rw [clearSlots, if_neg hat]
          exact .refl _
        by_cases hdd : d' = d
        · have htable : ¬ x / pdeSize = v / pdeSize := fun heq => hat ⟨hdd, heq⟩
          rw [hdd, Function.update_self, if_neg htable, ← hdd]
          exact hsame
        · rw [Function.update_of_ne hdd]
          exact hsame
  | @spawn pd st hlen hno hR =>
      intro d' hd' x hx
      have hi := pdeIdx_lt_of hx
      show view _ d' x = Function.update I pd _ d' x
      by_cases hdd : d' = pd
      · rw [hdd, Function.update_self, hR.view (Multiset.mem_coe.mpr hS.kernel)
          (Multiset.mem_coe.mpr (List.mem_cons_self ..)) hi,
          h _ hS.kernel x hx]
        rw [cloneSlots, if_pos rfl]
        exact protect_alike _
      · have hold : d' ∈ F.dirs := (List.mem_cons.mp hd').resolve_left hdd
        rw [Function.update_of_ne hdd, hR.view (Multiset.mem_coe.mpr hold)
          (Multiset.mem_coe.mpr hd') hi, h d' hold x hx]
        rw [cloneSlots, if_neg hdd]
        exact .refl _
  | @fork d pd st hd hlen hno hR =>
      intro d' hd' x hx
      have hi := pdeIdx_lt_of hx
      have hdpd : d ≠ pd := fun heq => hno (heq ▸ hd)
      show view _ d' x = Function.update I pd _ d' x
      by_cases hdd : d' = pd
      · rw [hdd, Function.update_self, hR.view (Multiset.mem_coe.mpr hd)
          (Multiset.mem_coe.mpr (List.mem_cons_self ..)) hi, h d hd x hx]
        rw [forkSlots, shareSlots, if_neg hdpd.symm, cloneSlots, if_pos rfl]
        exact protect_alike _
      · have hold : d' ∈ F.dirs := (List.mem_cons.mp hd').resolve_left hdd
        rw [Function.update_of_ne hdd, hR.view (Multiset.mem_coe.mpr hold)
          (Multiset.mem_coe.mpr hd') hi, h d' hold x hx]
        by_cases hpar : d' = d
        · rw [forkSlots, shareSlots, if_pos hpar, cloneSlots, if_neg hdpd, hpar]
          exact share_alike _
        · rw [forkSlots, shareSlots, if_neg hpar, cloneSlots, if_neg hdd]
          exact .refl _
  | @exit d st hk hd hno hR =>
      intro d' hd' x hx
      have hold : d' ∈ F.dirs := List.mem_of_mem_erase hd'
      show view _ d' x = I d' x
      rw [hR.view (Multiset.mem_coe.mpr hold) (Multiset.mem_coe.mpr hd') (pdeIdx_lt_of hx)
        (.refl _), h d' hold x hx]
  | @stored d x b st hd hk hx hst =>
      intro d' hd' x' hx'
      have hi := pdeIdx_lt_of hx
      have hi' := pdeIdx_lt_of hx'
      show view _ d' x' = Function.update I d _ d' x'
      have hview : view st.mem d' x' = if d' = d ∧ x' = x then some (true, b)
          else view F.phys.mem d' x' := by
        cases hst with
        | done hm => exact hS.view_poke hd hk hi hm hd' hi'
        | @served e' st' _ hs _ hm =>
            have hS' := hS.served hd hx hs
            refine (Sane.view_poke hS' hd hk hi hm hd' hi').trans ?_
            split
            · rfl
            · exact hs.view hi (Multiset.mem_coe.mpr hd) (Multiset.mem_coe.mpr hd') hi'
      rw [hview]
      by_cases hdd : d' = d
      · subst hdd
        rw [Function.update_self]
        by_cases hxx : x' = x
        · rw [if_pos ⟨rfl, hxx⟩, hxx, Function.update_self]
        · rw [if_neg fun hat => hxx hat.2, Function.update_of_ne hxx]
          exact h d' hd' x' hx'
      · rw [if_neg fun hat => hdd hat.1, Function.update_of_ne hdd]
        exact h d' hd' x' hx'
  | @fault d x b st hd hx hst =>
      cases hst with
      | fault _ hs _ =>
          exact h.keep fun d' hd' x' hx' => hs.view (pdeIdx_lt_of hx) (Multiset.mem_coe.mpr hd)
            (Multiset.mem_coe.mpr hd') hx'
      | none => exact h
  | failed hR =>
      exact h.keep fun d' hd' x' hx' => hR.view (Multiset.mem_coe.mpr hd')
        (Multiset.mem_coe.mpr hd') hx' (.refl _)

/-- **Copy-on-write is copying**: after any operations the tasks see the memory that copies at
once would have given them. -/
theorem ideal_run {tr : List SpaceOp} (h : Sane M F)
    (hrun : Reach next Allowed ⟨F, view F.phys.mem⟩ tr T) : T.Agree :=
  (Reach.inv (P := fun T => Sane M T.family ∧ T.Agree) ⟨h, fun _ _ _ _ => rfl⟩
    (fun T op T' hT hop hnext => by
    obtain rfl := Except.ok.inj hnext
    exact ⟨hT.1.step hop, Agree.step hT.1 hT.2 hop⟩) hrun).2

/-- A run of the directories is a run beside an ideal memory. -/
theorem reach_twin {F₀ : Family} {tr : List SpaceOp} (I : Ideal)
    (hrun : Reach Family.next Family.Allowed F₀ tr F) :
    ∃ J, Reach next Allowed ⟨F₀, I⟩ tr ⟨F, J⟩ := by
  induction hrun with
  | nil => exact ⟨I, .nil⟩
  | @snoc tr F F' op _ hop hnext ih =>
      obtain ⟨J, hrun⟩ := ih
      obtain rfl : (F.step op).2 = F' := Except.ok.inj hnext
      exact ⟨J.step F.kernelDir op (F.step op).1, .snoc hrun hop rfl⟩

theorem ideal_twoTasks : ∃ T, Reach next Allowed ⟨bare, view bare.phys.mem⟩ twoTasks T ∧
    T.Agree := by
  obtain ⟨F, hrun⟩ := reach_twoTasks
  obtain ⟨J, hrun⟩ := reach_twin (view bare.phys.mem) hrun
  exact ⟨⟨F, J⟩, hrun, ideal_run bare_sane hrun⟩

end Twin

/-! ## what is left of the faults -/

namespace Family

/-- A page that a task may write, at once or after a fault. -/
theorem view_write_iff : (∃ c, view mem d x = some (true, c)) ↔
    present (pteAt mem d (pdeIdx x) (pteIdx x)) = true ∧
      user (pteAt mem d (pdeIdx x) (pteIdx x)) = true ∧
      mayWrite (pteAt mem d (pdeIdx x) (pteIdx x)) = true := by
  unfold view
  dsimp only
  split
  · next hu => simp [hu.1, hu.2]
  · next hu =>
      rw [not_and] at hu
      constructor
      · rintro ⟨c, hc⟩
        cases hc
      · rintro ⟨hp, hus, -⟩
        exact absurd hus (hu hp)

/-- The directory of a page that is present. -/
theorem pde_of_present (h : present (pteAt mem d i j) = true) :
    present (word mem (d + 4 * i)) = true ∧ user (word mem (d + 4 * i)) = true := by
  by_contra hno
  rw [pteAt_none hno] at h
  exact absurd h (by decide)

/-- What the processor checks, where the tables may be written. -/
theorem Sane.mayStore_iff (h : Sane M F) (hd : d ∈ F.dirs) (hx : x < 2 ^ 32) :
    F.phys.mayStore d x = true ↔
    present (pteAt F.phys.mem d (pdeIdx x) (pteIdx x)) = true ∧
      user (pteAt F.phys.mem d (pdeIdx x) (pteIdx x)) = true ∧
      writable (pteAt F.phys.mem d (pdeIdx x) (pteIdx x)) = true := by
  rw [Doors.mayStore_iff]
  constructor
  · rintro ⟨-, -, hpte⟩
    exact hpte
  · intro hpte
    have hu := pde_of_present hpte.1
    exact ⟨hu, h.gates d (Multiset.mem_coe.mpr hd) _ (pdeIdx_lt_of hx) hu.1 hu.2, hpte⟩

theorem step_store (F : Family) (d x : Nat) (b : BitVec 8) :
    (F.step (.store d x b)).1 = none ↔ (F.phys.userStore d x b).1 = false := by
  unfold Family.step
  cases hr : F.phys.userStore d x b with
  | mk ok st =>
      simp only [hr]
      cases ok with
      | true => simp
      | false => simp

/-- **When a store fails**, in any run: where the task may not write, and at a page that it shares
when there is no frame for a copy. -/
theorem store_fails_iff {F₀ : Family} {tr : List SpaceOp} (h : Sane M F₀)
    (hrun : Reach next Allowed F₀ tr F)
    (hop : F.Allowed (.store d x b)) : (F.step (.store d x b)).1 = none ↔
      (∀ c, view F.phys.mem d x ≠ some (true, c)) ∨
        F.phys.free = [] ∧ ¬ F.phys.mayStore d x = true ∧ SharedFrame F.phys.mem ↑F.dirs d x := by
  have hS := sane_run h hrun
  obtain ⟨hd, hk, hx⟩ := hop
  have hst := hS.spaces.userStore (Multiset.mem_coe.mpr hd) (pdeIdx_lt_of hx) b
  rw [step_store]
  generalize F.phys.userStore d x b = r at hst ⊢
  cases hst with
  | done hm =>
      obtain ⟨hp, hu, hw⟩ := (hS.mayStore_iff hd hx).mp hm
      obtain ⟨c, hc⟩ : ∃ c, view F.phys.mem d x = some (true, c) :=
        view_write_iff.mpr ⟨hp, hu, by rw [mayWrite, hw, Bool.true_or]⟩
      simp [hm, hc]
  | @served e' st' hm hs hfree hm' =>
      have hslot := hs.remapped.slots d (Multiset.mem_coe.mpr hd) _ (pdeIdx_lt_of hx) _
        (pteIdx_lt x)
      rw [setSlot, if_pos ⟨rfl, rfl, rfl⟩] at hslot
      obtain ⟨-, -, -, hu, -⟩ := Doors.mayStore_iff.mp hm'
      rw [hslot, hs.flags.2] at hu
      obtain ⟨c, hc⟩ : ∃ c, view F.phys.mem d x = some (true, c) :=
        view_write_iff.mpr ⟨hs.faulted.1, hu, by rw [mayWrite, hs.faulted.2, Bool.or_true]⟩
      refine ⟨fun hno => absurd hno (by simp), fun hor => ?_⟩
      rcases hor with hno | ⟨hno, -, hsh⟩
      · exact absurd hc (hno c)
      · exact absurd hsh (hfree hno)
  | @fault e' st' hm hs hm' =>
      have hslot := hs.remapped.slots d (Multiset.mem_coe.mpr hd) _ (pdeIdx_lt_of hx) _
        (pteIdx_lt x)
      rw [setSlot, if_pos ⟨rfl, rfl, rfl⟩] at hslot
      refine ⟨fun _ => .inl fun c hc => hm' ?_, fun _ => rfl⟩
      obtain ⟨hp, hu, -⟩ := view_write_iff.mp ⟨c, hc⟩
      refine ((hS.served hd hx hs).mayStore_iff hd hx).mpr ?_
      show present (pteAt st'.mem _ _ _) = true ∧ user (pteAt st'.mem _ _ _) = true ∧
        writable (pteAt st'.mem _ _ _) = true
      rw [hslot, hs.flags.1, hs.flags.2]
      exact ⟨hp, hu, hs.rights.1⟩
  | none hm hfree =>
      refine ⟨fun _ => or_iff_not_imp_left.mpr fun hno => ?_, fun _ => rfl⟩
      simp only [not_forall, ne_eq, not_not] at hno
      obtain ⟨hp, hu, hw⟩ := view_write_iff.mp hno
      have hcow : cow (pteAt F.phys.mem d (pdeIdx x) (pteIdx x)) = true := by
        rw [mayWrite, Bool.or_eq_true] at hw
        exact hw.resolve_left fun hwr => hm ((hS.mayStore_iff hd hx).mpr ⟨hp, hu, hwr⟩)
      obtain ⟨hnone, hsh⟩ := hfree hp hcow
      exact ⟨hnone, hm, hsh⟩

/-- A fork that succeeds adds the directory of the child. -/
theorem step_fork {F : Family} {d pd : Nat} {st : Phys} (h : F.phys.forkDir d = (pd, st))
    (hne : pd ≠ 0) :
    (F.step (.fork d)).2 = { F with phys := st, dirs := pd :: F.dirs } := by
  simp only [step, h]

/-- A task with one page, and frames for a child. -/
def oneTask : Family := (bare.step (.map 0x2000 0 fun _ => 7)).2

theorem oneTask_frames : oneTask.phys.free = [0x5000, 0x6000] ∧ oneTask.dirs = [0x1000, 0x2000] ∧
    oneTask.kernelDir = 0x1000 ∧
    userEntries oneTask.phys.mem 0x2000 pteCount = [0] ∧
      tableOf oneTask.phys.mem 0x2000 0 = 0x4000 ∧
      dirFrames oneTask.phys.mem 0x2000 pteCount = [0x3000] := by decide +kernel

theorem oneTask_cloneable : Cloneable 0x2000 oneTask.phys := by
  obtain ⟨hfree, -, -, hu, ht, hd⟩ := oneTask_frames
  have hpool : ∀ a ∈ [0x5000, 0x6000], a % pageSize = 0 ∧ a ≠ 0 ∧ a < 2 ^ 32 ∧
    a / pageSize < oneTask.phys.maxFrameIdx ∧
      oneTask.phys.refs (a / pageSize) = 0 := by decide +kernel
  have hlimit : ∀ m < oneTask.phys.maxFrameIdx,
      oneTask.phys.refs m + tally oneTask.phys.maxFrameIdx [0x3000] m ≤ maxRefcount := by
    decide +kernel
  refine ⟨?_, ?_, rfl, ?_, ?_, ?_, by decide +kernel, ?_⟩
  · rw [hfree]
    decide
  · rw [hfree]
    exact hpool
  · rw [hfree]
    decide
  · rw [hu, hfree]
    simp [ht]
  · rw [hd, hfree]
    decide
  · rw [hd]
    exact hlimit

/-- The task and its child share the page, and no frame is left. -/
theorem reach_forked : ∃ F, Reach next Allowed bare [.map 0x2000 0 fun _ => 7, .fork 0x2000] F ∧
    F.Allowed (.store 0x2000 0 1) ∧
    (∃ c, view F.phys.mem 0x2000 0 = some (true, c)) ∧
      F.phys.free = [] ∧ ¬ F.phys.mayStore 0x2000 0 = true ∧
        SharedFrame F.phys.mem ↑F.dirs 0x2000 0 := by
  obtain ⟨hfree, hdirs, hk, hu, -, -⟩ := oneTask_frames
  have hmap : Allowed bare (.map 0x2000 0 fun _ => 7) := ⟨by decide, by decide, by decide⟩
  have hfork : Allowed oneTask (.fork 0x2000) := by
    unfold Allowed
    rw [hdirs]
    decide
  have hS : Sane _ oneTask := bare_sane.step hmap
  have hfirst : next bare (.map 0x2000 0 fun _ => 7) = .ok oneTask := by
    unfold oneTask
    rfl
  have hsecond : next oneTask (.fork 0x2000) = .ok (oneTask.step (.fork 0x2000)).2 := by
    unfold next
    rfl
  have hreach := (Reach.nil.snoc hmap hfirst).snoc hfork hsecond
  obtain ⟨hne, hlen⟩ := forkDir_length oneTask_cloneable (by rw [hu, hfree]; decide)
  rw [hu, hfree] at hlen
  have hroom := hS.fair.once.room hS.spaces hfork.1 hfork.2
  -- the fork
  obtain ⟨⟨pd, st⟩, hstep⟩ : ∃ r, oneTask.phys.forkDir 0x2000 = r := exists_eq'
  rw [hstep] at hne hlen
  obtain ⟨-, hfresh, hR⟩ :=
    (hS.spaces.forkDir (Multiset.mem_coe.mpr hfork.1) hroom hstep).resolve_right fun h => hne h.1
  rw [step_fork hstep hne] at hreach
  have hpd : pd ≠ 0x2000 :=
    fun heq => hfresh (heq ▸ mem_refs (mem_structs.mpr (.inl (Multiset.mem_coe.mpr hfork.1))) 0)
  have hself : pteAt st.mem 0x2000 0 0 = share (pteAt oneTask.phys.mem 0x2000 0 0) := by
    rw [hR.slots 0x2000 (Multiset.mem_cons_of_mem (Multiset.mem_coe.mpr hfork.1)) 0 (by decide) 0
      (by decide), forkSlots, shareSlots,
      if_pos rfl, cloneSlots, if_neg hpd.symm]
  have hchild : pteAt st.mem pd 0 0 = protect (pteAt oneTask.phys.mem 0x2000 0 0) := by
    rw [hR.slots pd (Multiset.mem_cons_self ..) 0 (by decide) 0 (by decide), forkSlots, shareSlots,
      if_neg hpd, cloneSlots, if_pos rfl]
  have hpte : pteAt oneTask.phys.mem 0x2000 0 0 = 0x3007 := by decide +kernel
  rw [hpte] at hself hchild
  have hentry : pdeIdx 0 = 0 ∧ pteIdx 0 = 0 := by decide
  refine ⟨_, hreach, ⟨?_, ?_, by decide⟩, ?_, ?_, ?_, ?_⟩
  · exact List.mem_cons_of_mem _ hfork.1
  · rw [hk]
    decide
  · refine view_write_iff.mpr ?_
    rw [hentry.1, hentry.2, hself]
    decide
  · exact List.eq_nil_of_length_eq_zero (Nat.add_right_cancel hlen)
  · intro hm
    obtain ⟨-, -, -, -, hw⟩ := Doors.mayStore_iff.mp hm
    rw [hentry.1, hentry.2, hself] at hw
    exact absurd hw (by decide)
  · intro hone
    rw [hentry.1, hentry.2, hself] at hone
    have haddr : addr (share 0x3007) = 0x3000 := by decide
    rw [haddr] at hone
    refine hpd (mapped_one hone (List.mem_cons_of_mem _ hfork.1)
      (mem_dirPages.mpr ⟨0, by decide, 0, by decide, ?_⟩) (List.mem_cons_self ..)
      (mem_dirPages.mpr ⟨0, by decide, 0, by decide, ?_⟩))
    · rw [hself]
      decide
    · rw [hchild]
      decide

theorem store_fails_iff_forked :
    ∃ F, Reach next Allowed bare [.map 0x2000 0 fun _ => 7, .fork 0x2000] F ∧
    (∃ c, view F.phys.mem 0x2000 0 = some (true, c)) ∧ (F.step (.store 0x2000 0 1)).1 = none := by
  obtain ⟨F, hrun, hop, hview, hfails⟩ := reach_forked
  exact ⟨F, hrun, hview, (store_fails_iff bare_sane hrun hop).mpr (.inr hfails)⟩

end Family

end Doors
