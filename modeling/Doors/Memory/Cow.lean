import Doors.Memory.Slots

/-!
# Doors.Memory.Cow

Write faults on shared pages (`Paging::handleCowFault`), and the write protection of a parent
(`Scheduler::fork`).

* `Spaces.handleCowFault` — a page that is shared is copied, and one that is not is made writable.
-/

namespace Doors.Memory

def cow (e : Nat) : Bool := e / pageCow % 2 = 1

/-- `pte |= PAGE_RW; pte &= ~PAGE_COW;`. -/
def unshare (e : Nat) : Nat :=
  let e := if writable e then e else e + pageRw
  if cow e then e - pageCow else e

/-- `if ((pte & PAGE_PRESENT) && (pte & PAGE_RW) && !(pte & PAGE_COW)) { pte &= ~PAGE_RW; pte |=
PAGE_COW; }`. -/
def share (e : Nat) : Nat := if present e ∧ writable e ∧ ¬ cow e then e - pageRw + pageCow else e

namespace Phys

variable (st : Phys)

/-- `Pmm::refCount`. -/
def refCount (a : Nat) : Nat := if st.Counted a then st.refs (a / pageSize) else 0

/-- `Paging::handleCowFault`. -/
def handleCowFault (v dir : Nat) : Bool × Phys :=
  let pde := st.entry dir (pdeIdx v)
  if ¬ present pde ∨ ¬ user pde then (false, st)
  else
    let st := st.checkPhysAddr (addr pde)
    let pte := st.entry (addr pde) (pteIdx v)
    if ¬ present pte ∨ ¬ cow pte then (false, st)
    else
      let st := st.checkPhysAddr (addr pte)
      if st.refCount (addr pte) = 1 then (true, st.setEntry (addr pde) (pteIdx v) (unshare pte))
      else
        match st.allocFrame with
        | (none, st) => (false, st)
        | (some f, st) =>
            let st := st.copyFrame f (addr pte)
            let st := (st.removeRef (addr pte)).2
            (true, st.setEntry (addr pde) (pteIdx v) (unshare (mkEntry f (pte % pageSize))))

/-- `fork` write-protects the first `n` entries of a table of the parent. -/
def shareEntries (t : Nat) : Nat → Phys → Phys
  | 0, st => st
  | n + 1, st => let st := shareEntries t n st; st.setEntry t n (share (st.entry t n))

/-- `fork` write-protects the tables of the first `n` entries of the parent. -/
def shareTables (dir : Nat) : Nat → Phys → Phys
  | 0, st => st
  | n + 1, st =>
      let st := shareTables dir n st
      let pde := st.entry dir n
      if present pde ∧ user pde then shareEntries (addr pde) pteCount (st.checkPhysAddr (addr pde))
        else st

/-- What `Scheduler::fork` does to the memory; 0 is failure. -/
def forkDir (dir : Nat) : Nat × Phys :=
  match st.clonePageDir dir with
  | (0, st) => (0, st)
  | (child, st) => (child, shareTables dir pteCount st)

end Phys

open Phys

variable {M : Set Nat} {R live held held' : Multiset Nat} {st st' st₁ : Phys}
  {mem mem' : Nat → BitVec 8} {a d e f p t v n i j k : Nat}

/-! ## entries -/

/-- A shared entry is a word. -/
theorem share_lt (he : e < 2 ^ 32) : share e < 2 ^ 32 := by
  unfold share writable cow pageRw pageCow at *
  simp only [decide_eq_true_eq]
  split
  · omega
  · exact he

/-- Sharing keeps the page. -/
theorem share_same (e : Nat) : present (share e) = present e ∧ addr (share e) = addr e ∧
    user (share e) = user e := by
  unfold share
  split
  · next h =>
      obtain ⟨-, hrw, hcow⟩ := h
      unfold present addr user writable cow pageUser pageRw pageCow pageSize at *
      simp only [decide_eq_true_eq] at hrw hcow
      refine ⟨by rw [decide_eq_decide]; omega, by omega, by rw [decide_eq_decide]; omega⟩
  · exact ⟨rfl, rfl, rfl⟩

/-- An entry that is shared no more is a word. -/
theorem unshare_lt (he : e < 2 ^ 32) : unshare e < 2 ^ 32 := by
  unfold unshare writable cow pageRw pageCow at *
  simp only [decide_eq_true_eq]
  split
  · split
    · omega
    · omega
  · split
    · omega
    · omega

/-- The end of sharing keeps the page. -/
theorem unshare_same (e : Nat) : present (unshare e) = present e ∧ addr (unshare e) = addr e ∧
    user (unshare e) = user e := by
  unfold unshare present addr user writable cow pageUser pageRw pageCow pageSize
  simp only [decide_eq_true_eq]
  split
  · split
    · refine ⟨by rw [decide_eq_decide]; omega, by omega, by rw [decide_eq_decide]; omega⟩
    · exact ⟨rfl, rfl, rfl⟩
  · split
    · refine ⟨by rw [decide_eq_decide]; omega, by omega, by rw [decide_eq_decide]; omega⟩
    · refine ⟨by rw [decide_eq_decide]; omega, by omega, by rw [decide_eq_decide]; omega⟩

/-- The page may be written again. -/
theorem unshare_rights (e : Nat) : writable (unshare e) = true ∧ cow (unshare e) = false := by
  unfold unshare writable cow pageRw pageCow
  simp only [decide_eq_true_eq, decide_eq_false_iff_not]
  split
  · split
    · omega
    · omega
  · split
    · omega
    · omega

/-- The entry of a copy has the flags of the entry. -/
theorem mkEntry_flags (f p : Nat) :
    present (mkEntry f (p % pageSize)) = present p ∧ user (mkEntry f (p % pageSize)) = user p ∧
      writable (mkEntry f (p % pageSize)) = writable p := by
  have hmod : mkEntry f (p % pageSize) % 8 = p % 8 := by
    rw [mkEntry_mod]
    unfold pageSize
    omega
  refine ⟨?_, ?_, ?_⟩
  · rw [Bool.eq_iff_iff, present_iff, present_iff, hmod]
  · rw [Bool.eq_iff_iff, user_iff, user_iff, hmod]
  · unfold writable pageRw
    rw [decide_eq_decide]
    omega

/-! ## the fault -/

/-- **A fault that was served**: the entry is `e'` now, its frame has no other use, and has the
contents of the frame before. -/
structure Served (M : Set Nat) (live held : Multiset Nat) (d i j e' : Nat)
    (st st' : Phys) : Prop where
  remapped : Remapped M live held live held st st' (setSlot (pteAt st.mem) d i j e')
  faulted : present (pteAt st.mem d i j) = true ∧ cow (pteAt st.mem d i j) = true
  rights : writable e' = true ∧ cow e' = false
  flags : present e' = present (pteAt st.mem d i j) ∧ user e' = user (pteAt st.mem d i j)
  alone : (refsOf st'.mem live held).count (addr e') = 1
  frame : addr e' = addr (pteAt st.mem d i j) ∨ addr e' ∉ mapped st.mem live
  bytes : ∀ x < pageSize, st'.mem (addr e' + x) = st.mem (addr (pteAt st.mem d i j) + x)

/-- The reference of one entry, and the others. -/
theorem refs_entry (held : Multiset Nat) (hd : d ∈ live) (hi : i < pteCount)
    (hu : present (word mem (d + 4 * i)) = true ∧ user (word mem (d + 4 * i)) = true)
    (hj : j < pteCount)
    (hp : present (pteAt mem d i j) = true) :
    ∃ X, refsOf mem live held = addr (pteAt mem d i j) ::ₘ (structs mem live + X + held) := by
  obtain ⟨X, hX⟩ := mapped_entry hd hi hu hj
  rw [← pteAt_user hu, entryRefs, if_pos hp] at hX
  refine ⟨X, ?_⟩
  rw [refsOf, hX, ← Multiset.singleton_add]
  abel

/-- **The page of one owner** is made writable. -/
theorem Spaces.ownPage (h : Spaces M live held st) (hd : d ∈ live) (hi : i < pteCount)
    (hu : present (word st.mem (d + 4 * i)) = true ∧ user (word st.mem (d + 4 * i)) = true)
    (ht : addr (word st.mem (d + 4 * i)) = t)
    (hj : j < pteCount) (hf : present (pteAt st.mem d i j) = true ∧ cow (pteAt st.mem d i j) = true)
    (hone : (refsOf st.mem live held).count (addr (pteAt st.mem d i j)) = 1) :
    Served M live held d i j (unshare (pteAt st.mem d i j)) st
      (st.setEntry t j (unshare (pteAt st.mem d i j))) := by
  have htin : t ∈ structs st.mem live :=
    mem_structs.mpr (.inr ⟨d, hd, i, hi, mem_tabRefs.mpr ⟨hu, ht.symm⟩⟩)
  obtain ⟨X, hX⟩ := refs_entry held hd hi hu hj hf.1
  have hpte : word st.mem (t + 4 * j) = pteAt st.mem d i j := by rw [pteAt_user hu, ht]
  have hlt : pteAt st.mem d i j < 2 ^ 32 := by
    rw [← hpte]
    exact word_lt st.mem _
  have hin : addr (pteAt st.mem d i j) ∈ mapped st.mem live :=
    mem_mapped.mpr ⟨d, hd, i, hi, j, hj, mem_entryRefs.mpr ⟨hf.1, rfl⟩⟩
  generalize hslot : pteAt st.mem d i j = p at hf hone hX hpte hlt hin ⊢
  have hsame : ∀ a, a % pageSize = 0 → a ≠ t → Same st.mem (st.setEntry t j (unshare p)).mem a :=
    fun a hal hat =>
    same_setWord hal (h.aligned htin) hat hj
  have hword : word (st.setEntry t j (unshare p)).mem (t + 4 * j) = unshare p :=
    word_setWord st.mem (unshare_lt hlt)
  have hkept : ∀ a ∈ mapped st.mem live + held, Same st.mem (st.setEntry t j (unshare p)).mem a :=
    fun a ha => by
    have hR : a ∈ refsOf st.mem live held := by
      rw [refsOf, add_assoc]
      exact Multiset.mem_add.mpr (.inr ha)
    exact hsame a (h.exact.aligned (h.exact.used_in a hR)) fun heq => h.no_struct ha (heq ▸ htin)
  have hexact : Exact M (refsOf st.mem live held) (st.setEntry t j (unshare p)) := h.exact.setEntry
  have hR := h.setPte hd hi hu ht hj hword (fun k hk hkj => word_setWord_of_ne hkj)
    (fun a ha hat => hsame a (h.aligned ha) hat)
    hexact (by rw [hpte, entryRefs_congr (unshare_same p).1 (unshare_same p).2.1])
      (fun a ha => (h.alone a ha).le)
    (fun a ha _ => hkept a ha)
      (within_setEntry (h.aligned htin) hj (h.exact.used_in t (mem_refs htin held)))
  refine ⟨hR, by rw [hslot]; exact hf, unshare_rights p, ?_, ?_,
    .inl (by rw [hslot]; exact (unshare_same p).2.1), fun x hx => ?_⟩
  · rw [hslot]
    exact ⟨(unshare_same p).1, (unshare_same p).2.2⟩
  · rw [← hexact.unique hR.spaces.exact, (unshare_same p).2.1]
    exact hone
  · rw [(unshare_same p).2.1, hslot]
    exact hkept _ (Multiset.mem_add.mpr (.inl hin)) _ (by omega) (by omega)

/-- **A page with other owners** is copied to a fresh frame. -/
theorem Spaces.copyPage (h : Spaces M live held st) (hd : d ∈ live) (hi : i < pteCount)
    (hu : present (word st.mem (d + 4 * i)) = true ∧ user (word st.mem (d + 4 * i)) = true)
    (ht : addr (word st.mem (d + 4 * i)) = t)
    (hj : j < pteCount) (hslot : pteAt st.mem d i j = p) (hf : present p = true ∧ cow p = true)
    (hmore : (refsOf st.mem live held).count (addr p) ≠ 1)
    (halloc : st.allocFrame = (some f, st₁)) :
    Served M live held d i j (unshare (mkEntry f (p % pageSize))) st
      ((((st₁.copyFrame f (addr p)).removeRef (addr p)).2).setEntry t j
        (unshare (mkEntry f (p % pageSize)))) := by
  have htin : t ∈ structs st.mem live :=
    mem_structs.mpr (.inr ⟨d, hd, i, hi, mem_tabRefs.mpr ⟨hu, ht.symm⟩⟩)
  have hpte : word st.mem (t + 4 * j) = p := by rw [← hslot, pteAt_user hu, ht]
  obtain ⟨X, hX⟩ := refs_entry held hd hi hu hj (by rw [hslot]; exact hf.1)
  rw [hslot] at hX
  have hin : addr p ∈ mapped st.mem live :=
    mem_mapped.mpr ⟨d, hd, i, hi, j, hj, by rw [hslot]; exact mem_entryRefs.mpr ⟨hf.1, rfl⟩⟩
  obtain ⟨hexact, hfM, hfresh, hmem, -⟩ := h.exact.alloc halloc
  have hfal := h.exact.aligned hfM
  rw [hX, Multiset.count_cons_self] at hmore
  have hrest : addr p ∈ structs st.mem live + X + held := Multiset.count_pos.mp (by omega)
  -- the copy, and one reference less to the frame that was shared
  have hcopied : Exact M (addr p ::ₘ f ::ₘ (structs st.mem live + X + held))
      (st₁.copyFrame f (addr p)) := by
    rw [hX, Multiset.cons_swap] at hexact
    exact hexact.congr rfl rfl rfl rfl
  have hbytes : ∀ x < pageSize, (st₁.copyFrame f (addr p)).mem (f + x) = st.mem (addr p + x) := by
    intro x hx
    have hpf : addr p ≠ f := fun heq => hfresh (by rw [← heq, hX]; exact Multiset.mem_cons_self _ _)
    have hcopy : (st₁.copyFrame f (addr p)).mem (f + x) = st₁.mem (addr p + (f + x - f)) :=
      if_pos (by omega)
    rw [hcopy, Nat.add_sub_cancel_left]
    exact same_of_outside (addr_mod p) hfal hpf hmem _ (by omega) (by omega)
  have hout : ∀ a, a % pageSize = 0 → a ≠ f → Same st.mem (st₁.copyFrame f (addr p)).mem a :=
    fun a hal haf =>
    same_of_outside hal hfal haf fun x hx => by
      have hcopy : (st₁.copyFrame f (addr p)).mem x = st₁.mem x := if_neg (by omega)
      rw [hcopy, hmem x hx]
  obtain ⟨hexact₂, hmem₂⟩ := hcopied.removeRef (Multiset.mem_cons_of_mem hrest)
  have hwithin₂ : Within (· ∈ M) st ((st₁.copyFrame f (addr p)).removeRef (addr p)).2 :=
    ((h.exact.within_alloc halloc).trans (within_copyFrame hfal hfM)).trans
      (within_removeRef (addr_mod p) (hcopied.used_in _ (Multiset.mem_cons_self _ _)))
  rw [← hmem₂] at hbytes hout
  generalize ((st₁.copyFrame f (addr p)).removeRef (addr p)).2 =
    st₂ at hexact₂ hbytes hout hwithin₂ ⊢
  -- the new entry
  have hflt : p % pageSize < pageSize := Nat.mod_lt _ (by decide)
  have hlt := unshare_lt (mkEntry_lt (h.exact.lt hfM) hflt)
  have haddr : addr (unshare (mkEntry f (p % pageSize))) = f := by
    rw [(unshare_same _).2.1, addr_mkEntry hflt, addr_of_aligned hfal]
  have hflags : present (unshare (mkEntry f (p % pageSize))) = present p ∧
      user (unshare (mkEntry f (p % pageSize))) = user p := by
    rw [(unshare_same _).1, (unshare_same _).2.2]
    exact ⟨(mkEntry_flags f p).1, (mkEntry_flags f p).2.1⟩
  have hrights := unshare_rights (mkEntry f (p % pageSize))
  generalize unshare (mkEntry f (p % pageSize)) = e' at hlt haddr hflags hrights ⊢
  have hword : word (st₂.setEntry t j e').mem (t + 4 * j) = e' := word_setWord st₂.mem hlt
  have htf : t ≠ f := Spaces.ne_fresh htin hfresh
  have hsame : ∀ a ∈ refsOf st.mem live held, a ≠ t → Same st.mem (st₂.setEntry t j e').mem a := by
    intro a ha hat
    have hal := h.exact.aligned (h.exact.used_in a ha)
    exact (hout a hal fun heq => hfresh (heq ▸ ha)).trans (same_setWord hal (h.aligned htin) hat hj)
  have hkept : ∀ a ∈ mapped st.mem live + held, Same st.mem (st₂.setEntry t j e').mem a :=
    fun a ha => by
    refine hsame a ?_ fun heq => h.no_struct ha (heq ▸ htin)
    rw [refsOf, add_assoc]
    exact Multiset.mem_add.mpr (.inr ha)
  have hnew : ∀ x < pageSize, (st₂.setEntry t j e').mem (f + x) = st.mem (addr p + x) :=
    fun x hx => by
    rw [← hbytes x hx]
    exact same_setWord hfal (h.aligned htin) htf.symm hj _ (by omega) (by omega)
  have hwords : ∀ k < pteCount, k ≠ j → word (st₂.setEntry t j e').mem (t + 4 * k) =
      word st.mem (t + 4 * k) := fun k hk hkj =>
    (word_setWord_of_ne hkj).trans ((hout t (h.aligned htin) htf).word hk)
  have hexact₃ : Exact M (f ::ₘ (structs st.mem live + X + held)) (st₂.setEntry t j e') :=
    hexact₂.setEntry
  have hwithin :=
    hwithin₂.trans (within_setEntry (e := e') (h.aligned htin) hj
    (h.exact.used_in t (mem_refs htin held)))
  generalize st₂.setEntry t j e' = st' at hword hsame hkept hnew hwords hexact₃ hwithin ⊢
  have hno : f ∉ structs st.mem live + X + held :=
    fun hm => hfresh (by rw [hX]; exact Multiset.mem_cons_of_mem hm)
  have hR : Remapped M live held live held st st' (setSlot (pteAt st.mem) d i j e') := by
    refine h.setPte hd hi hu ht hj hword hwords (fun a ha hat => hsame a (mem_refs ha held) hat)
      hexact₃ ?_ (fun a ha => ?_) (fun a ha _ => hkept a ha)
      hwithin
    · have hnew : entryRefs e' = {f} := by rw [entryRefs, if_pos (hflags.1.trans hf.1), haddr]
      rw [hpte, hnew, entryRefs, if_pos hf.1, hX, ← Multiset.singleton_add,
        ← Multiset.singleton_add]
      abel
    · have hone := h.alone a ha
      rw [hX] at hone
      rw [Multiset.count_cons_of_ne (Spaces.ne_fresh ha hfresh)]
      exact (Multiset.count_le_count_cons a _ _).trans hone.le
  refine ⟨hR, by rw [hslot]; exact hf, hrights, by rw [hslot]; exact hflags, ?_,
    .inr fun hm => hfresh ?_, fun x hx => ?_⟩
  · rw [← hexact₃.unique hR.spaces.exact, haddr, Multiset.count_cons_self,
      Multiset.count_eq_zero.mpr hno]
  · rw [haddr] at hm
    exact Multiset.mem_add.mpr (.inl (Multiset.mem_add.mpr (.inr hm)))
  · rw [haddr, hslot]
    exact hnew x hx

/-- **`handleCowFault`** serves the fault on a page that may be written, unless there is no frame
for a copy. -/
theorem Spaces.handleCowFault (h : Spaces M live held st) (hd : d ∈ live)
    (hv : pdeIdx v < pteCount) :
    (∃ e' st', st.handleCowFault v d = (true, st') ∧
      Served M live held d (pdeIdx v) (pteIdx v) e' st st' ∧
        (st.free = [] → (refsOf st.mem live held).count
          (addr (pteAt st.mem d (pdeIdx v) (pteIdx v))) = 1)) ∨
      st.handleCowFault v d = (false, st) ∧
        (present (pteAt st.mem d (pdeIdx v) (pteIdx v)) = true →
          cow (pteAt st.mem d (pdeIdx v) (pteIdx v)) = true →
          st.free = [] ∧ (refsOf st.mem live held).count
            (addr (pteAt st.mem d (pdeIdx v) (pteIdx v))) ≠ 1) := by
  unfold Phys.handleCowFault
  generalize pdeIdx v = i at hv ⊢
  have hj := pteIdx_lt v
  generalize pteIdx v = j at hj ⊢
  dsimp only
  split
  · next hno =>
      refine .inr ⟨rfl, fun hp => ?_⟩
      rw [pteAt_none fun hu => hno.elim (fun h => h hu.1) fun h => h hu.2] at hp
      exact absurd hp (by decide)
  · next hu =>
      simp only [not_or, not_not] at hu
      generalize ht : addr (st.entry d i) = t
      have htin : t ∈ structs st.mem live :=
        mem_structs.mpr (.inr ⟨d, hd, i, hv, mem_tabRefs.mpr ⟨hu, ht.symm⟩⟩)
      rw [h.exact.check (h.exact.used_in t (mem_refs htin held))]
      have haddr : addr (word st.mem (d + 4 * i)) = t := ht
      have hslot : st.entry t j = pteAt st.mem d i j := by rw [pteAt_user hu, haddr]; rfl
      rw [hslot]
      split
      · next hno => exact .inr ⟨rfl, fun hp hc => absurd hno (by simp [hp, hc])⟩
      · next hf =>
          simp only [not_or, not_not] at hf
          obtain ⟨X, hX⟩ := refs_entry held hd hv hu hj hf.1
          have hg : addr (pteAt st.mem d i j) ∈ M :=
            h.exact.used_in _ (by rw [hX]; exact Multiset.mem_cons_self _ _)
          rw [h.exact.check hg, refCount, if_pos (h.exact.counted hg), h.exact.refs _ hg]
          split
          · next hone => exact .inl ⟨_, _, rfl, h.ownPage hd hv hu haddr hj hf hone, fun _ => hone⟩
          · next hmore =>
              split
              · next st₁ halloc =>
                  obtain ⟨rfl, hfree⟩ := allocFrame_none halloc
                  exact .inr ⟨rfl, fun _ _ => ⟨hfree, hmore⟩⟩
              · next f st₁ halloc =>
                  refine .inl ⟨_, _, rfl, h.copyPage hd hv hu haddr hj rfl hf hmore halloc,
                    fun hno => ?_⟩
                  rw [(allocFrame_some halloc).1] at hno
                  exact absurd hno (List.cons_ne_nil _ _)

end Doors.Memory
