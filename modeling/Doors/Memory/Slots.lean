import Doors.Memory.Refs
import Doors.Memory.Unmap

/-!
# Doors.Memory.Slots

What the directories of the processes map, page by page, and the operations on one directory.

A page is known by its two indices.  `pteAt` is its entry, and 0 where there is no table for it.
`Remapped` says that the counts are exact afterwards, what became of the entries, that a frame
mapped before and in use afterwards has the contents it had, that the tables of the kernel are in
all directories still, and that nothing beyond the frames `M` changed.

* `Spaces.mapPage` — the entry of one page, and a reference less in the caller's hands;
* `Spaces.unmapPage`, `Spaces.clearPageTable` — the entry of one page gone, or of a whole table.
-/

namespace Doors.Memory

open Phys

def writable (e : Nat) : Bool := e / pageRw % 2 = 1

/-- The entry of the page `(i, j)` of the directory `d`. -/
def pteAt (mem : Nat → BitVec 8) (d i j : Nat) : Nat :=
  if present (word mem (d + 4 * i)) ∧ user (word mem (d + 4 * i))
    then word mem (addr (word mem (d + 4 * i)) + 4 * j) else 0

/-- A user table that may be written through. -/
def Gate (e : Nat) : Prop := present e = true → user e = true → writable e = true

def Gates (mem : Nat → BitVec 8) (live : Multiset Nat) : Prop :=
  ∀ d ∈ live, ∀ i < pteCount, Gate (word mem (d + 4 * i))

/-- The entry, when it leads to a table of the kernel. -/
def kernelEntry (e : Nat) : Nat := if present e ∧ ¬ user e then e else 0

/-- All directories have the tables `K` of the kernel. -/
def KernelMap (mem : Nat → BitVec 8) (live : Multiset Nat) (K : Nat → Nat) : Prop :=
  ∀ d ∈ live, ∀ i < pteCount, kernelEntry (word mem (d + 4 * i)) = K i

/-- **What an operation made of the entries.** -/
structure Remapped (M : Set Nat) (live held live' held' : Multiset Nat) (st st' : Phys)
    (slots : Nat → Nat → Nat → Nat) : Prop where
  spaces : Spaces M live' held' st'
  slots : ∀ d ∈ live', ∀ i < pteCount, ∀ j < pteCount, pteAt st'.mem d i j = slots d i j
  kept : ∀ a ∈ mapped st.mem live + held, a ∈ refsOf st'.mem live' held' → Same st.mem st'.mem a
  gates : Gates st.mem live → Gates st'.mem live'
  kernel : ∀ K, KernelMap st.mem live K → KernelMap st'.mem live' K
  within : Within (· ∈ M) st st'

/-- The entry of one page. -/
def setSlot (s : Nat → Nat → Nat → Nat) (d i j e d' i' j' : Nat) : Nat :=
  if d' = d ∧ i' = i ∧ j' = j then e else s d' i' j'

/-- The entries of one table. -/
def clearSlots (s : Nat → Nat → Nat → Nat) (d i d' i' j' : Nat) : Nat :=
  if d' = d ∧ i' = i then 0 else s d' i' j'

variable {M : Set Nat} {R R' live live' held held' : Multiset Nat} {st st' st₁ : Phys}
  {mem mem' : Nat → BitVec 8} {s s' : Nat → Nat → Nat → Nat} {a d d' e f g t v n i j k flags : Nat}

theorem Remapped.congr (h : Remapped M live held live' held' st st' s)
    (heq : ∀ d ∈ live', ∀ i < pteCount, ∀ j < pteCount, s d i j = s' d i j) :
    Remapped M live held live' held' st st' s' :=
  ⟨h.spaces, fun d hd i hi j hj => (h.slots d hd i hi j hj).trans (heq d hd i hi j hj), h.kept,
    h.gates, h.kernel, h.within⟩

theorem Remapped.refl (h : Spaces M live held st) :
    Remapped M live held live held st st (pteAt st.mem) :=
  ⟨h, fun _ _ _ _ _ _ => rfl, fun _ _ _ => Same.refl _ _, id, fun _ => id, .refl _ st⟩

/-! ## what is mapped -/

theorem pteAt_user (hu : present (word mem (d + 4 * i)) = true ∧ user (word mem (d + 4 * i)) = true)
    (j : Nat) :
    pteAt mem d i j = word mem (addr (word mem (d + 4 * i)) + 4 * j) := if_pos hu

theorem pteAt_none
    (hno : ¬ (present (word mem (d + 4 * i)) = true ∧ user (word mem (d + 4 * i)) = true))
    (j : Nat) :
    pteAt mem d i j = 0 := if_neg hno

theorem mem_tableRefs : a ∈ tableRefs mem t n ↔ ∃ k < n, a ∈ entryRefs (word mem (t + 4 * k)) := by
  induction n with
  | zero => simp [tableRefs_zero]
  | succ n ih =>
      rw [tableRefs_succ, Multiset.mem_add, ih]
      constructor
      · rintro (ha | ⟨k, hk, ha⟩)
        · exact ⟨n, by omega, ha⟩
        · exact ⟨k, by omega, ha⟩
      · rintro ⟨k, hk, ha⟩
        by_cases hkn : k = n
        · exact .inl (hkn ▸ ha)
        · exact .inr ⟨k, by omega, ha⟩

theorem entryRefs_congr {e' : Nat} (hp : present e' = present e) (ha : addr e' = addr e) :
    entryRefs e' = entryRefs e := by
  unfold entryRefs
  rw [hp, ha]

theorem mem_entryRefs : a ∈ entryRefs e ↔ present e = true ∧ a = addr e := by
  unfold entryRefs
  split
  · next h => simp [h]
  · next h => simp [h]

theorem mem_pageRefs : a ∈ pageRefs mem (word mem (d + 4 * i)) ↔
    ∃ j < pteCount, a ∈ entryRefs (pteAt mem d i j) := by
  unfold pageRefs pteAt
  split
  · exact mem_tableRefs
  · simp [entryRefs, present]

theorem mem_dirPages : a ∈ dirPages mem d n ↔
    ∃ i < n, ∃ j < pteCount, a ∈ entryRefs (pteAt mem d i j) := by
  induction n with
  | zero => simp [dirPages_zero]
  | succ n ih =>
      rw [dirPages_succ, Multiset.mem_add, ih, mem_pageRefs]
      constructor
      · rintro (ha | ⟨i, hi, ha⟩)
        · exact ⟨n, by omega, ha⟩
        · exact ⟨i, by omega, ha⟩
      · rintro ⟨i, hi, ha⟩
        by_cases hin : i = n
        · exact .inl (hin ▸ ha)
        · exact .inr ⟨i, by omega, ha⟩

/-- **A frame is mapped** where an entry says so. -/
theorem mem_mapped : a ∈ mapped mem live ↔ ∃ d ∈ live, ∃ i < pteCount, ∃ j < pteCount,
    a ∈ entryRefs (pteAt mem d i j) := by
  unfold mapped
  simp only [Multiset.mem_bind, mem_dirPages]

theorem Spaces.aligned (h : Spaces M live held st) (ha : a ∈ structs st.mem live) :
    a % pageSize = 0 :=
  h.exact.aligned (h.exact.used_in a (mem_refs ha held))

/-- A sum and one of its summands. -/
theorem sum_split {A : Type} [AddCommMonoid A] (F G : Nat → A) (hF : ∀ n, F (n + 1) = G n + F n)
    (hi : i < n) : ∃ X, F n = G i + X := by
  induction n with
  | zero => omega
  | succ n ih =>
      rw [hF]
      by_cases hin : i = n
      · exact ⟨F n, by rw [hin]⟩
      · obtain ⟨X, hX⟩ := ih (by omega)
        exact ⟨G n + X, by rw [hX, add_left_comm]⟩

/-- What a table maps is mapped. -/
theorem mapped_table (hd : d ∈ live) (hi : i < pteCount)
    (hu : present (word mem (d + 4 * i)) = true ∧ user (word mem (d + 4 * i)) = true) :
    ∃ X, mapped mem live = tableRefs mem (addr (word mem (d + 4 * i))) pteCount + X := by
  obtain ⟨rest, rfl⟩ := Multiset.exists_cons_of_mem hd
  obtain ⟨X, hX⟩ := sum_split (dirPages mem d) (fun k => pageRefs mem (word mem (d + 4 * k)))
    (dirPages_succ mem d) hi
  rw [pageRefs_user hu] at hX
  exact ⟨X + rest.bind fun d => dirPages mem d
    pteCount, by rw [mapped, Multiset.cons_bind, hX, add_assoc]⟩

/-- What an entry maps is mapped. -/
theorem mapped_entry (hd : d ∈ live) (hi : i < pteCount)
    (hu : present (word mem (d + 4 * i)) = true ∧ user (word mem (d + 4 * i)) = true)
    (hj : j < pteCount) : ∃ X, mapped mem live =
    entryRefs (word mem (addr (word mem (d + 4 * i)) + 4 * j)) + X := by
  obtain ⟨X, hX⟩ := mapped_table hd hi hu
  generalize addr (word mem (d + 4 * i)) = t at hX ⊢
  obtain ⟨Y, hY⟩ := sum_split (tableRefs mem t) (fun k => entryRefs (word mem (t + 4 * k)))
    (tableRefs_succ mem t) hj
  exact ⟨Y + X, by rw [hX, hY, add_assoc]⟩

/-- The entry `p` of the table `T` becomes `p'`. -/
theorem exchange {A : Type} [AddCancelCommMonoid A] {R R' T T' p p' u h h' : A}
    (hR : R' + (p + h) = R + (p' + h'))
    (hT : T' + p = T + p') : R' + (u + T + h) = R + (u + T' + h') := by
  refine add_right_cancel (b := p) ?_
  calc R' + (u + T + h) + p
      = R' + (p + h) + (u + T) := by abel
    _ = R + h' + u + (T + p') := by rw [hR]; abel
    _ = R + (u + T' + h') + p := by rw [← hT]; abel

/-! ## what an operation keeps -/

/-- Directories and tables that are the same. -/
theorem pteAt_same (h : ∀ a ∈ structs mem live, Same mem mem' a) (hd : d ∈ live)
    (hi : i < pteCount) :
    word mem' (d + 4 * i) = word mem (d + 4 * i) ∧ ∀ j < pteCount,
      pteAt mem' d i j = pteAt mem d i j := by
  have hword := (h d (mem_structs.mpr (.inl hd))).word hi
  refine ⟨hword, fun j hj => ?_⟩
  unfold pteAt
  rw [hword]
  split
  · next hu =>
      exact (h _ (mem_structs.mpr (.inr ⟨d, hd, i, hi, mem_tabRefs.mpr ⟨hu, rfl⟩⟩))).word hj
  · rfl

/-- An operation after which all is as before. -/
theorem Remapped.of_steady (h : Spaces M live held st)
    (hexact : Exact M (refsOf st.mem live held) st')
    (hsteady : Steady (refsOf st.mem live held) st st') (hwithin : Within (· ∈ M) st st') :
    Remapped M live held live held st st' (pteAt st.mem) := by
  have hsame : ∀ a ∈ structs st.mem live, Same st.mem st'.mem a :=
    fun a ha => hsteady a (mem_refs ha held)
  refine ⟨h.keep hsame hexact fun a ha => (h.not_mapped ha).2,
    fun d hd i hi => (pteAt_same hsame hd hi).2, fun a ha _ => hsteady a ?_,
    fun hg d hd i hi => ?_, fun K hK d hd i hi => ?_, hwithin⟩
  · rw [refsOf, add_assoc]
    exact Multiset.mem_add.mpr (.inr ha)
  · rw [(pteAt_same hsame hd hi).1]
    exact hg d hd i hi
  · rw [(pteAt_same hsame hd hi).1]
    exact hK d hd i hi

/-! ## a change to one table -/

/-- The entries of the other tables. -/
theorem Spaces.others (h : Spaces M live held st) (hd : d ∈ live) (hi : i < pteCount)
    (hc : ChangedAt st.mem mem' live d i)
    (hd' : d' ∈ live) (hk : k < pteCount) (hne : d' ≠ d ∨ k ≠ i) :
    word mem' (d' + 4 * k) = word st.mem (d' + 4 * k) ∧ ∀ j < pteCount,
      pteAt mem' d' k j = pteAt st.mem d' k j := by
  have hword : word mem' (d' + 4 * k) = word st.mem (d' + 4 * k) := by
    by_cases hdd : d' = d
    · subst hdd
      exact hc.words k hk (hne.resolve_left fun hno => hno rfl)
    · have hnot : d' ∉ tabRefs (word st.mem (d + 4 * i)) := fun hm => (h.table hd hi hm).1 hd'
      exact (hc.same d' (mem_structs.mpr (.inl hd')) hdd hnot).word hk
  refine ⟨hword, fun j hj => ?_⟩
  unfold pteAt
  rw [hword]
  split
  · next hu =>
      have ht := mem_tabRefs.mpr ⟨hu, rfl⟩
      obtain ⟨hnot, hothers⟩ := h.table hd' hk ht
      have hin := mem_structs.mpr (.inr ⟨d', hd', k, hk, ht⟩)
      exact (hc.same _ hin (fun heq => hnot (heq ▸ hd))
        (hothers d hd i hi (hne.imp Ne.symm Ne.symm))).word hj
  · rfl

/-- **The entries after a change** to one table. -/
theorem Spaces.remap {S : Nat → Nat} (h : Spaces M live held st) (hd : d ∈ live) (hi : i < pteCount)
    (hc : ChangedAt st.mem st'.mem live d i) (hexact : Exact M R' st')
    (hR : R' +
    (tabRefs (word st.mem (d + 4 * i)) + pageRefs st.mem (word st.mem (d + 4 * i)) + held) =
      refsOf st.mem live held +
        (tabRefs (word st'.mem (d + 4 * i)) + pageRefs st'.mem (word st'.mem (d + 4 * i)) + held'))
    (hle : ∀ a, a ∈ structs st.mem live ∨ a ∈ tabRefs (word st'.mem (d + 4 * i)) → R'.count a ≤ 1)
    (hslots : ∀ j < pteCount, pteAt st'.mem d i j = S j)
    (hgate : Gate (word st.mem (d + 4 * i)) → Gate (word st'.mem (d + 4 * i)))
    (hkernel : kernelEntry (word st'.mem (d + 4 * i)) = kernelEntry (word st.mem (d + 4 * i)))
    (hkept : ∀ a ∈ mapped st.mem live + held, a ∈ R' → Same st.mem st'.mem a)
    (hwithin : Within (· ∈ M) st st') :
    Remapped M live held live held' st st' fun d' i' j' => if d' = d ∧ i' = i then S j'
      else pteAt st.mem d' i' j' := by
  have hS := h.change hd hi hc hexact hR hle
  refine ⟨hS, fun d' hd' k hk j hj => ?_, fun a ha ha' => hkept a ha ?_, fun hg d' hd' k hk => ?_,
    fun K hK d' hd' k hk => ?_, hwithin⟩
  · by_cases hat : d' = d ∧ k = i
    · rw [if_pos hat, hat.1, hat.2]
      exact hslots j hj
    · rw [if_neg hat]
      exact (h.others hd hi hc hd' hk (by omega)).2 j hj
  · rw [hexact.unique hS.exact]
    exact ha'
  · by_cases hat : d' = d ∧ k = i
    · rw [hat.1, hat.2]
      exact hgate (hg d hd i hi)
    · rw [(h.others hd hi hc hd' hk (by omega)).1]
      exact hg d' hd' k hk
  · by_cases hat : d' = d ∧ k = i
    · rw [hat.1, hat.2, hkernel]
      exact hK d hd i hi
    · rw [(h.others hd hi hc hd' hk (by omega)).1]
      exact hK d' hd' k hk

theorem kernelEntry_user (hu : user e = true) : kernelEntry e = 0 := if_neg fun h => h.2 hu

theorem kernelEntry_absent (hp : ¬ present e = true) : kernelEntry e = 0 := if_neg fun h => hp h.1

/-- What is mapped or held has no structure in it. -/
theorem Spaces.no_struct (h : Spaces M live held st) (ha : a ∈ mapped st.mem live + held) :
    a ∉ structs st.mem live := by
  intro hs
  obtain ⟨hm, hh⟩ := h.not_mapped hs
  rcases Multiset.mem_add.mp ha with ha | ha
  · exact hm ha
  · exact hh ha

/-- **One entry of a user table** changes. -/
theorem Spaces.setPte {e' : Nat} (h : Spaces M live held st) (hd : d ∈ live) (hi : i < pteCount)
    (hu : present (word st.mem (d + 4 * i)) = true ∧ user (word st.mem (d + 4 * i)) = true)
    (ht : addr (word st.mem (d + 4 * i)) = t)
    (hj : j < pteCount) (hword : word st'.mem (t + 4 * j) = e')
    (hwords : ∀ k < pteCount, k ≠ j → word st'.mem (t + 4 * k) = word st.mem (t + 4 * k))
    (hsame : ∀ a ∈ structs st.mem live, a ≠ t → Same st.mem st'.mem a) (hexact : Exact M R' st')
    (hR : R' + (entryRefs (word st.mem (t + 4 * j)) + held) =
    refsOf st.mem live held + (entryRefs e' + held'))
    (hle : ∀ a ∈ structs st.mem live, R'.count a ≤ 1)
    (hkept : ∀ a ∈ mapped st.mem live + held, a ∈ R' → Same st.mem st'.mem a)
    (hwithin : Within (· ∈ M) st st') :
    Remapped M live held live held' st st' (setSlot (pteAt st.mem) d i j e') := by
  subst ht
  subst hword
  have hin : addr (word st.mem (d + 4 * i)) ∈ tabRefs (word st.mem (d + 4 * i)) :=
    mem_tabRefs.mpr ⟨hu, rfl⟩
  have hdt : d ≠ addr (word st.mem (d + 4 * i)) := fun heq => (h.table hd hi hin).1 (heq ▸ hd)
  have hdir : Same st.mem st'.mem d := hsame d (mem_structs.mpr (.inl hd)) hdt
  have hpde := hdir.word hi
  have htable := tableRefs_change hj hwords
  have hins : addr (word st.mem (d + 4 * i)) ∈ structs st.mem live :=
    mem_structs.mpr (.inr ⟨d, hd, i, hi, hin⟩)
  refine (h.remap hd hi ⟨fun k hk _ => hdir.word hk,
      fun a ha _ hna => hsame a ha fun heq => hna (heq ▸ hin)⟩ hexact ?_ ?_
    (fun k hk => pteAt_user (by rw [hpde]; exact hu) k) (by rw [hpde]; exact id)
      (by rw [hpde]) hkept hwithin).congr fun d' hd' k hk l hl => ?_
  · rw [hpde, tabRefs_user hu, pageRefs_user hu, pageRefs_user hu]
    exact exchange hR htable
  · rintro a (ha | ha)
    · exact hle a ha
    · rw [hpde, mem_tabRefs] at ha
      rw [ha.2]
      exact hle _ hins
  · unfold setSlot
    by_cases hat : d' = d ∧ k = i
    · rw [if_pos hat, hpde]
      by_cases hlj : l = j
      · rw [if_pos ⟨hat.1, hat.2, hlj⟩, hlj]
      · rw [if_neg fun hno => hlj hno.2.2, hwords l hl hlj, hat.1, hat.2, pteAt_user hu]
    · rw [if_neg hat, if_neg fun hno => hat ⟨hno.1, hno.2.1⟩]


/-! ## the operations -/

theorem tableRefs_zeros (hzero : ∀ x, t ≤ x → x < t + pageSize → mem x = 0) (hn : n ≤ pteCount) :
    tableRefs mem t n = 0 := by
  induction n with
  | zero => rfl
  | succ n ih => rw [tableRefs_succ, word_zero hzero (by omega), ih (by omega), entryRefs,
      if_neg (by decide), zero_add]

/-- What is in use is not what is handed out. -/
theorem Spaces.ne_fresh (ha : a ∈ structs st.mem live) (hf : f ∉ refsOf st.mem live held) : a ≠ f :=
  fun heq => hf (heq ▸ mem_refs ha held)

/-- **A new table** maps nothing. -/
theorem Spaces.ensurePageTable (h : Spaces M live held st) (hd : d ∈ live) (hi : i < pteCount)
    (habs : ¬ present (word st.mem (d + 4 * i)) = true) (hflags : user flags = true)
    (hm : st.ensurePageTable d i flags = (true, st')) :
    Remapped M live held live held st st' (pteAt st.mem) ∧
      present (word st'.mem (d + 4 * i)) = true ∧ user (word st'.mem (d + 4 * i)) = true := by
  have hseven : pagePresent + pageRw + flags / pageUser % 2 * pageUser = 7 := by
    unfold user at hflags
    rw [decide_eq_true_eq.mp hflags]
    decide
  unfold Phys.ensurePageTable at hm
  split at hm
  · simp at hm
  · next f st₁ halloc =>
      obtain rfl := (Prod.mk.inj hm).2
      obtain ⟨hexact, hf, hfresh, hmem, hzero⟩ := h.exact.alloc halloc
      have hfal := h.exact.aligned hf
      have hdal := h.aligned (mem_structs.mpr (.inl hd))
      have hdf : d ≠ f := Spaces.ne_fresh (mem_structs.mpr (.inl hd)) hfresh
      obtain ⟨he, hpres, huser, haddr⟩ := userEntry hfal (h.exact.lt hf)
      rw [hseven]
      have hword : word (st₁.setEntry d i (mkEntry f 7)).mem (d + 4 * i) = mkEntry f 7 :=
        word_setWord st₁.mem he
      have hgate : writable (mkEntry f 7) = true := by
        unfold writable mkEntry addr pageRw pageSize
        rw [decide_eq_true_iff]
        omega
      have hold : tabRefs (word st.mem (d + 4 * i)) = 0 ∧
          pageRefs st.mem (word st.mem (d + 4 * i)) = 0 :=
        ⟨if_neg fun hu => habs hu.1, if_neg fun hu => habs hu.1⟩
      have hout : ∀ a, a % pageSize = 0 → a ≠ f → a ≠ d →
          Same st.mem (st₁.setEntry d i (mkEntry f 7)).mem a := fun a hal haf had =>
        (same_of_outside hal hfal haf hmem).trans (same_setWord hal hdal had hi)
      have hzero' : ∀ x, f ≤ x → x < f + pageSize → (st₁.setEntry d i (mkEntry f 7)).mem x = 0 := by
        intro x hx hx'
        rw [← hzero x hx hx']
        exact same_setWord hfal hdal hdf.symm hi x hx hx'
      have hwords : ∀ k < pteCount, k ≠ i → word (st₁.setEntry d i (mkEntry f 7)).mem (d + 4 * k) =
          word st.mem (d + 4 * k) := fun k hk hki =>
        (word_setWord_of_ne hki).trans ((same_of_outside hdal hfal hdf hmem).word hk)
      have hexact' : Exact M (f ::ₘ refsOf st.mem live held) (st₁.setEntry d i (mkEntry f 7)) :=
        hexact.setEntry
      have hdM := h.exact.used_in d (mem_refs (mem_structs.mpr (.inl hd)) held)
      have hwithin : Within (· ∈ M) st (st₁.setEntry d i (mkEntry f 7)) :=
        (h.exact.within_alloc halloc).trans (within_setEntry hdal hi hdM)
      generalize st₁.setEntry d i (mkEntry f 7) = st' at hword hzero' hwords hout hexact' hwithin ⊢
      have hnew : tabRefs (mkEntry f 7) = {f} ∧ pageRefs st'.mem (mkEntry f 7) = 0 := by
        rw [tabRefs_user ⟨hpres, huser⟩, pageRefs_user ⟨hpres, huser⟩, haddr]
        exact ⟨rfl, tableRefs_zeros hzero' le_rfl⟩
      refine ⟨?_, by rw [hword]; exact hpres, by rw [hword]; exact huser⟩
      refine (h.remap (S := fun _ => 0) hd hi ⟨hwords,
          fun a ha had _ => hout a (h.aligned ha) (Spaces.ne_fresh ha hfresh) had⟩ hexact' ?_ ?_
        (fun j hj => ?_) (fun _ _ _ => by rw [hword]; exact hgate)
        (by rw [hword, kernelEntry_user huser, kernelEntry_absent habs])
          (fun a ha _ => ?_) hwithin).congr fun d' _ k _ j _ => ?_
      · rw [hword, hold.1, hold.2, hnew.1, hnew.2, ← Multiset.singleton_add]
        abel
      · rintro a (ha | ha)
        · rw [Multiset.count_cons_of_ne (Spaces.ne_fresh ha hfresh), h.alone a ha]
        · rw [hword, hnew.1, Multiset.mem_singleton] at ha
          rw [ha, Multiset.count_cons_self, Multiset.count_eq_zero.mpr hfresh]
      · rw [pteAt_user (by rw [hword]; exact ⟨hpres, huser⟩), hword, haddr]
        exact word_zero hzero' hj
      · have hin : a ∈ refsOf st.mem live held := by
          rw [refsOf, add_assoc]
          exact Multiset.mem_add.mpr (.inr ha)
        refine hout a (h.exact.aligned (h.exact.used_in a hin)) (fun heq => hfresh (heq ▸ hin))
          fun heq => ?_
        exact h.no_struct ha (heq ▸ mem_structs.mpr (.inl hd))
      · split
        · next hat => rw [hat.1, hat.2, pteAt_none fun hu => habs hu.1]
        · rfl

/-- What the entry `j` of a user table maps is given up, and the entry rewritten. -/
theorem Spaces.dropSlot {e' : Nat} (h : Spaces M live held st) (hd : d ∈ live) (hi : i < pteCount)
    (hu : present (word st.mem (d + 4 * i)) = true ∧ user (word st.mem (d + 4 * i)) = true)
    (ht : addr (word st.mem (d + 4 * i)) = t)
    (hj : j < pteCount) (he' : e' < 2 ^ 32) (hheld : held = entryRefs e' + held') :
    Remapped M live held live held' st ((st.dropEntry (st.entry t j)).setEntry t j e')
      (setSlot (pteAt st.mem) d i j e') ∧
      word ((st.dropEntry (st.entry t j)).setEntry t j e').mem (d + 4 * i) =
        word st.mem (d + 4 * i) := by
  obtain ⟨X, hX⟩ := mapped_entry hd hi hu hj
  rw [ht] at hX
  have htin : t ∈ structs st.mem live :=
    mem_structs.mpr (.inr ⟨d, hd, i, hi, mem_tabRefs.mpr ⟨hu, ht.symm⟩⟩)
  have hsplit : refsOf st.mem live held = entryRefs (word st.mem (t + 4 * j)) +
      (structs st.mem live + X + held) := by
    rw [refsOf, hX]
    abel
  have hexact := h.exact
  rw [hsplit] at hexact
  obtain ⟨hexact₁, hsteady⟩ := hexact.dropEntry
  have hin : ∀ a ∈ structs st.mem live, a ∈ structs st.mem live + X + held :=
    fun a ha => Multiset.mem_add.mpr (.inl (Multiset.mem_add.mpr (.inl ha)))
  have hsame : ∀ a ∈ structs st.mem live + X + held, a ≠ t →
      Same st.mem ((st.dropEntry (st.entry t j)).setEntry t j e').mem a := by
    intro a ha hat
    have hal := hexact₁.aligned (hexact₁.used_in a ha)
    exact (hsteady a ha).trans (same_setWord hal (h.aligned htin) hat hj)
  have hdt : d ≠ t := fun heq => (h.table hd hi (mem_tabRefs.mpr ⟨hu, ht.symm⟩)).1 (heq ▸ hd)
  have hword : word ((st.dropEntry (st.entry t j)).setEntry t j e').mem (t + 4 * j) = e' :=
    word_setWord _ he'
  have hwords : ∀ k < pteCount, k ≠ j → word ((st.dropEntry (st.entry t j)).setEntry t j e').mem
      (t + 4 * k) = word st.mem (t + 4 * k) :=
    fun k hk hkj => (word_setWord_of_ne hkj).trans ((hsteady t (hin t htin)).word hk)
  have hexact₂ : Exact M (structs st.mem live + X + held)
    ((st.dropEntry (st.entry t j)).setEntry t j e') := hexact₁.setEntry
  have hwithin : Within (· ∈ M) st ((st.dropEntry (st.entry t j)).setEntry t j e') :=
    hexact.within_dropEntry.trans (within_setEntry (h.aligned htin) hj
      (h.exact.used_in t (mem_refs htin held)))
  generalize (st.dropEntry (st.entry t j)).setEntry t j e' =
    st' at hsame hword hwords hexact₂ hwithin ⊢
  refine ⟨h.setPte hd hi hu ht hj hword hwords (fun a ha hat => hsame a (hin a ha) hat) hexact₂ ?_
    (fun a ha => ?_) (fun a ha hR => ?_) hwithin,
    (hsame d (hin d (mem_structs.mpr (.inl hd))) hdt).word hi⟩
  · rw [hsplit, hheld]
    abel
  · have hone := h.alone a ha
    rw [hsplit, Multiset.count_add] at hone
    omega
  · exact hsame a hR fun heq => h.no_struct ha (heq ▸ htin)

/-- The operations one after the other, when the first changes no entry. -/
theorem Remapped.then (h : Remapped M live held live held st st₁ (pteAt st.mem))
    (h' : Remapped M live held live held' st₁ st' (setSlot (pteAt st₁.mem) d i j e)) :
    Remapped M live held live held' st st' (setSlot (pteAt st.mem) d i j e) := by
  refine ⟨h'.spaces, fun d' hd' k hk l hl => ?_, fun a ha ha' => ?_,
    fun hg => h'.gates (h.gates hg),
    fun K hK => h'.kernel K (h.kernel K hK), h.within.trans h'.within⟩
  · rw [h'.slots d' hd' k hk l hl]
    unfold setSlot
    rw [h.slots d' hd' k hk l hl]
  · have hin : a ∈ mapped st₁.mem live + held := by
      refine Multiset.mem_add.mpr ((Multiset.mem_add.mp ha).imp_left fun hm => ?_)
      obtain ⟨d', hd', k, hk, l, hl, hm⟩ := mem_mapped.mp hm
      exact mem_mapped.mpr ⟨d', hd', k, hk, l, hl, by rw [h.slots d' hd' k hk l hl]; exact hm⟩
    refine (h.kept a ha ?_).trans (h'.kept a hin ha')
    rw [refsOf, add_assoc]
    exact Multiset.mem_add.mpr (.inr hin)

/-- **`mapPage`** takes the frame out of the caller's hands, or fails and does nothing. -/
theorem Spaces.mapPage {b : Bool} (h : Spaces M live (a ::ₘ held) st) (hd : d ∈ live)
    (hv : pdeIdx v < pteCount)
    (hu : present (word st.mem (d + 4 * pdeIdx v)) = true →
    user (word st.mem (d + 4 * pdeIdx v)) = true) (hflags : user flags = true)
    (hm : st.mapPage d v a flags = (b, st')) :
    b = true ∧ Remapped M live (a ::ₘ held) live held st st'
      (setSlot (pteAt st.mem) d (pdeIdx v) (pteIdx v)
        (mkEntry a (pagePresent + flags / pageRw % 4 * pageRw))) ∨ b = false ∧ st' = st := by
  cases b with
  | false => exact .inr ⟨rfl, (mapPage_false hm).1⟩
  | true =>
      refine .inl ⟨rfl, ?_⟩
      have ha : a ∈ M :=
        h.exact.used_in a (Multiset.mem_add.mpr (.inr (Multiset.mem_cons_self a held)))
      have haal := h.exact.aligned ha
      have halt := h.exact.lt ha
      have htail : ∀ st₁, Spaces M live (a ::ₘ held) st₁ →
        present (word st₁.mem (d + 4 * pdeIdx v)) = true →
          user (word st₁.mem (d + 4 * pdeIdx v)) = true →
          (let pageTable := addr (st₁.entry d (pdeIdx v))
            let st := st₁.checkPhysAddr pageTable
            let st := st.dropEntry (st.entry pageTable (pteIdx v))
            let st := st.setEntry pageTable (pteIdx v)
              (mkEntry a (pagePresent + flags / pageRw % 4 * pageRw))
            (true, if user flags ∧ ¬ user (st.entry d (pdeIdx v))
              then st.setEntry d (pdeIdx v) (st.entry d (pdeIdx v) + pageUser)
              else st)) = (true, st') → Remapped M live (a ::ₘ held) live held st₁ st'
            (setSlot (pteAt st₁.mem) d (pdeIdx v) (pteIdx v)
              (mkEntry a (pagePresent + flags / pageRw % 4 * pageRw))) := by
        intro st₁ h₁ hp₁ hu₁ heq
        have hin := h₁.exact.used_in _ (mem_refs (mem_structs.mpr
          (.inr ⟨d, hd, _, hv, mem_tabRefs.mpr ⟨⟨hp₁, hu₁⟩, rfl⟩⟩)) (a ::ₘ held))
        have hcheck : st₁.checkPhysAddr (addr (st₁.entry d (pdeIdx v))) = st₁ := h₁.exact.check hin
        dsimp only at heq
        rw [hcheck] at heq
        generalize ht : addr (st₁.entry d (pdeIdx v)) = t at heq
        have hflt : pagePresent + flags / pageRw % 4 * pageRw < pageSize := by
          unfold pagePresent pageRw pageSize
          omega
        have he' : mkEntry a (pagePresent + flags / pageRw % 4 * pageRw) < 2 ^ 32 :=
          mkEntry_lt halt hflt
        have hpres : present (mkEntry a (pagePresent + flags / pageRw % 4 * pageRw)) = true := by
          rw [present_iff, mkEntry_mod]
          unfold pagePresent pageRw
          omega
        have hrefs : entryRefs (mkEntry a (pagePresent + flags / pageRw % 4 * pageRw)) = {a} := by
          rw [entryRefs, if_pos hpres, addr_mkEntry hflt, addr_of_aligned haal]
        obtain ⟨hS, hdir⟩ := h₁.dropSlot hd hv ⟨hp₁, hu₁⟩ ht (pteIdx_lt v) he'
          (show a ::ₘ held = _ + held by rw [hrefs, Multiset.singleton_add])
        rw [if_neg] at heq
        · obtain rfl := (Prod.mk.inj heq).2
          exact hS
        · rintro ⟨-, hno⟩
          refine hno ?_
          unfold Phys.entry at hdir ⊢
          rw [hdir]
          exact hu₁
      unfold Phys.mapPage at hm
      by_cases hpres : present (st.entry d (pdeIdx v)) = true
      · simp only [hpres, if_true] at hm
        exact htail st h hpres (hu hpres) hm
      · simp only [hpres, Bool.false_eq_true, if_false] at hm
        cases hens : st.ensurePageTable d (pdeIdx v) flags with
        | mk b st₁ =>
            rw [hens] at hm
            cases b with
            | false => simp at hm
            | true =>
                simp only [if_true] at hm
                obtain ⟨h₁, hp₁, hu₁⟩ := h.ensurePageTable hd hv hpres hflags hens
                exact h₁.then (htail st₁ h₁.spaces hp₁ hu₁ hm)

/-- **`tryFreePageTable`** gives up a table that maps nothing. -/
theorem Spaces.tryFreePageTable (h : Spaces M live held st) (hd : d ∈ live) (hi : i < pteCount)
    (hu : present (word st.mem (d + 4 * i)) = true ∧ user (word st.mem (d + 4 * i)) = true) :
    Remapped M live held live held st (st.tryFreePageTable d i) (pteAt st.mem) ∧
      ∀ a ∈ refsOf (st.tryFreePageTable d i).mem live held, a ≠ d →
        a ∈ refsOf st.mem live held ∧ Same st.mem (st.tryFreePageTable d i).mem a := by
  generalize ht : addr (st.entry d i) = t
  have haddr : addr (word st.mem (d + 4 * i)) = t := ht
  have htin : t ∈ structs st.mem live :=
    mem_structs.mpr (.inr ⟨d, hd, i, hi, mem_tabRefs.mpr ⟨hu, ht.symm⟩⟩)
  have hcheck : st.checkPhysAddr t = st := h.exact.check (h.exact.used_in t (mem_refs htin held))
  have hdt : d ≠ t := fun heq => (h.table hd hi (mem_tabRefs.mpr ⟨hu, ht.symm⟩)).1 (heq ▸ hd)
  have hdal := h.aligned (mem_structs.mpr (.inl hd))
  rcases tryFreePageTable_cases st d i with ⟨hzero, heq⟩ | heq
  · rw [heq, ht, hcheck]
    rw [ht] at hzero
    have hslot : ∀ j < pteCount, pteAt st.mem d i j = 0 := by
      intro j hj
      rw [pteAt_user hu, haddr]
      exact hzero j hj
    have hpages : pageRefs st.mem (word st.mem (d + 4 * i)) = 0 := by
      refine Multiset.eq_zero_of_forall_notMem fun g hg => ?_
      obtain ⟨j, hj, hg⟩ := mem_pageRefs.mp hg
      rw [hslot j hj] at hg
      simp [entryRefs, present] at hg
    have htabs : tabRefs (word st.mem (d + 4 * i)) = {t} := by rw [tabRefs_user hu, haddr]
    obtain ⟨Y, hY, hlive, hothers⟩ := structs_split st.mem hd hi
    rw [htabs] at hY
    have hsplit : refsOf st.mem live held = t ::ₘ (Y + mapped st.mem live + held) := by
      rw [refsOf, hY, ← Multiset.singleton_add]
      abel
    have hexact : Exact M (t ::ₘ (Y + mapped st.mem live + held)) (st.setEntry d i 0) := by
      rw [← hsplit]
      exact h.exact.setEntry
    obtain ⟨hexact₁, hsteady⟩ := hexact.freeFrame
    have hin : ∀ a ∈ structs st.mem live, a ≠ t → a ∈ Y + mapped st.mem live + held := by
      intro a ha hat
      rw [hY, Multiset.singleton_add] at ha
      exact Multiset.mem_add.mpr
        (.inl (Multiset.mem_add.mpr (.inl ((Multiset.mem_cons.mp ha).resolve_left hat))))
    have hsame : ∀ a ∈ Y + mapped st.mem live + held, a ≠ d →
        Same st.mem ((st.setEntry d i 0).freeFrame t).mem a := fun a ha had =>
      (same_setWord (hexact₁.aligned (hexact₁.used_in a ha)) hdal had hi).trans (hsteady a ha)
    have hdir : Same (st.setEntry d i 0).mem ((st.setEntry d i 0).freeFrame t).mem d :=
      hsteady d (hin d (mem_structs.mpr (.inl hd)) hdt)
    have hword : word ((st.setEntry d i 0).freeFrame t).mem (d + 4 * i) = 0 :=
      (hdir.word hi).trans (word_setWord st.mem (by decide))
    have hwords : ∀ k < pteCount, k ≠ i → word ((st.setEntry d i 0).freeFrame t).mem (d + 4 * k) =
        word st.mem (d + 4 * k) := fun k hk hki =>
      (hdir.word hk).trans (word_setWord_of_ne hki)
    have hwithin : Within (· ∈ M) st ((st.setEntry d i 0).freeFrame t) :=
      (within_setEntry hdal hi
        (h.exact.used_in d (mem_refs (mem_structs.mpr (.inl hd)) held))).trans
        (within_freeFrame (h.aligned htin) (h.exact.used_in t (mem_refs htin held)))
    generalize (st.setEntry d i 0).freeFrame t = st' at hexact₁ hsame hword hwords hwithin ⊢
    have hR : Remapped M live held live held st st' (pteAt st.mem) := by
      refine (h.remap (S := fun _ => 0) hd hi
        ⟨hwords, fun a ha had hna => hsame a (hin a ha fun heq => hna ?_) had⟩ hexact₁ ?_ ?_
        (fun j _ => pteAt_none (by rw [hword]; decide) j) (fun _ hp => ?_)
        (by rw [hword, kernelEntry_user hu.2]; rfl)
          (fun a ha hY => hsame a hY fun heq => ?_) hwithin).congr fun d' _ k _ j hj => ?_
      · rw [htabs, heq]
        exact Multiset.mem_singleton_self t
      · have hzero' : tabRefs 0 = 0 ∧ pageRefs st'.mem 0 = 0 :=
          ⟨if_neg (by decide), if_neg (by decide)⟩
        rw [hword, htabs, hpages, hsplit, ← Multiset.singleton_add, hzero'.1, hzero'.2]
        abel
      · rintro a (ha | ha)
        · have hone := h.alone a ha
          rw [hsplit] at hone
          exact (Multiset.count_le_count_cons a t _).trans hone.le
        · rw [hword, mem_tabRefs] at ha
          simp [present] at ha
      · rw [hword] at hp
        exact absurd hp (by decide)
      · exact h.no_struct ha (heq ▸ mem_structs.mpr (.inl hd))
      · split
        · next hat => rw [hat.1, hat.2, hslot j hj]
        · rfl
    refine ⟨hR, fun a ha had => ?_⟩
    rw [← hexact₁.unique hR.spaces.exact] at ha
    rw [hsplit]
    exact ⟨Multiset.mem_cons_of_mem ha, hsame a ha had⟩
  · rw [heq, ht, hcheck]
    exact ⟨.refl h, fun a ha _ => ⟨ha, Same.refl _ _⟩⟩

/-- **`unmapPage`** takes one page away. -/
theorem Spaces.unmapPage (h : Spaces M live held st) (hd : d ∈ live) (hv : pdeIdx v < pteCount)
    (hu : present (word st.mem (d + 4 * pdeIdx v)) = true →
    user (word st.mem (d + 4 * pdeIdx v)) = true) :
    Remapped M live held live held st (st.unmapPage d v)
      (setSlot (pteAt st.mem) d (pdeIdx v) (pteIdx v) 0) := by
  unfold Phys.unmapPage
  split
  · next hpres =>
      have hu := hu hpres
      generalize ht : addr (st.entry d (pdeIdx v)) = t
      have htab := mem_tabRefs.mpr ⟨⟨hpres, hu⟩, ht.symm⟩
      have htin : t ∈ structs st.mem live := mem_structs.mpr (.inr ⟨d, hd, _, hv, htab⟩)
      have hcheck : st.checkPhysAddr t = st :=
        h.exact.check (h.exact.used_in t (mem_refs htin held))
      dsimp only
      rw [hcheck]
      obtain ⟨h₁, hdir⟩ := h.dropSlot hd hv ⟨hpres, hu⟩ ht (pteIdx_lt v) (by decide)
        (show held = entryRefs 0 + held by rw [entryRefs, if_neg (by decide), zero_add])
      generalize (st.dropEntry (st.entry t (pteIdx v))).setEntry t (pteIdx v) 0 = st₁ at h₁ hdir ⊢
      obtain ⟨h₂, hsteady⟩ := h₁.spaces.tryFreePageTable hd hv (by rw [hdir]; exact ⟨hpres, hu⟩)
      refine ⟨h₂.spaces, fun d' hd' k hk j hj => ?_, fun a ha ha' => ?_,
        fun hg => h₂.gates (h₁.gates hg),
        fun K hK => h₂.kernel K (h₁.kernel K hK), h₁.within.trans h₂.within⟩
      · rw [h₂.slots d' hd' k hk j hj, h₁.slots d' hd' k hk j hj]
      · have had : a ≠ d := fun heq => h.no_struct ha (heq ▸ mem_structs.mpr (.inl hd))
        obtain ⟨hin, hsame⟩ := hsteady a ha' had
        exact (h₁.kept a ha hin).trans hsame
  · next habs =>
      refine (Remapped.refl h).congr fun d' hd' k hk j hj => ?_
      unfold setSlot
      split
      · next hat => rw [hat.1, hat.2.1, hat.2.2, pteAt_none fun hno => habs hno.1]
      · rfl


/-- **`clearPageTable`** takes the pages of a table away, or fails and does nothing. -/
theorem Spaces.clearPageTable (h : Spaces M live held st) (hd : d ∈ live) (hv : pdeIdx v < pteCount)
    (hu : present (word st.mem (d + 4 * pdeIdx v)) = true →
    user (word st.mem (d + 4 * pdeIdx v)) = true) :
    st.free ≠ [] ∧ Remapped M live held live held st (st.clearPageTable d v)
      (clearSlots (pteAt st.mem) d (pdeIdx v)) ∨
      st.free = [] ∧ st.clearPageTable d v = st := by
  unfold Phys.clearPageTable
  split
  · next hpres =>
      have hu := hu hpres
      generalize hi : pdeIdx v = i at hv hu hpres ⊢
      generalize ht : addr (st.entry d i) = t
      have htab := mem_tabRefs.mpr ⟨⟨hpres, hu⟩, ht.symm⟩
      have htin : t ∈ structs st.mem live := mem_structs.mpr (.inr ⟨d, hd, i, hv, htab⟩)
      have hdin : d ∈ structs st.mem live := mem_structs.mpr (.inl hd)
      have hcheck : st.checkPhysAddr t = st :=
        h.exact.check (h.exact.used_in t (mem_refs htin held))
      have hdt : d ≠ t := fun heq => (h.table hd hv htab).1 (heq ▸ hd)
      dsimp only
      rw [hcheck]
      split
      · next st₁ halloc => exact .inr (allocFrame_none halloc).symm
      · next f st₁ halloc =>
          obtain ⟨hexact, hf, hfresh, hmem, hzero⟩ := h.exact.alloc halloc
          have hfal := h.exact.aligned hf
          have hout : ∀ a ∈ structs st.mem live, Same st.mem st₁.mem a :=
            fun a ha => same_of_outside (h.aligned ha) hfal (Spaces.ne_fresh ha hfresh) hmem
          obtain ⟨X, hX⟩ := mapped_table hd hv ⟨hpres, hu⟩
          obtain ⟨Y, hY, hlive, hothers⟩ := structs_split st.mem hd hv
          have huser : present (word st.mem (d + 4 * i)) = true ∧
            user (word st.mem (d + 4 * i)) = true := ⟨hpres, hu⟩
          have htabs : tabRefs (word st.mem (d + 4 * i)) = {t} := by
            rw [tabRefs_user huser, ← ht]
            rfl
          have hpages : pageRefs st.mem (word st.mem (d + 4 * i)) =
              tableRefs st.mem t pteCount := by
            rw [pageRefs_user huser, ← ht]
            rfl
          have haddr : addr (word st.mem (d + 4 * i)) = t := ht
          rw [htabs] at hY
          rw [haddr] at hX
          have htable : tableRefs st₁.mem t pteCount = tableRefs st.mem t pteCount :=
            tableRefs_same fun k hk => (hout t htin).word hk
          have hsplit : refsOf st.mem live held =
              tableRefs st.mem t pteCount + (t ::ₘ (Y + X + held)) := by
            rw [refsOf, hY, hX, ← Multiset.singleton_add]
            abel
          have hexact₁ :
              Exact M (tableRefs st₁.mem t pteCount + (t ::ₘ (f ::ₘ (Y + X + held)))) st₁ := by
            rw [hsplit] at hexact
            rw [htable, Multiset.cons_swap, Multiset.add_cons]
            exact hexact
          obtain ⟨hexact₂, hsteady₂⟩ := hexact₁.dropEntries (Multiset.mem_cons_self _ _) le_rfl
          have hwithin₂ := (h.exact.within_alloc halloc).trans
            (hexact₁.within_dropEntries (Multiset.mem_cons_self _ _) le_rfl)
          generalize Phys.dropEntries t pteCount st₁ = st₂ at hexact₂ hsteady₂ hwithin₂ ⊢
          have hin : ∀ a ∈ structs st.mem live, a ≠ t → a ∈ Y + X + held := by
            intro a ha hat
            rw [hY, Multiset.singleton_add] at ha
            exact Multiset.mem_add.mpr
              (.inl (Multiset.mem_add.mpr (.inl ((Multiset.mem_cons.mp ha).resolve_left hat))))
          have hsame₂ : ∀ a ∈ structs st.mem live, a ≠ t → Same st.mem st₂.mem a := fun a ha hat =>
            (hout a ha).trans
              (hsteady₂ a (Multiset.mem_cons_of_mem (Multiset.mem_cons_of_mem (hin a ha hat))))
          have hentry : st₂.entry d i = word st.mem (d + 4 * i) := (hsame₂ d hdin hdt).word hv
          rw [hentry]
          have hgate : Gate (word st.mem (d + 4 * i)) →
              Gate (mkEntry f (word st.mem (d + 4 * i) % 8)) := by
            intro hg _ _
            have hw := hg hpres hu
            unfold writable mkEntry addr pageRw pageSize at *
            rw [decide_eq_true_iff] at hw ⊢
            omega
          have hmod : mkEntry f (word st.mem (d + 4 * i) % 8) % 8 =
              word st.mem (d + 4 * i) % 8 := by
            rw [mkEntry_mod, Nat.mod_mod]
          have hflt : word st.mem (d + 4 * i) % 8 < pageSize := by
            unfold pageSize
            omega
          have he' := mkEntry_lt (h.exact.lt hf) hflt
          have haddr' : addr (mkEntry f (word st.mem (d + 4 * i) % 8)) = f := by
            rw [addr_mkEntry hflt, addr_of_aligned hfal]
          have hu' : present (mkEntry f (word st.mem (d + 4 * i) % 8)) = true ∧
              user (mkEntry f (word st.mem (d + 4 * i) % 8)) = true := by
            rw [present_iff, user_iff, hmod, ← present_iff, ← user_iff]
            exact ⟨hpres, hu⟩
          generalize mkEntry f (word st.mem (d + 4 * i) % 8) = e' at he' haddr' hu' hgate ⊢
          obtain ⟨hexact₃, hsteady₃⟩ := (hexact₂.setEntry (t := d) (k := i) (e := e')).freeFrame
          have hfin : f ∈ f ::ₘ (Y + X + held) := Multiset.mem_cons_self f _
          have hdir : Same (st₂.setEntry d i e').mem ((st₂.setEntry d i e').freeFrame t).mem d :=
            hsteady₃ d (Multiset.mem_cons_of_mem (hin d hdin hdt))
          have hword : word ((st₂.setEntry d i e').freeFrame t).mem (d + 4 * i) = e' :=
            (hdir.word hv).trans (word_setWord st₂.mem he')
          have hdal := h.aligned hdin
          have hdf : d ≠ f := Spaces.ne_fresh hdin hfresh
          have hsame : ∀ a ∈ Y + X + held, a ≠ d →
              Same st.mem ((st₂.setEntry d i e').freeFrame t).mem a := by
            intro a ha had
            have hR : a ∈ refsOf st.mem live held := by
              rw [hsplit]
              exact Multiset.mem_add.mpr (.inr (Multiset.mem_cons_of_mem ha))
            have hal := h.exact.aligned (h.exact.used_in a hR)
            have haf : a ≠ f := fun heq => hfresh (heq ▸ hR)
            exact (((same_of_outside hal hfal haf hmem).trans
                (hsteady₂ a (Multiset.mem_cons_of_mem (Multiset.mem_cons_of_mem ha)))).trans
              (same_setWord hal hdal had hv)).trans (hsteady₃ a (Multiset.mem_cons_of_mem ha))
          have hnew : ∀ j < pteCount, word ((st₂.setEntry d i e').freeFrame t).mem
              (f + 4 * j) = 0 := by
            intro j hj
            have hsame :=
              ((hsteady₂ f (Multiset.mem_cons_of_mem hfin)).trans
              (same_setWord hfal hdal hdf.symm hv)).trans (hsteady₃ f hfin)
            exact (hsame.word hj).trans (word_zero hzero hj)
          have hwords : ∀ k < pteCount, k ≠ i →
              word ((st₂.setEntry d i e').freeFrame t).mem (d + 4 * k) = word st.mem (d + 4 * k) :=
            fun k hk hki => (hdir.word hk).trans
              ((word_setWord_of_ne hki).trans ((hsame₂ d hdin hdt).word hk))
          have hwithin : Within (· ∈ M) st ((st₂.setEntry d i e').freeFrame t) :=
            (hwithin₂.trans (within_setEntry hdal hv
                (h.exact.used_in d (mem_refs hdin held)))).trans
              (within_freeFrame (h.aligned htin) (h.exact.used_in t (mem_refs htin held)))
          generalize (st₂.setEntry d i e').freeFrame t =
            st' at hexact₃ hword hsame hnew hwords hwithin ⊢
          have hslot : ∀ j < pteCount, pteAt st'.mem d i j = 0 := by
            intro j hj
            rw [pteAt_user (by rw [hword]; exact hu'), hword, haddr']
            exact hnew j hj
          have hpages' : pageRefs st'.mem e' = 0 := by
            rw [← hword]
            refine Multiset.eq_zero_of_forall_notMem fun g hg => ?_
            obtain ⟨j, hj, hg⟩ := mem_pageRefs.mp hg
            rw [hslot j hj] at hg
            simp [entryRefs, present] at hg
          have hno : f ∉ Y + X + held := fun hm => hfresh (by
            rw [hsplit]
            exact Multiset.mem_add.mpr (.inr (Multiset.mem_cons_of_mem hm)))
          refine .inl ⟨by rw [(allocFrame_some halloc).1]; exact List.cons_ne_nil _ _, ?_⟩
          refine h.remap (S := fun _ => 0) hd hv ⟨hwords,
            fun a ha had hna => hsame a (hin a ha fun heq => hna ?_) had⟩ hexact₃ ?_ ?_ hslot
            (fun hg => by rw [hword]; exact hgate hg)
              (by rw [hword, kernelEntry_user hu'.2, kernelEntry_user hu])
              (fun a ha haY => ?_) hwithin
          · rw [htabs, heq]
            exact Multiset.mem_singleton_self t
          · rw [hword, htabs, hpages, hpages', tabRefs_user hu', haddr', hsplit,
              ← Multiset.singleton_add, ← Multiset.singleton_add]
            abel
          · rintro a (ha | ha)
            · have hone := h.alone a ha
              rw [hsplit, Multiset.count_add] at hone
              rw [Multiset.count_cons_of_ne (Spaces.ne_fresh ha hfresh)]
              have hle := Multiset.count_le_count_cons a t (Y + X + held)
              omega
            · rw [hword, tabRefs_user hu', haddr', Multiset.mem_singleton] at ha
              rw [ha, Multiset.count_cons_self, Multiset.count_eq_zero.mpr hno]
          · have hR : a ∈ refsOf st.mem live held := by
              rw [refsOf, add_assoc]
              exact Multiset.mem_add.mpr (.inr ha)
            refine hsame a ((Multiset.mem_cons.mp haY).resolve_left fun heq => hfresh (heq ▸ hR))
              fun heq => ?_
            exact h.no_struct ha (heq ▸ hdin)
  · next habs =>
      by_cases hfree : st.free = []
      · exact .inr ⟨hfree, rfl⟩
      refine .inl ⟨hfree, (Remapped.refl h).congr fun d' hd' k hk j hj => ?_⟩
      unfold clearSlots
      split
      · next hat => rw [hat.1, hat.2, pteAt_none fun hno => habs hno.1]
      · rfl

end Doors.Memory
