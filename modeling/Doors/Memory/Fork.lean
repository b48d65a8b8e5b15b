import Doors.Memory.Cow

/-!
# Doors.Memory.Fork

A clone of a directory, with the counts exact, and the end of one.

* `Spaces.freePageDirectory` — a directory that is freed leaves the references of the others;
* `Spaces.clonePageDir` — a clone adds its own, or fails and leaves no trace;
* `Spaces.forkDir` — so does `fork`, which protects the parent as well.
-/

namespace Doors.Memory

open Phys

variable {M : Set Nat} {R R' X live held : Multiset Nat} {st st' st₀ st₁ : Phys}
  {mem mem' : Nat → BitVec 8} {a d e f g pd src t n i j k : Nat}

/-! ## giving up tables -/

/-- `release` gives up what a table maps, when `P` holds of that and of the other references. -/
def Releasing (M : Set Nat) (P : Multiset Nat → Multiset Nat → Prop)
    (release : Nat → Phys → Phys) : Prop :=
  ∀ st t R, P (tableRefs st.mem t pteCount) R →
    Exact M (tableRefs st.mem t pteCount + (t ::ₘ R)) st →
    Exact M (t ::ₘ R) (release t st) ∧ Steady (t ::ₘ R) st (release t st) ∧
      Within (· ∈ M) st (release t st)

/-- What `freePageDirectory` does with a table. -/
theorem releasing_free (M : Set Nat) : Releasing M (fun _ _ => True) fun t st =>
    Phys.dropEntries t pteCount (st.checkPhysAddr t) := by
  intro st t R _ h
  have hin : t ∈ tableRefs st.mem t pteCount + (t ::ₘ R) :=
    Multiset.mem_add.mpr (.inr (Multiset.mem_cons_self t R))
  dsimp only
  rw [h.check (h.used_in t hin)]
  obtain ⟨hexact, hsteady⟩ := h.dropEntries (Multiset.mem_cons_self t R) le_rfl
  exact ⟨hexact, hsteady, h.within_dropEntries (Multiset.mem_cons_self t R) le_rfl⟩

/-- What `rollback` does with a table. -/
theorem releasing_rollback (M : Set Nat) :
    Releasing M (fun T R => ∀ g ∈ T, g ∈ R) fun t st => Phys.removeRefs t pteCount st := by
  intro st t R hkeep h
  have hin : ∀ g ∈ tableRefs st.mem t pteCount, g ∈ t ::ₘ R :=
    fun g hg => Multiset.mem_cons_of_mem (hkeep g hg)
  obtain ⟨hexact, hmem⟩ := h.removeRefs hin
  exact ⟨hexact, fun a _ x _ _ => by rw [hmem], h.within_removeRefs hin⟩

/-- **The loop over the tables** gives up the tables and what they map. -/
theorem Exact.releaseEntries {P : Multiset Nat → Multiset Nat → Prop} {release : Nat → Phys → Phys}
    (hrel : Releasing M P release)
    (hpd : pd ∈ X) (hn : n ≤ pteCount)
    (h : Exact M (X + (dirTabs st.mem pd n + dirPages st.mem pd n)) st)
    (hP : ∀ k < n, ∀ t ∈ tabRefs (word st.mem (pd + 4 * k)), ∀ R, X ≤ R →
    P (tableRefs st.mem t pteCount) R) :
    Exact M X (Phys.releaseEntries release pd n st) ∧
      Steady X st (Phys.releaseEntries release pd n st) ∧
      Within (· ∈ M) st (Phys.releaseEntries release pd n st) := by
  induction n generalizing X with
  | zero =>
      rw [dirTabs_zero, dirPages_zero, add_zero, add_zero] at h
      exact ⟨h, Steady.refl X st, .refl _ st⟩
  | succ n ih =>
      have hsplit : X + (dirTabs st.mem pd (n + 1) + dirPages st.mem pd (n + 1)) =
          X + (pageRefs st.mem (word st.mem (pd + 4 * n)) + tabRefs (word st.mem (pd + 4 * n))) +
            (dirTabs st.mem pd n + dirPages st.mem pd n) := by
        rw [dirTabs_succ, dirPages_succ]
        abel
      rw [hsplit] at h
      obtain ⟨h₁, hs₁, hw₁⟩ :=
        ih (Multiset.mem_add.mpr (.inl hpd)) (by omega) h fun k hk t ht R hR =>
        hP k (by omega) t ht R ((Multiset.le_add_right _ _).trans hR)
      rw [Phys.releaseEntries]
      generalize Phys.releaseEntries release pd n st = st₁ at h₁ hs₁ hw₁ ⊢
      have hword : st₁.entry pd n = word st.mem (pd + 4 * n) :=
        (hs₁ pd (Multiset.mem_add.mpr (.inl hpd))).word (by omega)
      have hsX : Steady X st st₁ := hs₁.mono fun a ha => Multiset.mem_add.mpr (.inl ha)
      rw [hword]
      generalize he : word st.mem (pd + 4 * n) = e at h₁ hs₁ ⊢
      split
      · next hu =>
          rw [pageRefs_user hu, tabRefs_user hu] at h₁ hs₁
          have htin : addr e ∈ X + (tableRefs st.mem (addr e) pteCount + {addr e}) :=
            Multiset.mem_add.mpr (.inr
              (Multiset.mem_add.mpr (.inr (Multiset.mem_singleton_self _))))
          have htable : tableRefs st₁.mem (addr e) pteCount = tableRefs st.mem (addr e) pteCount :=
            tableRefs_same fun k hk => (hs₁ _ htin).word hk
          have h₂ : Exact M (tableRefs st₁.mem (addr e) pteCount + (addr e ::ₘ X)) st₁ := by
            have hsum : ∀ T : Multiset Nat, X + (T + {addr e}) = T + (addr e ::ₘ X) := fun T => by
              rw [← Multiset.singleton_add, add_left_comm, add_comm X]
            rw [htable, ← hsum]
            exact h₁
          have hpages : P (tableRefs st₁.mem (addr e) pteCount) X := by
            rw [htable]
            exact hP n (by omega) _ (by rw [he]; exact mem_tabRefs.mpr ⟨hu, rfl⟩) X le_rfl
          obtain ⟨h₃, hs₃, hw₃⟩ := hrel st₁ (addr e) X hpages h₂
          obtain ⟨h₄, hs₄⟩ := h₃.freeFrame
          have hw₄ : Within _ (release (addr e) st₁) _ :=
            within_freeFrame (addr_mod e) (h₃.used_in _ (Multiset.mem_cons_self _ _))
          exact ⟨h₄, (hsX.trans (hs₃.mono fun a ha => Multiset.mem_cons_of_mem ha)).trans hs₄,
            (hw₁.trans hw₃).trans hw₄⟩
      · next hu =>
          have hnone : pageRefs st.mem e = 0 ∧ tabRefs e = 0 := ⟨if_neg hu, if_neg hu⟩
          rw [hnone.1, hnone.2, add_zero, add_zero] at h₁
          exact ⟨h₁, hsX, hw₁⟩

/-! ## a directory more or less -/

/-- One more directory. -/
theorem structs_cons (mem : Nat → BitVec 8) (d : Nat) (live : Multiset Nat) :
    structs mem (d ::ₘ live) = d ::ₘ dirTabs mem d pteCount + structs mem live := by
  unfold structs
  rw [Multiset.cons_bind, ← Multiset.singleton_add, ← Multiset.singleton_add]
  abel

/-- The pages of one more directory. -/
theorem mapped_cons (mem : Nat → BitVec 8) (d : Nat) (live : Multiset Nat) :
    mapped mem (d ::ₘ live) = dirPages mem d pteCount + mapped mem live := by
  unfold mapped
  rw [Multiset.cons_bind]

/-- The references of one more directory. -/
theorem refsOf_cons (mem : Nat → BitVec 8) (d : Nat) (live held : Multiset Nat) :
    refsOf mem (d ::ₘ live) held = d ::ₘ refsOf mem live held +
      (dirTabs mem d pteCount + dirPages mem d pteCount) := by
  unfold refsOf
  rw [structs_cons, mapped_cons, ← Multiset.singleton_add, ← Multiset.singleton_add]
  abel

/-- **`freePageDirectory` and `freeFrame`** take a directory from the live ones. -/
theorem Spaces.freePageDirectory (h : Spaces M (d ::ₘ live) held st) :
    Remapped M (d ::ₘ live) held live held st ((st.freePageDirectory d).freeFrame d)
      (pteAt st.mem) := by
  have hexact := h.exact
  rw [refsOf_cons] at hexact
  obtain ⟨h₁, hs₁, hw₁⟩ := hexact.releaseEntries (releasing_free M)
    (Multiset.mem_cons_self d _) le_rfl fun _ _ _ _ _ _ => trivial
  obtain ⟨h₂, hs₂⟩ := h₁.freeFrame
  have hsteady := (hs₁.mono fun a ha => Multiset.mem_cons_of_mem ha).trans hs₂
  have hd := h₁.used_in d (Multiset.mem_cons_self d _)
  have hwithin := hw₁.trans (within_freeFrame (h₁.aligned hd) hd)
  unfold Phys.freePageDirectory
  generalize (Phys.releaseEntries _ d pteCount st).freeFrame d = st' at h₂ hsteady hwithin ⊢
  have hsame : ∀ a ∈ structs st.mem live, Same st.mem st'.mem a :=
    fun a ha => hsteady a (mem_refs ha held)
  obtain ⟨hstructs, hmapped⟩ := refs_same hsame
  have hrefs : refsOf st'.mem live held = refsOf st.mem live held := by
    rw [refsOf, hstructs, hmapped, refsOf]
  refine ⟨⟨by rw [hrefs]; exact h₂, fun a ha => ?_⟩,
    fun d' hd' i hi j hj => (pteAt_same hsame hd' hi).2 j hj,
    fun a _ ha => hsteady a (by rw [← hrefs]; exact ha), fun hg d' hd' i hi =>
      ?_, fun K hK d' hd' i hi => ?_, hwithin⟩
  · rw [hstructs] at ha
    have hone := h.alone a (by rw [structs_cons]; exact Multiset.mem_add.mpr (.inr ha))
    have hpos := Multiset.count_pos.mpr (mem_refs ha held)
    rw [refsOf_cons, Multiset.count_add] at hone
    have hle := Multiset.count_le_count_cons a d (refsOf st.mem live held)
    rw [hrefs]
    omega
  · rw [(pteAt_same hsame hd' hi).1]
    exact hg d' (Multiset.mem_cons_of_mem hd') i hi
  · rw [(pteAt_same hsame hd' hi).1]
    exact hK d' (Multiset.mem_cons_of_mem hd') i hi

/-! ## cloning -/

/-- What `clonePageDir` makes of the entry `e` of the source: the entry `e'`. -/
structure CopyOf (mem mem' : Nat → BitVec 8) (e e' : Nat) : Prop where
  flags : present e' = present e ∧ user e' = user e ∧ writable e' = writable e ∨
    ¬ present e = true ∧ e' = 0
  table : present e = true → user e = true → ∀ j < pteCount,
    word mem' (addr e' + 4 * j) = protect (word mem (addr e + 4 * j))
  kernel : kernelEntry e' = kernelEntry e

/-- A copy is a user table exactly when its source is. -/
theorem CopyOf.user_iff (h : CopyOf mem mem' e g) :
    present g = true ∧ user g = true ↔ present e = true ∧ user e = true := by
  rcases h.flags with ⟨hp, hu, -⟩ | ⟨hp, rfl⟩
  · rw [hp, hu]
  · exact ⟨fun h0 => absurd h0.1 (by decide), fun he => absurd he.1 hp⟩

/-- A copy has the pages of its source. -/
theorem CopyOf.pages (h : CopyOf mem mem' e g) : pageRefs mem' g = pageRefs mem e := by
  unfold pageRefs
  by_cases hu : present e = true ∧ user e = true
  · rw [if_pos hu, if_pos (h.user_iff.mpr hu)]
    unfold tableRefs
    refine congrArg _ (tableFrames_congr fun k hk => ?_)
    rw [h.table hu.1 hu.2 k hk]
    exact protect_same _
  · rw [if_neg hu, if_neg fun hg => hu (h.user_iff.mp hg)]

/-- The references after the first `n` entries were copied to `pd`. -/
def copyRefs (R : Multiset Nat) (mem : Nat → BitVec 8) (pd n : Nat) : Multiset Nat :=
  R + (pd ::ₘ (dirTabs mem pd n + dirPages mem pd n))

/-- **A part of a clone**: the first `n` entries of `src` were copied to `pd`. -/
structure Copying (M : Set Nat) (R : Multiset Nat) (src pd n : Nat) (st₀ st : Phys) : Prop where
  exact : Exact M (copyRefs R st.mem pd n) st
  steady : Steady R st₀ st
  rest : ∀ k, n ≤ k → k < pteCount → word st.mem (pd + 4 * k) = 0
  alone : ∀ a ∈ pd ::ₘ dirTabs st.mem pd n, (copyRefs R st.mem pd n).count a = 1
  entries : ∀ k < n, CopyOf st₀.mem st.mem (word st₀.mem (src + 4 * k)) (word st.mem (pd + 4 * k))
  within : Within (· ∈ M) st₀ st

/-- Each mapping of `src` can take one reference more. -/
def Room (R : Multiset Nat) (mem : Nat → BitVec 8) (src : Nat) : Prop :=
  ∀ g ∈ dirPages mem src pteCount, R.count g + (dirPages mem src pteCount).count g ≤ maxRefcount

/-- The new directory has the pages of the old. -/
theorem Copying.pages (h : Copying M R src pd n st₀ st) :
    dirPages st.mem pd n = dirPages st₀.mem src n :=
  sum_same (dirPages st₀.mem src) (dirPages st.mem pd)
    (fun k => pageRefs st₀.mem (word st₀.mem (src + 4 * k)))
    (fun k => pageRefs st.mem (word st.mem (pd + 4 * k))) (dirPages_succ st₀.mem src)
      (dirPages_succ st.mem pd)
    (dirPages_zero st.mem pd) (dirPages_zero st₀.mem src) fun k hk => (h.entries k hk).pages

/-- What is in use is no part of the clone. -/
theorem Copying.apart (h : Copying M R src pd n st₀ st)
    (ha : a ∈ pd ::ₘ dirTabs st.mem pd n) : a ∉ R := by
  intro hin
  have hone := h.alone a ha
  have h₁ := Multiset.count_pos.mpr hin
  have h₂ := Multiset.count_pos.mpr ha
  have hsplit : copyRefs R st.mem pd n = R + (pd ::ₘ dirTabs st.mem pd n) +
      dirPages st.mem pd n := by
    rw [copyRefs, ← Multiset.singleton_add, ← Multiset.singleton_add]
    abel
  rw [hsplit, Multiset.count_add, Multiset.count_add] at hone
  omega

/-- The frames of the new directory. -/
theorem mem_copyRefs (ha : a ∈ pd ::ₘ dirTabs mem pd n) (R : Multiset Nat) :
    a ∈ copyRefs R mem pd n := by
  unfold copyRefs
  rcases Multiset.mem_cons.mp ha with rfl | ha
  · exact Multiset.mem_add.mpr (.inr (Multiset.mem_cons_self _ _))
  · exact Multiset.mem_add.mpr (.inr (Multiset.mem_cons_of_mem (Multiset.mem_add.mpr (.inl ha))))

/-- A table is not the directory. -/
theorem Copying.ne_pd (h : Copying M R src pd n st₀ st) (ha : a ∈ dirTabs st.mem pd n) :
    a ≠ pd := by
  rintro rfl
  have hone := h.alone a (Multiset.mem_cons_self a _)
  have hpos := Multiset.count_pos.mpr ha
  have hsplit : copyRefs R st.mem a n = {a} + dirTabs st.mem a n + (R + dirPages st.mem a n) := by
    rw [copyRefs, ← Multiset.singleton_add]
    abel
  rw [hsplit, Multiset.count_add, Multiset.count_add, Multiset.count_singleton_self] at hone
  omega

/-- The directory of the clone is a fresh frame. -/
theorem copying_start (h : Exact M R st) (halloc : st.allocFrame = (some pd, st₁)) :
    Copying M R src pd 0 st st₁ := by
  obtain ⟨hexact, hpd, hfresh, hmem, hzero⟩ := h.alloc halloc
  have hrefs : copyRefs R st₁.mem pd 0 = pd ::ₘ R := by
    rw [copyRefs, dirTabs_zero, dirPages_zero, add_zero, ← Multiset.singleton_add,
      ← Multiset.singleton_add, add_zero, add_comm]
  refine ⟨by rw [hrefs]; exact hexact, fun a ha => ?_, fun k _ hk => word_zero hzero hk,
    fun a ha => ?_, fun k hk => by omega,
    h.within_alloc halloc⟩
  · exact same_of_outside (h.aligned (h.used_in a ha)) (h.aligned hpd)
      (fun heq => hfresh (heq ▸ ha)) hmem
  · rw [dirTabs_zero] at ha
    obtain rfl : a = pd := by simpa using ha
    rw [hrefs, Multiset.count_cons_self, Multiset.count_eq_zero.mpr hfresh]

/-- An entry that is no user table. -/
theorem Copying.skip (h : Copying M R src pd n st₀ st) (hn : n < pteCount)
    (hexact : Exact M (copyRefs R st.mem pd n) st')
    (hmem : ∀ x, x < pd + 4 * n ∨ pd + 4 * n + 4 ≤ x → st'.mem x = st.mem x)
    (hno : ¬ (present (word st'.mem (pd + 4 * n)) = true ∧ user (word st'.mem (pd + 4 * n)) = true))
    (hcopy : CopyOf st₀.mem st'.mem (word st₀.mem (src + 4 * n)) (word st'.mem (pd + 4 * n)))
    (hwithin : Within (· ∈ M) st st') :
    Copying M R src pd (n + 1) st₀ st' := by
  have hpdin : pd ∈ copyRefs R st.mem pd n := mem_copyRefs (Multiset.mem_cons_self _ _) R
  have hpdal := h.exact.aligned (h.exact.used_in pd hpdin)
  have hout : ∀ a ∈ copyRefs R st.mem pd n, a ≠ pd → Same st.mem st'.mem a := by
    intro a ha hne
    refine same_of_outside (h.exact.aligned (h.exact.used_in a ha)) hpdal hne fun x hx => hmem x ?_
    unfold pteCount at hn
    unfold pageSize at hx
    omega
  have hword : ∀ k, k ≠ n → word st'.mem (pd + 4 * k) = word st.mem (pd + 4 * k) := fun k hk =>
    word_congr fun x hx hx' => hmem x (by omega)
  have htab : ∀ k < n, ∀ t ∈ tabRefs (word st.mem (pd + 4 * k)), Same st.mem st'.mem t := by
    intro k hk t ht
    have hin : t ∈ dirTabs st.mem pd n := mem_dirTabs.mpr ⟨k, hk, ht⟩
    exact hout t (mem_copyRefs (Multiset.mem_cons_of_mem hin) R) (h.ne_pd hin)
  obtain ⟨htabs, hpages⟩ := dir_same (n := n) (fun k hk => hword k (by omega)) htab
  have hrefs : copyRefs R st'.mem pd (n + 1) = copyRefs R st.mem pd n ∧
      dirTabs st'.mem pd (n + 1) = dirTabs st.mem pd n := by
    have hzero : tabRefs (word st'.mem (pd + 4 * n)) = 0 ∧
        pageRefs st'.mem (word st'.mem (pd + 4 * n)) = 0 :=
      ⟨if_neg hno, if_neg hno⟩
    unfold copyRefs
    rw [dirTabs_succ, dirPages_succ, hzero.1, hzero.2, htabs, hpages, zero_add, zero_add]
    exact ⟨rfl, rfl⟩
  refine ⟨by rw [hrefs.1]; exact hexact, fun a ha => (h.steady a ha).trans (hout a ?_ ?_),
    fun k hk hk' => ?_, fun a ha => ?_, fun k hk => ?_,
    h.within.trans hwithin⟩
  · exact Multiset.mem_add.mpr (.inl ha)
  · rintro rfl
    exact h.apart (Multiset.mem_cons_self a _) ha
  · rw [hword k (by omega)]
    exact h.rest k (by omega) hk'
  · rw [hrefs.2] at ha
    rw [hrefs.1]
    exact h.alone a ha
  · by_cases hkn : k = n
    · rw [hkn]
      exact hcopy
    · have hold := h.entries k (by omega)
      rw [hword k hkn]
      refine ⟨hold.flags, fun hp hu j hj => ?_, hold.kernel⟩
      rw [(htab k (by omega) _ (mem_tabRefs.mpr ⟨hold.user_iff.mpr ⟨hp, hu⟩, rfl⟩)).word hj]
      exact hold.table hp hu j hj

/-- How often a frame is referenced while copying. -/
theorem count_copyRefs (h : Copying M R src pd n st₀ st) (hg : g ∈ R) :
    (copyRefs R st.mem pd n).count g = R.count g + (dirPages st₀.mem src n).count g := by
  have hno : (pd ::ₘ dirTabs st.mem pd n).count g = 0 :=
    Multiset.count_eq_zero.mpr fun hin => h.apart hin hg
  have hsplit : copyRefs R st.mem pd n = R + (pd ::ₘ dirTabs st.mem pd n) +
      dirPages st.mem pd n := by
    rw [copyRefs, ← Multiset.singleton_add, ← Multiset.singleton_add]
    abel
  rw [hsplit, Multiset.count_add, Multiset.count_add, hno, h.pages, Nat.add_zero]

/-- A page is referenced by its directory at least as often as by its table. -/
theorem count_dirPages_le (mem : Nat → BitVec 8) (src : Nat) (hn : n < pteCount)
    (hu : present (word mem (src + 4 * n)) = true ∧ user (word mem (src + 4 * n)) = true)
    (g : Nat) :
    (tableRefs mem (addr (word mem (src + 4 * n))) pteCount).count g +
      (dirPages mem src n).count g ≤ (dirPages mem src pteCount).count g := by
  have hle : ∀ m, n + 1 ≤ m → dirPages mem src (n + 1) ≤ dirPages mem src m := by
    intro m hm
    induction m, hm using Nat.le_induction with
    | base => exact le_rfl
    | succ m _ ih =>
        rw [dirPages_succ mem src m]
        exact ih.trans (Multiset.le_add_left _ _)
  have hcount := Multiset.count_le_of_le g (hle pteCount hn)
  rwa [dirPages_succ, pageRefs_user hu, Multiset.count_add] at hcount

/-- What writes one table. -/
theorem Written.within {U : Nat → Prop} (h : Written t st st') (ht : t % pageSize = 0) (hU : U t) :
    Within U st st' where
  same b hb hn := same_of_outside hb ht (fun hbt => hn (hbt ▸ hU)) h.mem
  refs b _ _ := congrFun h.refs _
  free b hb := .inl (h.free ▸ hb)
  max := h.max

/-- The table `f` is a copy of that of the entry `e`, and the entry `e'` has it. -/
structure TableCopied (M : Set Nat) (T : Multiset Nat) (pd n f e e' : Nat) (mem₀ : Nat → BitVec 8)
    (st st' : Phys) : Prop where
  exact : Exact M (tableRefs mem₀ (addr e) pteCount + f ::ₘ T) st'
  fresh : f ∉ T
  addr : addr e' = f
  flags : present e' = present e ∧ user e' = user e ∧ writable e' = writable e
  words : ∀ k < pteCount, word st'.mem (f + 4 * k) = protect (word mem₀ (Memory.addr e + 4 * k))
  dir : ∀ k < pteCount, word st'.mem (pd + 4 * k) = if k = n then e' else word st.mem (pd + 4 * k)
  out : ∀ a ∈ T, a ≠ pd → Same st.mem st'.mem a
  within : Within (· ∈ M) st st'

/-- **A user table** is copied, and what it maps gets a reference more. -/
theorem Copying.copyTable (h : Copying M R src pd n st₀ st) (hn : n < pteCount)
    (he : word st₀.mem (src + 4 * n) = e)
    (hu : present e = true ∧ user e = true) (hold : addr e ∈ R)
    (hin : ∀ g ∈ tableRefs st₀.mem (addr e) pteCount, g ∈ R)
    (hroom : Room R st₀.mem src) (halloc : st.allocFrame = (some f, st₁))
    (hst' : st' = protectEntries f pteCount (Phys.addRefs f pteCount
      (((st₁.checkPhysAddr (addr e)).copyFrame f (addr e)).setEntry pd n
        (mkEntry f (e % pageSize))))) :
    ∃ e', TableCopied M (copyRefs R st.mem pd n) pd n f e e' st₀.mem st st' := by
  obtain ⟨hexact₁, hf, hfresh, hmem₁, -⟩ := h.exact.alloc halloc
  have hRT : ∀ a ∈ R, a ∈ copyRefs R st.mem pd n := fun a ha => Multiset.mem_add.mpr (.inl ha)
  have hpdin : pd ∈ copyRefs R st.mem pd n := mem_copyRefs (Multiset.mem_cons_self _ _) R
  have hpdal := h.exact.aligned (h.exact.used_in pd hpdin)
  have hfal := h.exact.aligned hf
  have hpdf : pd ≠ f := fun heq => hfresh (heq ▸ hpdin)
  have hoal := h.exact.aligned (h.exact.used_in _ (hRT _ hold))
  have hof : addr e ≠ f := fun heq => hfresh (heq ▸ hRT _ hold)
  rw [hexact₁.check (hexact₁.used_in _ (Multiset.mem_cons_of_mem (hRT _ hold)))] at hst'
  -- the entry of the directory
  have hflt : e % pageSize < pageSize := Nat.mod_lt _ (by decide)
  have he' := mkEntry_lt (h.exact.lt hf) hflt
  have haddr' : addr (mkEntry f (e % pageSize)) = f := by
    rw [addr_mkEntry hflt, addr_of_aligned hfal]
  have hflags := mkEntry_flags f e
  generalize mkEntry f (e % pageSize) = e' at he' haddr' hflags hst'
  refine ⟨e', ?_⟩
  -- the memory before the references are taken
  have hwithin₄ : Within (· ∈ M) st ((st₁.copyFrame f (addr e)).setEntry pd n e') :=
    ((h.exact.within_alloc halloc).trans (within_copyFrame hfal hf)).trans
      (within_setEntry hpdal hn (h.exact.used_in pd hpdin))
  generalize hst₄ : (st₁.copyFrame f (addr e)).setEntry pd n e' = st₄ at hst' hwithin₄
  have hout₄ : ∀ a, a % pageSize = 0 → a ≠ f → a ≠ pd → Same st.mem st₄.mem a := by
    intro a hal haf hapd
    rw [← hst₄]
    refine (same_of_outside hal hfal haf fun x hx => ?_).trans (same_setWord hal hpdal hapd hn)
    have hcopy : (st₁.copyFrame f (addr e)).mem x = st₁.mem x := if_neg (by omega)
    rw [hcopy, hmem₁ x hx]
  have hwords₄ : ∀ k < pteCount, word st₄.mem (f + 4 * k) = word st₀.mem (addr e + 4 * k) := by
    intro k hk
    rw [← hst₄]
    refine ((same_setWord hfal hpdal hpdf.symm hn).word hk).trans
      ((copyFrame_word st₁ f (addr e) hk).trans ?_)
    refine ((same_of_outside hoal hfal hof hmem₁).word hk).trans ?_
    exact (h.steady _ hold).word hk
  have hpd₄ : ∀ k < pteCount, word st₄.mem (pd + 4 * k) = if k = n then e'
      else word st.mem (pd + 4 * k) := by
    intro k hk
    rw [← hst₄]
    by_cases hkn : k = n
    · rw [if_pos hkn, hkn]
      exact word_setWord _ he'
    · rw [if_neg hkn]
      refine (word_setWord_of_ne hkn).trans ?_
      refine (same_of_outside hpdal hfal hpdf fun x hx => ?_).word hk
      have hcopy : (st₁.copyFrame f (addr e)).mem x = st₁.mem x := if_neg (by omega)
      rw [hcopy, hmem₁ x hx]
  have hexact₄ : Exact M (f ::ₘ copyRefs R st.mem pd n) st₄ := by
    rw [← hst₄]
    exact hexact₁.congr rfl rfl rfl rfl
  have htable₄ : tableRefs st₄.mem f pteCount = tableRefs st₀.mem (addr e) pteCount := by
    unfold tableRefs
    refine congrArg _ (tableFrames_congr fun k hk => ?_)
    rw [hwords₄ k hk]
    exact ⟨rfl, rfl⟩
  -- the references
  have hin₄ : ∀ g ∈ tableRefs st₄.mem f pteCount, g ∈ f ::ₘ copyRefs R st.mem pd n := fun g hg => by
    rw [htable₄] at hg
    exact Multiset.mem_cons_of_mem (hRT g (hin g hg))
  have hlim₄ : ∀ g ∈ tableRefs st₄.mem f pteCount,
      (tableRefs st₄.mem f pteCount).count g + (f ::ₘ copyRefs R st.mem pd n).count g ≤
        maxRefcount := fun g hg => by
    rw [htable₄] at hg ⊢
    have hgR := hin g hg
    have hgf : g ≠ f := fun heq => hfresh (heq ▸ hRT g hgR)
    have hle := count_dirPages_le st₀.mem src hn (by rw [he]; exact hu) g
    rw [he] at hle
    have hpos := Multiset.count_pos.mpr hg
    have hroom := hroom g (Multiset.count_pos.mp (by omega))
    rw [Multiset.count_cons_of_ne hgf, count_copyRefs h hgR]
    omega
  obtain ⟨hexact₅, hmem₅⟩ := hexact₄.addRefs hin₄ hlim₄
  have hwithin₅ := hwithin₄.trans (hexact₄.within_addRefs hin₄ hlim₄)
  generalize Phys.addRefs f pteCount st₄ = st₅ at hexact₅ hmem₅ hwithin₅ hst'
  rw [htable₄] at hexact₅
  -- the write protection
  have hw : Written f st₅ (Phys.protectEntries f pteCount st₅) :=
    protectEntries_written f (le_refl pteCount)
  have hwords : ∀ k < pteCount, word st'.mem (f + 4 * k) =
      protect (word st₀.mem (addr e + 4 * k)) := by
    intro k hk
    rw [hst', protectEntries_word, if_pos hk, hmem₅, hwords₄ k hk]
  have hexact₆ :
      Exact M (tableRefs st₀.mem (addr e) pteCount + f ::ₘ copyRefs R st.mem pd n) st' := by
    rw [hst']
    exact hexact₅.congr hw.refs hw.free hw.max hw.panicked
  have hout : ∀ a, a % pageSize = 0 → a ≠ f → a ≠ pd → Same st.mem st'.mem a := by
    intro a hal haf hapd
    refine (hout₄ a hal haf hapd).trans ?_
    rw [hst', ← hmem₅]
    exact same_of_outside hal hfal haf hw.mem
  have hpd : ∀ k < pteCount, word st'.mem (pd + 4 * k) = if k = n then e'
      else word st.mem (pd + 4 * k) := by
    intro k hk
    rw [← hpd₄ k hk, hst', ← hmem₅]
    exact (same_of_outside hpdal hfal hpdf hw.mem).word hk
  exact ⟨hexact₆, hfresh, haddr', hflags, hwords, hpd,
    fun a ha hapd => hout a (h.exact.aligned (h.exact.used_in a ha))
      (fun heq => hfresh (heq ▸ ha)) hapd,
    hst' ▸ hwithin₅.trans (hw.within hfal hf)⟩

/-- **One round** for a user table. -/
theorem Copying.table {e' : Nat} (h : Copying M R src pd n st₀ st) (hn : n < pteCount)
    (he : word st₀.mem (src + 4 * n) = e)
    (hu : present e = true ∧ user e = true) (hin : ∀ g ∈ tableRefs st₀.mem (addr e) pteCount, g ∈ R)
    (hc : TableCopied M (copyRefs R st.mem pd n) pd n f e e' st₀.mem st st') :
    Copying M R src pd (n + 1) st₀ st' := by
  have hRT : ∀ a ∈ R, a ∈ copyRefs R st.mem pd n := fun a ha => Multiset.mem_add.mpr (.inl ha)
  have htabin : ∀ k < n, ∀ t ∈ tabRefs (word st.mem (pd + 4 * k)), t ∈ dirTabs st.mem pd n :=
    fun k hk t ht =>
    mem_dirTabs.mpr ⟨k, hk, ht⟩
  have htab : ∀ k < n, ∀ t ∈ tabRefs (word st.mem (pd + 4 * k)), Same st.mem st'.mem t :=
    fun k hk t ht =>
    hc.out t (mem_copyRefs (Multiset.mem_cons_of_mem (htabin k hk t ht)) R)
      (h.ne_pd (htabin k hk t ht))
  have hword : ∀ k < pteCount, k ≠ n → word st'.mem (pd + 4 * k) = word st.mem (pd + 4 * k) :=
    fun k hk hkn => by
    rw [hc.dir k hk, if_neg hkn]
  have hself : word st'.mem (pd + 4 * n) = e' := by rw [hc.dir n hn, if_pos rfl]
  have hu' : present e' = true ∧ user e' = true := by
    rw [hc.flags.1, hc.flags.2.1]
    exact hu
  have hpages : pageRefs st'.mem e' = tableRefs st₀.mem (addr e) pteCount := by
    rw [pageRefs_user hu', hc.addr]
    unfold tableRefs
    refine congrArg _ (tableFrames_congr fun k hk => ?_)
    rw [hc.words k hk]
    exact protect_same _
  obtain ⟨htabs, hdirpages⟩ := dir_same (n := n) (fun k hk => hword k (by omega) (by omega)) htab
  have hdirTabs : dirTabs st'.mem pd (n + 1) = {f} + dirTabs st.mem pd n := by
    rw [dirTabs_succ, hself, tabRefs_user hu', hc.addr, htabs]
  have hrefs : copyRefs R st'.mem pd (n + 1) =
      tableRefs st₀.mem (addr e) pteCount + f ::ₘ copyRefs R st.mem pd n := by
    unfold copyRefs
    rw [hdirTabs, dirPages_succ, hself, hpages, hdirpages]
    simp only [← Multiset.singleton_add]
    abel
  refine ⟨by rw [hrefs]; exact hc.exact, fun a ha => ?_, fun k hk hk' => ?_, fun a ha => ?_,
    fun k hk => ?_, h.within.trans hc.within⟩
  · refine (h.steady a ha).trans (hc.out a (hRT a ha) ?_)
    rintro rfl
    exact h.apart (Multiset.mem_cons_self a _) ha
  · rw [hword k hk' (by omega)]
    exact h.rest k (by omega) hk'
  · rw [hrefs, Multiset.count_add]
    have hother : a ∉ R → (tableRefs st₀.mem (addr e) pteCount).count a = 0 := fun hno =>
      Multiset.count_eq_zero.mpr fun hm => hno (hin a hm)
    rw [hdirTabs, Multiset.singleton_add, Multiset.cons_swap] at ha
    rcases Multiset.mem_cons.mp ha with rfl | ha
    · rw [hother fun hm => hc.fresh (hRT a hm), Multiset.count_cons_self,
        Multiset.count_eq_zero.mpr hc.fresh]
    · have hne : a ≠ f := fun heq => hc.fresh (heq ▸ mem_copyRefs ha R)
      rw [hother (h.apart ha), Multiset.count_cons_of_ne hne, Nat.zero_add]
      exact h.alone a ha
  · by_cases hkn : k = n
    · rw [hkn, he, hself]
      refine ⟨.inl hc.flags,
        fun _ _ j hj => ?_, by rw [kernelEntry_user hu'.2, kernelEntry_user hu.2]⟩
      rw [hc.addr]
      exact hc.words j hj
    · have hold := h.entries k (by omega)
      rw [hword k (by omega) hkn]
      refine ⟨hold.flags, fun hp hu j hj => ?_, hold.kernel⟩
      rw [(htab k (by omega) _ (mem_tabRefs.mpr ⟨hold.user_iff.mpr ⟨hp, hu⟩, rfl⟩)).word hj]
      exact hold.table hp hu j hj

/-- The pages of a directory are mapped. -/
theorem mem_pages (hd : d ∈ live) (hg : g ∈ dirPages mem d pteCount) : g ∈ mapped mem live :=
  Multiset.mem_bind.mpr ⟨d, hd, hg⟩

/-- One round of `clonePageDir`. -/
theorem Copying.cloneEntry (hsrc : src ∈ live) (hroom : Room (refsOf st₀.mem live held) st₀.mem src)
    (h : Copying M (refsOf st₀.mem live held) src pd n st₀ st) (hn : n < pteCount) :
    (∃ st', st.cloneEntry src pd n = (true, st') ∧
      Copying M (refsOf st₀.mem live held) src pd (n + 1) st₀ st') ∨
      st.cloneEntry src pd n = (false, st) ∧ st.free = [] := by
  have hsrcR : src ∈ refsOf st₀.mem live held := mem_refs (mem_structs.mpr (.inl hsrc)) held
  have hentry : st.entry src n = word st₀.mem (src + 4 * n) := (h.steady src hsrcR).word hn
  have hzero : word st.mem (pd + 4 * n) = 0 := h.rest n le_rfl hn
  unfold Phys.cloneEntry
  rw [hentry]
  generalize he : word st₀.mem (src + 4 * n) = e
  dsimp only
  split
  · next habs =>
      refine .inl ⟨st, rfl, h.skip hn h.exact (fun _ _ => rfl) (by rw [hzero]; decide)
        ⟨.inr ?_, fun hp => ?_, ?_⟩ (.refl _ st)⟩
      · rw [he]
        exact ⟨habs, hzero⟩
      · exact absurd (he ▸ hp) habs
      · rw [hzero, he, kernelEntry_absent habs]
        rfl
  · next hpres =>
      rw [not_not] at hpres
      split
      · next hu =>
          have hue : present e = true ∧ user e = true := ⟨hpres, hu⟩
          have htab : addr e ∈ refsOf st₀.mem live held :=
            mem_refs (mem_structs.mpr
              (.inr ⟨src, hsrc, n, hn, mem_tabRefs.mpr ⟨by rw [he]; exact hue, by rw [he]⟩⟩)) held
          have hpages : ∀ g ∈ tableRefs st₀.mem (addr e) pteCount,
              g ∈ refsOf st₀.mem live held := by
            intro g hg
            obtain ⟨X, hX⟩ : ∃ X, mapped st₀.mem live =
                tableRefs st₀.mem (addr (word st₀.mem (src + 4 * n))) pteCount + X :=
              mapped_table hsrc hn (by rw [he]; exact hue)
            rw [he] at hX
            refine Multiset.mem_add.mpr (.inl (Multiset.mem_add.mpr (.inr ?_)))
            rw [hX]
            exact Multiset.mem_add.mpr (.inl hg)
          split
          · next st₁ halloc =>
              obtain ⟨rfl, hfree⟩ := allocFrame_none halloc
              exact .inr ⟨rfl, hfree⟩
          · next f st₁ halloc =>
              obtain ⟨e', hc⟩ := h.copyTable hn he hue htab hpages hroom halloc rfl
              exact .inl ⟨_, rfl, h.table hn he hue hpages hc⟩
      · next hu =>
          have helt : e < 2 ^ 32 := he ▸ word_lt st₀.mem _
          have hword : word (st.setEntry pd n e).mem (pd + 4 * n) = e := word_setWord st.mem helt
          have hpdM := h.exact.used_in pd (mem_copyRefs (Multiset.mem_cons_self _ _) _)
          refine .inl
            ⟨_, rfl, h.skip hn h.exact.setEntry (fun x hx => setWord_of_ne st.mem (by omega)) ?_
            ⟨.inl ?_, fun _ hu' => ?_, by rw [hword, he]⟩
            (within_setEntry (h.exact.aligned hpdM) hn hpdM)⟩
          · rw [hword]
            exact fun hue => hu hue.2
          · rw [hword, he]
            exact ⟨rfl, rfl, rfl⟩
          · exact absurd (he ▸ hu') hu

/-- **The loop of `clonePageDir`**: it copies all, or fails and can be undone. -/
theorem Copying.cloneEntries (hsrc : src ∈ live)
    (hroom : Room (refsOf st₀.mem live held) st₀.mem src)
    (h : Copying M (refsOf st₀.mem live held) src pd 0 st₀ st) (hn : n ≤ pteCount) :
    (∃ st', Phys.cloneEntries src pd n st = (none, st') ∧
      Copying M (refsOf st₀.mem live held) src pd n st₀ st') ∨
      ∃ i < n, ∃ st', Phys.cloneEntries src pd n st = (some i, st') ∧
        Copying M (refsOf st₀.mem live held) src pd i st₀ st' ∧ st'.free = [] := by
  induction n with
  | zero => exact .inl ⟨st, rfl, h⟩
  | succ n ih =>
      rw [Phys.cloneEntries]
      rcases ih (by omega) with ⟨st₁, heq, h₁⟩ | ⟨i, hi, st₁, heq, h₁⟩
      · rw [heq]
        dsimp only
        rcases h₁.cloneEntry hsrc hroom (by omega) with ⟨st₂, heq₂, h₂⟩ | ⟨heq₂, hfree⟩
        · rw [heq₂]
          exact .inl ⟨st₂, rfl, h₂⟩
        · rw [heq₂]
          exact .inr ⟨n, by omega, st₁, rfl, h₁, hfree⟩
      · rw [heq]
        exact .inr ⟨i, by omega, st₁, rfl, h₁⟩

/-- **`rollback`** gives the references of a part of a clone back. -/
theorem Copying.rollback (h : Copying M (refsOf st₀.mem live held) src pd i st₀ st)
    (hi : i ≤ pteCount)
    (hin : ∀ g ∈ dirPages st₀.mem src i, g ∈ refsOf st₀.mem live held) :
    Exact M (refsOf st₀.mem live held) (st.rollback pd i) ∧
      Steady (refsOf st₀.mem live held) st₀ (st.rollback pd i) ∧
      Within (· ∈ M) st₀ (st.rollback pd i) := by
  have hexact := h.exact
  have hsplit : copyRefs (refsOf st₀.mem live held) st.mem pd i =
      pd ::ₘ refsOf st₀.mem live held + (dirTabs st.mem pd i + dirPages st.mem pd i) := by
    rw [copyRefs, ← Multiset.singleton_add, ← Multiset.singleton_add]
    abel
  rw [hsplit] at hexact
  obtain ⟨h₁, hs₁, hw₁⟩ := hexact.releaseEntries (releasing_rollback M)
      (Multiset.mem_cons_self pd _) hi fun k hk t ht R hR g hg => by
    refine Multiset.mem_of_le hR (Multiset.mem_cons_of_mem (hin g ?_))
    rw [← h.pages]
    obtain ⟨hu, rfl⟩ := mem_tabRefs.mp ht
    obtain ⟨X, hX⟩ := sum_split (dirPages st.mem pd)
      (fun k => pageRefs st.mem (word st.mem (pd + 4 * k))) (dirPages_succ st.mem pd) hk
    rw [hX, pageRefs_user hu]
    exact Multiset.mem_add.mpr (.inl hg)
  obtain ⟨h₂, hs₂⟩ := h₁.freeFrame
  have hpd := h₁.used_in pd (Multiset.mem_cons_self pd _)
  exact ⟨h₂, h.steady.trans ((hs₁.mono fun a ha => Multiset.mem_cons_of_mem ha).trans hs₂),
    (h.within.trans hw₁).trans (within_freeFrame (h₁.aligned hpd) hpd)⟩

/-- A directory that was copied as a whole is one more. -/
theorem Copying.spaces (h₀ : Spaces M live held st₀) (hsrc : src ∈ live)
    (h : Copying M (refsOf st₀.mem live held) src pd pteCount st₀ st) :
    Spaces M (pd ::ₘ live) held st := by
  obtain ⟨hstructs, hmapped⟩ : structs st.mem live = structs st₀.mem live ∧
      mapped st.mem live = mapped st₀.mem live :=
    refs_same fun a ha => h.steady a (mem_refs ha held)
  have hrefs : refsOf st.mem (pd ::ₘ live) held =
      copyRefs (refsOf st₀.mem live held) st.mem pd pteCount := by
    rw [refsOf_cons, copyRefs, refsOf, hstructs, hmapped, ← Multiset.singleton_add,
      ← Multiset.singleton_add, ← refsOf]
    abel
  refine ⟨by rw [hrefs]; exact h.exact, fun a ha => ?_⟩
  rw [structs_cons, hstructs] at ha
  rw [hrefs]
  rcases Multiset.mem_add.mp ha with ha | ha
  · exact h.alone a ha
  · have hin := mem_refs ha held
    have hno : a ∉ dirPages st₀.mem src pteCount :=
      fun hm => (h₀.not_mapped ha).1 (mem_pages hsrc hm)
    rw [count_copyRefs h hin, h₀.alone a ha, Multiset.count_eq_zero.mpr hno]

/-- The entries of a clone. -/
def cloneSlots (s : Nat → Nat → Nat → Nat) (src pd d i j : Nat) : Nat :=
  if d = pd then protect (s src i j) else s d i j

/-- The slots of the new directory. -/
theorem Copying.remapped (h₀ : Spaces M live held st₀) (hsrc : src ∈ live)
    (h : Copying M (refsOf st₀.mem live held) src pd pteCount st₀ st) :
    Remapped M live held (pd ::ₘ live) held st₀ st (cloneSlots (pteAt st₀.mem) src pd) := by
  have hfresh := h.apart (Multiset.mem_cons_self pd _)
  have hsame : ∀ a ∈ structs st₀.mem live, Same st₀.mem st.mem a :=
    fun a ha => h.steady a (mem_refs ha held)
  have hne : ∀ d ∈ live, d ≠ pd := fun d hd heq =>
    hfresh (heq ▸ mem_refs (mem_structs.mpr (.inl hd)) held)
  refine ⟨h.spaces h₀ hsrc, fun d hd i hi j hj => ?_, fun a ha _ => h.steady a ?_,
    fun hg d hd i hi => ?_, fun K hK d hd i hi => ?_, h.within⟩
  · unfold cloneSlots
    rcases Multiset.mem_cons.mp hd with rfl | hd
    · rw [if_pos rfl]
      have hc := h.entries i hi
      by_cases hu : present (word st₀.mem (src + 4 * i)) = true ∧
        user (word st₀.mem (src + 4 * i)) = true
      · rw [pteAt_user (hc.user_iff.mpr hu), pteAt_user hu]
        exact hc.table hu.1 hu.2 j hj
      · rw [pteAt_none fun hno => hu (hc.user_iff.mp hno), pteAt_none hu]
        rfl
    · rw [if_neg (hne d hd)]
      exact (pteAt_same hsame hd hi).2 j hj
  · rw [refsOf, add_assoc]
    exact Multiset.mem_add.mpr (.inr ha)
  · rcases Multiset.mem_cons.mp hd with rfl | hd
    · intro hp hu
      rcases (h.entries i hi).flags with ⟨hp', hu', hw⟩ | ⟨-, hzero⟩
      · rw [hw]
        exact hg src hsrc i hi (hp'.symm.trans hp) (hu'.symm.trans hu)
      · rw [hzero] at hp
        exact absurd hp (by decide)
    · rw [(pteAt_same hsame hd hi).1]
      exact hg d hd i hi
  · rcases Multiset.mem_cons.mp hd with rfl | hd
    · rw [(h.entries i hi).kernel]
      exact hK src hsrc i hi
    · rw [(pteAt_same hsame hd hi).1]
      exact hK d hd i hi

/-- **`clonePageDir`** adds a directory with the same pages, or fails and leaves no trace. -/
theorem Spaces.clonePageDir (h : Spaces M live held st₀) (hsrc : src ∈ live)
    (hroom : Room (refsOf st₀.mem live held) st₀.mem src)
    (hclone : st₀.clonePageDir src = (pd, st)) :
    (pd ≠ 0 ∧ pd ∉ refsOf st₀.mem live held ∧
      Remapped M live held (pd ::ₘ live) held st₀ st (cloneSlots (pteAt st₀.mem) src pd)) ∨
      pd = 0 ∧ Remapped M live held live held st₀ st (pteAt st₀.mem) := by
  unfold Phys.clonePageDir at hclone
  split at hclone
  · next st₁ halloc =>
      obtain ⟨rfl, rfl⟩ := Prod.mk.inj hclone
      obtain ⟨rfl, -⟩ := allocFrame_none halloc
      exact .inr ⟨rfl, .refl h⟩
  · next pd' st₁ halloc =>
      have hstart : Copying M (refsOf st₀.mem live held) src pd' 0 st₀ st₁ :=
        copying_start h.exact halloc
      rcases hstart.cloneEntries hsrc hroom le_rfl with ⟨st₂, heq, hc⟩ | ⟨i, hi, st₂, heq, hc, -⟩
      · rw [heq] at hclone
        obtain ⟨rfl, rfl⟩ := Prod.mk.inj hclone
        have hin := hc.exact.used_in pd' (mem_copyRefs (Multiset.mem_cons_self _ _) _)
        exact .inl ⟨hc.exact.ne_zero hin, hc.apart (Multiset.mem_cons_self _ _), hc.remapped h hsrc⟩
      · rw [heq] at hclone
        obtain ⟨rfl, rfl⟩ := Prod.mk.inj hclone
        have hin : ∀ g ∈ dirPages st₀.mem src i, g ∈ refsOf st₀.mem live held := by
          intro g hg
          refine Multiset.mem_add.mpr (.inl (Multiset.mem_add.mpr (.inr (mem_pages hsrc ?_))))
          unfold dirPages at hg ⊢
          exact dirFrames_mono hi.le hg
        obtain ⟨hexact, hsteady, hwithin⟩ := hc.rollback hi.le hin
        exact .inr ⟨rfl, .of_steady h hexact hsteady hwithin⟩

/-! ## write protection of the parent -/

/-- Sharing writes one table. -/
theorem shareEntries_written (t : Nat) (hn : n ≤ pteCount) :
    Written t st (shareEntries t n st) := by
  induction n with
  | zero => exact ⟨fun _ _ => rfl, rfl, rfl, rfl, rfl⟩
  | succ n ih =>
      have hw := ih (by omega)
      refine ⟨fun x hx => ?_, hw.free, hw.max, hw.refs, hw.panicked⟩
      rw [shareEntries]
      refine Eq.trans (setWord_of_ne _ ?_) (hw.mem x hx)
      unfold pageSize at hx
      unfold pteCount at hn
      omega

/-- The entries before and behind the loop. -/
theorem shareEntries_word (t k : Nat) :
    word (shareEntries t n st).mem (t + 4 * k) = if k < n then share (word st.mem (t + 4 * k))
      else word st.mem (t + 4 * k) := by
  induction n with
  | zero => rw [if_neg (by omega), shareEntries]
  | succ n ih =>
      rw [shareEntries]
      show word (setWord _ _ _) _ = _
      by_cases hkn : k = n
      · subst hkn
        unfold Phys.entry
        rw [word_setWord _ (share_lt (word_lt _ _)), if_pos (by omega), ih, if_neg (by omega)]
      · rw [word_setWord_of_ne hkn, ih]
        by_cases hlt : k < n
        · rw [if_pos hlt, if_pos (by omega)]
        · rw [if_neg hlt, if_neg (by omega)]

/-- What the write protection of the first `n` tables of `d` changes: their words. -/
structure Shared (live : Multiset Nat) (d n : Nat) (st st' : Phys) : Prop where
  dir : ∀ k < pteCount, word st'.mem (d + 4 * k) = word st.mem (d + 4 * k)
  tables : ∀ k < pteCount, ∀ t ∈ tabRefs (word st.mem (d + 4 * k)), ∀ j < pteCount,
    word st'.mem (t + 4 * j) = if k < n then share (word st.mem (t + 4 * j))
      else word st.mem (t + 4 * j)
  out : ∀ a, a % pageSize = 0 → a ∉ dirTabs st.mem d pteCount → Same st.mem st'.mem a

/-- **Write protection** changes no reference. -/
theorem Spaces.shareTables (h : Spaces M live held st) (hd : d ∈ live) (hn : n ≤ pteCount) :
    Spaces M live held (shareTables d n st) ∧ Shared live d n st (shareTables d n st) ∧
      Within (· ∈ M) st (shareTables d n st) := by
  induction n with
  | zero =>
      exact ⟨h,
      ⟨fun _ _ => rfl,
      fun _ _ _ _ _ _ => by rw [if_neg (by omega)]; rfl, fun _ _ _ => Same.refl _ _⟩, .refl _ st⟩
  | succ n ih =>
      obtain ⟨hS, hshared, hwithin⟩ := ih (by omega)
      rw [Phys.shareTables]
      generalize Phys.shareTables d n st = st₁ at hS hshared hwithin ⊢
      have hword : word st₁.mem (d + 4 * n) = word st.mem (d + 4 * n) := hshared.dir n (by omega)
      have hentry : st₁.entry d n = word st.mem (d + 4 * n) := hword
      rw [hentry]
      generalize he : word st.mem (d + 4 * n) = e at hword ⊢
      split
      · next hu =>
          have htab : addr e ∈ tabRefs (word st₁.mem (d + 4 * n)) := by
            rw [hword]
            exact mem_tabRefs.mpr ⟨hu, rfl⟩
          have htin : addr e ∈ structs st₁.mem live :=
            mem_structs.mpr (.inr ⟨d, hd, n, by omega, htab⟩)
          have htal := hS.aligned htin
          rw [hS.exact.check (hS.exact.used_in _ (mem_refs htin held))]
          have hw : Written (addr e) st₁ (Phys.shareEntries (addr e) pteCount st₁) :=
            shareEntries_written (addr e) (le_refl pteCount)
          have hwords : ∀ k < pteCount, word (shareEntries (addr e) pteCount st₁).mem
              (addr e + 4 * k) = share (word st₁.mem (addr e + 4 * k)) :=
            fun k hk => by rw [shareEntries_word, if_pos hk]
          generalize shareEntries (addr e) pteCount st₁ = st₂ at hw hwords ⊢
          have hout : ∀ a, a % pageSize = 0 → a ≠ addr e → Same st₁.mem st₂.mem a :=
            fun a hal hne => same_of_outside hal htal hne hw.mem
          have hdne : d ≠ addr e := fun heq => (hS.table hd (by omega) htab).1 (heq ▸ hd)
          have hdsame := hout d (hS.aligned (mem_structs.mpr (.inl hd))) hdne
          have hword₂ : word st₂.mem (d + 4 * n) = e := (hdsame.word (by omega)).trans hword
          refine ⟨hS.change hd (by omega) ⟨fun k hk _ => hdsame.word hk,
              fun a ha _ hna => hout a (hS.aligned ha) fun heq => hna (heq ▸ htab)⟩
            (hS.exact.congr hw.refs hw.free hw.max hw.panicked) ?_ fun a ha =>
              ?_, ⟨fun k hk => ?_, fun k hk t ht j hj => ?_, fun a hal hna => ?_⟩,
            hwithin.trans (hw.within htal (hS.exact.used_in _ (mem_refs htin held)))⟩
          · have hpages : pageRefs st₂.mem e = pageRefs st₁.mem e := by
              rw [pageRefs_user hu, pageRefs_user hu]
              unfold tableRefs
              refine congrArg _ (tableFrames_congr fun k hk => ?_)
              rw [hwords k hk]
              exact ⟨(share_same _).1, (share_same _).2.1⟩
            rw [hword, hword₂, hpages]
          · rcases ha with ha | ha
            · exact (hS.alone a ha).le
            · rw [hword₂, ← hword] at ha
              exact (hS.alone a (mem_structs.mpr (.inr ⟨d, hd, n, by omega, ha⟩))).le
          · exact (hdsame.word hk).trans (hshared.dir k hk)
          · by_cases hkn : k = n
            · subst hkn
              rw [he] at ht
              obtain ⟨-, rfl⟩ := mem_tabRefs.mp ht
              rw [hwords j hj, hshared.tables k hk _ (by rw [he]; exact ht) j hj, if_neg (by omega),
                if_pos (by omega)]
            · have htk : t ∈ tabRefs (word st₁.mem (d + 4 * k)) := by
                rw [hshared.dir k hk]
                exact ht
              obtain ⟨-, hothers⟩ := hS.table hd hk htk
              have hne : t ≠ addr e := fun heq =>
                hothers d hd n (by omega) (.inr (Ne.symm hkn)) (heq ▸ htab)
              have htal' := hS.aligned (mem_structs.mpr (.inr ⟨d, hd, k, hk, htk⟩))
              rw [(hout t htal' hne).word hj, hshared.tables k hk t ht j hj]
              by_cases hlt : k < n
              · rw [if_pos hlt, if_pos (by omega)]
              · rw [if_neg hlt, if_neg (by omega)]
          · refine (hshared.out a hal hna).trans
              (hout a hal fun heq => hna (mem_dirTabs.mpr ⟨n, by omega, ?_⟩))
            rw [he, heq]
            exact mem_tabRefs.mpr ⟨hu, rfl⟩
      · next hu =>
          refine ⟨hS, ⟨hshared.dir, fun k hk t ht j hj => ?_, hshared.out⟩, hwithin⟩
          have hkn : k ≠ n := fun heq => hu (mem_tabRefs.mp (he ▸ heq ▸ ht)).1
          rw [hshared.tables k hk t ht j hj]
          by_cases hlt : k < n
          · rw [if_pos hlt, if_pos (by omega)]
          · rw [if_neg hlt, if_neg (by omega)]

/-- The entries after the parent was protected. -/
def shareSlots (s : Nat → Nat → Nat → Nat) (d d' i j : Nat) : Nat :=
  if d' = d then share (s d i j) else s d' i j

/-- What the protection changes is in the tables of the parent. -/
theorem Shared.slots (h : Spaces M live held st) (hd : d ∈ live)
    (hs : Shared live d pteCount st st') (ha : a ∈ live) (hi : i < pteCount) :
    word st'.mem (a + 4 * i) = word st.mem (a + 4 * i) ∧ ∀ j < pteCount,
      pteAt st'.mem a i j = shareSlots (pteAt st.mem) d a i j := by
  have hnot : a ∉ dirTabs st.mem d pteCount := fun hm => by
    obtain ⟨k, hk, hm⟩ := mem_dirTabs.mp hm
    exact (h.table hd hk hm).1 ha
  have hword : word st'.mem (a + 4 * i) = word st.mem (a + 4 * i) :=
    (hs.out a (h.aligned (mem_structs.mpr (.inl ha))) hnot).word hi
  refine ⟨hword, fun j hj => ?_⟩
  unfold shareSlots
  by_cases hu : present (word st.mem (a + 4 * i)) = true ∧ user (word st.mem (a + 4 * i)) = true
  · have htab := mem_tabRefs.mpr ⟨hu, rfl⟩
    rw [pteAt_user (by rw [hword]; exact hu), hword]
    by_cases had : a = d
    · subst had
      rw [if_pos rfl, pteAt_user hu, hs.tables i hi _ htab j hj, if_pos hi]
    · have hout : addr (word st.mem (a + 4 * i)) ∉ dirTabs st.mem d pteCount := fun hm => by
        obtain ⟨k, hk, hm⟩ := mem_dirTabs.mp hm
        exact (h.table ha hi htab).2 d hd k hk (.inl (Ne.symm had)) hm
      rw [if_neg had, pteAt_user hu]
      exact (hs.out _ (addr_mod _) hout).word hj
  · rw [pteAt_none (by rw [hword]; exact hu)]
    split
    · next had =>
        rw [← had, pteAt_none hu]
        rfl
    · rw [pteAt_none hu]

/-- The entries of the parent and of the child after `fork`. -/
def forkSlots (s : Nat → Nat → Nat → Nat) (d pd : Nat) : Nat → Nat → Nat → Nat :=
  shareSlots (cloneSlots s d pd) d

/-- **`fork`** adds a directory with the pages of the parent, and protects both, or fails and
leaves no trace. -/
theorem Spaces.forkDir (h : Spaces M live held st) (hd : d ∈ live)
    (hroom : Room (refsOf st.mem live held) st.mem d)
    (hfork : st.forkDir d = (pd, st')) :
    (pd ≠ 0 ∧ pd ∉ refsOf st.mem live held ∧ Remapped M live held (pd ::ₘ live) held st st'
      (forkSlots (pteAt st.mem) d pd)) ∨
      pd = 0 ∧ Remapped M live held live held st st' (pteAt st.mem) := by
  unfold Phys.forkDir at hfork
  split at hfork
  · next st₁ hclone =>
      obtain ⟨rfl, rfl⟩ := Prod.mk.inj hfork
      exact (h.clonePageDir hd hroom hclone).imp (fun hno => absurd rfl hno.1) id
  · next child st₁ hne hclone =>
      obtain ⟨rfl, rfl⟩ := Prod.mk.inj hfork
      rcases h.clonePageDir hd hroom hclone with ⟨hpd, hfresh, h₁⟩ | ⟨hpd, -⟩
      · have hd₁ := Multiset.mem_cons_of_mem (b := child) hd
        obtain ⟨h₂, hshared, hwithin⟩ := h₁.spaces.shareTables hd₁ (le_refl pteCount)
        generalize Phys.shareTables d pteCount st₁ = st₂ at h₂ hshared hwithin ⊢
        refine .inl ⟨hpd, hfresh, h₂, fun d' hd' i hi j hj => ?_, fun a ha _ => ?_,
          fun hg d' hd' i hi => ?_, fun K hK d' hd' i hi => ?_,
          h₁.within.trans hwithin⟩
        · rw [(hshared.slots h₁.spaces hd₁ hd' hi).2 j hj]
          unfold forkSlots shareSlots
          rw [h₁.slots d hd₁ i hi j hj, h₁.slots d' hd' i hi j hj]
        · have hin : a ∈ mapped st₁.mem (child ::ₘ live) + held := by
            refine Multiset.mem_add.mpr ((Multiset.mem_add.mp ha).imp_left fun hm => ?_)
            obtain ⟨d', hd', k, hk, l, hl, hm⟩ := mem_mapped.mp hm
            have hne : d' ≠ child := fun heq =>
              hfresh (heq ▸ mem_refs (mem_structs.mpr (.inl hd')) held)
            have hd'' := Multiset.mem_cons_of_mem (b := child) hd'
            refine mem_mapped.mpr ⟨d', hd'', k, hk, l, hl, ?_⟩
            rw [h₁.slots d' hd'' k hk l hl, cloneSlots, if_neg hne]
            exact hm
          have hR : a ∈ refsOf st₁.mem (child ::ₘ live) held := by
            rw [refsOf, add_assoc]
            exact Multiset.mem_add.mpr (.inr hin)
          refine (h₁.kept a ha hR).trans
            (hshared.out a (h₁.spaces.exact.aligned (h₁.spaces.exact.used_in a hR)) fun hm => ?_)
          obtain ⟨k, hk, hm⟩ := mem_dirTabs.mp hm
          exact h₁.spaces.no_struct hin (mem_structs.mpr (.inr ⟨d, hd₁, k, hk, hm⟩))
        · rw [(hshared.slots h₁.spaces hd₁ hd' hi).1]
          exact h₁.gates hg d' hd' i hi
        · rw [(hshared.slots h₁.spaces hd₁ hd' hi).1]
          exact h₁.kernel K hK d' hd' i hi
      · exact absurd hpd hne

/-- Write protection takes no frame. -/
theorem shareTables_free (dir n : Nat) : (shareTables dir n st).free = st.free := by
  induction n with
  | zero => rfl
  | succ n ih =>
      rw [shareTables]
      split
      · rw [(shareEntries_written _ le_rfl).free, checkPhysAddr_free, ih]
      · exact ih

/-- `fork` takes one frame, and one for each user table. -/
theorem forkDir_length (hc : Cloneable d st)
    (h : (userEntries st.mem d pteCount).length < st.free.length) :
    (st.forkDir d).1 ≠ 0 ∧ (st.forkDir d).2.free.length +
      ((userEntries st.mem d pteCount).length + 1) = st.free.length := by
  have hne := clonePageDir_succeeds hc h
  have hlen := clonePageDir_length hc hne
  unfold Phys.forkDir
  split
  · next st₁ hclone =>
      rw [hclone] at hne
      exact absurd rfl hne
  · next child st₁ _ hclone =>
      rw [hclone] at hne hlen
      refine ⟨hne, ?_⟩
      rw [shareTables_free]
      exact hlen
end Doors.Memory
