import Doors.Elf.Calls

/-!
# Doors.Elf.Rollback

The kernel's page tables while a program is loaded, and what a failed load leaves
behind.

`clearPageTable` and `mapPage` do not look at `PAGE_USER`, and `rollbackMapped` unmaps
its pages from the kernel directory, whatever directory they were mapped in.

* `Step.InUserTable` — a call that clears or maps no page of a supervisor table;
* `load_spares_kernel_iff` — no table of the kernel is touched at any point of a load,
  exactly when no page of one is cleared or mapped;
* `load_rolls_back_iff` — a failed load that leaves the kernel's tables alone is undone
  exactly when there is nothing to undo, or when the kernel directory is the one that
  was loaded into.
-/

namespace Doors.Elf

open Run Memory

/-! ## two directories -/

/-- Entry `k` is a supervisor table. -/
def Supervisor (dir : Nat) (st : Phys) (k : Nat) : Prop :=
  present (st.entry dir k) = true ∧ ¬ user (st.entry dir k) = true

/-- A frame in use that is in the user half of neither directory. -/
def Foreign (dir kernelDir : Nat) (T K : Tables) (st : Phys) (b : Nat) : Prop :=
  b ∉ st.free ∧ ¬ Owns dir T b ∧ ¬ Owns kernelDir K b

/-- A directory that shares the kernel's supervisor tables: these are in use and in
neither user half, and the two directories are not in each other. -/
structure Sharing (dir kernelDir : Nat) (T K : Tables) (st : Phys) : Prop where
  inv : Inv dir T st
  shows : Shows dir T st.mem
  kernelInv : Inv kernelDir K st
  kernelShows : Shows kernelDir K st.mem
  pool : ∀ b ∈ st.free, b ≠ 0 ∧ st.Counted b
  shared : ∀ k < pteCount, Supervisor kernelDir st k ∨ Supervisor dir st k →
    st.entry dir k = st.entry kernelDir k
  foreign : ∀ k < pteCount, Supervisor kernelDir st k →
    Foreign dir kernelDir T K st (addr (st.entry kernelDir k))
  apart : dir ≠ kernelDir → ¬ Owns dir T kernelDir ∧ (∀ k t, K.tab k = some t → ¬ Owns dir T t) ∧
    ¬ Owns kernelDir K dir

variable {dir kernelDir : Nat} {F : File} {ms : List MappedPage} {T T₁ T' K : Tables}
  {U : Nat → Prop} {st st₀ st₁ st' : Phys}

/-- The kernel directory and its user tables are not for the loader. -/
theorem Sharing.kernel_same (h : Sharing dir kernelDir T K st) (hne : dir ≠ kernelDir)
    (hw : Within (Loadable dir T st) st st₁) :
    Same st.mem st₁.mem kernelDir ∧ Shows kernelDir K st₁.mem := by
  obtain ⟨hkd, hkt, -⟩ := h.apart hne
  have hdir : Same st.mem st₁.mem kernelDir := by
    refine hw.same kernelDir h.kernelInv.dir_aligned ?_
    rintro (hin | hin)
    · exact h.kernelInv.dir_used hin
    · exact hkd hin
  refine ⟨hdir, h.kernelShows.frame hdir fun k t ht => hw.same t (h.kernelInv.tab_used k t ht).1 ?_⟩
  rintro (hin | hin)
  · exact (h.kernelInv.tab_used k t ht).2.1 hin
  · exact hkt k t ht hin

/-- A page in a user table of the directory is in no supervisor table of the kernel. -/
theorem Sharing.user_page {v : Nat} (h : Sharing dir kernelDir T K st)
    (hv : InEntries (UserEntry dir st) v)
    (hp : present (word st.mem (kernelDir + 4 * pdeIdx v)) = true) : K.tab (pdeIdx v) ≠ none := by
  obtain ⟨-, hlt, hu⟩ := hv
  have hi := pdeIdx_lt hlt
  have huser : user (word st.mem (kernelDir + 4 * pdeIdx v)) = true := by
    by_contra hns
    have heq := h.shared _ hi (.inl ⟨hp, hns⟩)
    unfold UserEntry at hu
    rw [heq] at hu
    exact hns (hu hp)
  rw [(h.kernelShows.tab _ hi _).mpr ⟨hp, huser, rfl⟩]
  simp

/-! ## the kernel's tables -/

/-- The supervisor tables of the kernel are left alone: no entry of them is written,
none is freed, the frames that only they map are counted as before, and the entries
that point to them do not change in either directory. -/
structure SparesKernel (dir kernelDir : Nat) (T K : Tables) (st st' : Phys) : Prop where
  table : ∀ k < pteCount, Supervisor kernelDir st k → ∀ j < pteCount,
    st'.entry (addr (st.entry kernelDir k)) j = st.entry (addr (st.entry kernelDir k)) j
  kept : ∀ k < pteCount, Supervisor kernelDir st k → addr (st.entry kernelDir k) ∉ st'.free
  refs : ∀ k < pteCount, Supervisor kernelDir st k → ∀ j < pteCount, ∀ g,
    present (st.entry (addr (st.entry kernelDir k)) j) = true →
      addr (st.entry (addr (st.entry kernelDir k)) j) = g →
    Foreign dir kernelDir T K st g → st'.refs (g / Memory.pageSize) =
      st.refs (g / Memory.pageSize) ∧ g ∉ st'.free
  entries : ∀ k < pteCount, Supervisor kernelDir st k →
    st'.entry dir k = st.entry dir k ∧ st'.entry kernelDir k = st.entry kernelDir k

/-- What leaves the foreign frames and the supervisor entries alone spares the kernel. -/
theorem Sharing.spares (h : Sharing dir kernelDir T K st)
    (hw : Within (fun b => Loadable dir T st b ∨ Owns kernelDir K b) st st')
    (hentries : ∀ k < pteCount, Supervisor kernelDir st k →
    word st'.mem (dir + 4 * k) = word st.mem (dir + 4 * k) ∧
      word st'.mem (kernelDir + 4 * k) = word st.mem (kernelDir + 4 * k)) : SparesKernel dir
        kernelDir T K st st' := by
  have hout : ∀ b, Foreign dir kernelDir T K st b →
      ¬ (Loadable dir T st b ∨ Owns kernelDir K b) := by
    rintro b ⟨hfree, hd, hk⟩ ((hin | hin) | hin)
    · exact hfree hin
    · exact hd hin
    · exact hk hin
  have hnot : ∀ b, Foreign dir kernelDir T K st b → b ∉ st'.free := by
    intro b hb hin
    rcases hw.free b hin with hin | ⟨hin, -⟩
    · exact hb.1 hin
    · exact hout b hb hin
  refine ⟨fun k hk hs j hj => ?_, fun k hk hs => hnot _ (h.foreign k hk hs),
    fun k hk hs j hj g _ hg hf => ⟨?_, hnot g hf⟩, hentries⟩
  · exact (hw.same _ (addr_mod _) (hout _ (h.foreign k hk hs))).word hj
  · exact hw.refs g (hg ▸ addr_mod _) (hout g hf)

/-- The supervisor entries of the directory are those of the kernel. -/
theorem Sharing.supervisor {k : Nat} (h : Sharing dir kernelDir T K st) (hk : k < pteCount) :
    Supervisor dir st k ↔ Supervisor kernelDir st k := by
  unfold Supervisor
  constructor
  · intro hs
    rw [← h.shared k hk (.inr hs)]
    exact hs
  · intro hs
    rw [h.shared k hk (.inl hs)]
    exact hs

/-- An entry is a supervisor table or the loader may use it. -/
theorem supervisor_iff {k : Nat} : Supervisor dir st k ↔ ¬ UserEntry dir st k := by
  unfold Supervisor UserEntry
  rw [Classical.not_imp]

/-- What stays in reach of the loader, and keeps the supervisor entries, spares the
kernel. -/
theorem Sharing.spares_loadable (h : Sharing dir kernelDir T K st)
    (hw : Within (Loadable dir T st) st st')
    (hdir : ∀ k < pteCount, Supervisor kernelDir st k →
    word st'.mem (dir + 4 * k) = word st.mem (dir + 4 * k)) :
    SparesKernel dir kernelDir T K st st' := by
  refine h.spares (hw.mono fun _ => .inl) fun k hk hs => ⟨hdir k hk hs, ?_⟩
  by_cases hdk : dir = kernelDir
  · exact hdk ▸ hdir k hk hs
  · exact (h.kernel_same hdk hw).1.word hk

section

variable {T₀ : Tables} {res : Option LoadResult} {calls : List (Step Phys)}
  {s : Phys × List (Step Phys)} {v a k : Nat}
  {c : Call} {x : Step Phys}

/-- Loading so far has spared the kernel. -/
theorem Sharing.spares_loading (h : Sharing dir kernelDir T K st)
    (hL : Loading dir (UserEntry dir st) (Loadable dir T st) T₀ st ms T' st') :
    SparesKernel dir kernelDir T K st st' := by
  refine h.spares_loadable hL.within fun k hk hs => ?_
  obtain ⟨hp, hu⟩ := (h.supervisor hk).mpr hs
  exact hL.entries k hk hp hu

/-- An allocation does not touch the directory. -/
theorem Loading.alloc_same (hL : Loading dir (UserEntry dir st) U T₀ st ms T st')
    (hal : st'.allocFrame = (some a, st₁)) :
    Same st'.mem st₁.mem dir := by
  obtain ⟨-, hh, -, htouched, -⟩ := hL.ok.inv.alloc hal
  exact htouched.same hL.ok.inv.dir_aligned hh.aligned hh.ne_dir.symm

/-- An allocation spares the kernel. -/
theorem Sharing.spares_alloc (h : Sharing dir kernelDir T K st)
    (hL : Loading dir (UserEntry dir st) (Loadable dir T st) T₀ st ms T' st')
    (hal : st'.allocFrame = (some a, st₁)) :
    SparesKernel dir kernelDir T K st st₁ := by
  obtain ⟨-, hh, hfree, -⟩ := hL.ok.inv.alloc hal
  have hw : Within (Loadable dir T st) st st₁ :=
    hL.within.trans (within_alloc hal hh.aligned (hL.free a hfree).1)
  refine h.spares_loadable hw fun k hk hs => ?_
  obtain ⟨hp, hu⟩ := (h.supervisor hk).mpr hs
  rw [(hL.alloc_same hal).word hk, hL.entries k hk hp hu]

/-- An entry is one of the user throughout the loop, or never. -/
theorem Loading.userEntry_iff (hL : Loading dir (UserEntry dir st) U T₀ st ms T' st')
    (hk : k < pteCount) :
    UserEntry dir st' k ↔ UserEntry dir st k := by
  constructor
  · intro hu
    by_contra hns
    obtain ⟨hp, hnu⟩ := supervisor_iff.mpr hns
    have heq : st'.entry dir k = st.entry dir k := hL.entries k hk hp hnu
    unfold UserEntry at hu
    rw [heq] at hu
    exact hnu (hu hp)
  · intro hu hp
    obtain ⟨t, ht⟩ := Option.ne_none_iff_exists'.mp (hL.ok.entries k hk hu hp)
    exact ((hL.ok.shows.tab k hk t).mp ht).2.1

/-- An allocation keeps the entries that the loader may use. -/
theorem Loading.userEntry_alloc (hL : Loading dir (UserEntry dir st) U T₀ st ms T st')
    (hal : st'.allocFrame = (some a, st₁))
    (hk : k < pteCount) : UserEntry dir st₁ k ↔ UserEntry dir st k := by
  have hword : st₁.entry dir k = st'.entry dir k := (hL.alloc_same hal).word hk
  rw [← hL.userEntry_iff hk]
  unfold UserEntry
  rw [hword]

/-! ## calls on a supervisor table -/

/-- `mapPage` leaves its table to the user. -/
theorem mapPage_user (h : st.mapPage dir v a userFlags = (true, st')) :
    user (st'.entry dir (pdeIdx v)) = true := by
  unfold Phys.mapPage at h
  generalize (if present (st.entry dir (pdeIdx v)) then (true, st)
    else st.ensurePageTable dir (pdeIdx v) userFlags) = found at h
  dsimp only at h
  split at h
  · generalize (Phys.setEntry _ _ _ _) = st₁ at h
    obtain rfl := (Prod.mk.inj h).2
    split
    · next hnot =>
        have hlt : st₁.entry dir (pdeIdx v) < 2 ^ 32 := word_lt st₁.mem _
        have hoff : ¬ user (st₁.entry dir (pdeIdx v)) = true := hnot.2
        rw [user_iff] at hoff
        have hroom : st₁.entry dir (pdeIdx v) + pageUser < 2 ^ 32 := by
          unfold pageUser
          omega
        have hset : (st₁.setEntry dir (pdeIdx v) (st₁.entry dir (pdeIdx v) + pageUser)).entry dir
          (pdeIdx v) =
            st₁.entry dir (pdeIdx v) + pageUser := word_setWord st₁.mem hroom
        rw [hset, user_iff]
        unfold pageUser
        omega
    · next hyes =>
        by_contra hno
        exact hyes ⟨by decide, hno⟩
  · simp at h

/-- `clearPageTable` leaves a new table. -/
theorem clearPageTable_moves (hal : ∀ b ∈ st.free, b % Memory.pageSize = 0 ∧ b < 2 ^ 32)
    (hd : dir % Memory.pageSize = 0)
    (hv : pdeIdx v < pteCount) (hp : present (st.entry dir (pdeIdx v)) = true)
    (hne : addr (st.entry dir (pdeIdx v)) ≠ dir)
    (hfree : st.free ≠ []) : addr ((st.clearPageTable dir v).entry dir (pdeIdx v)) ∈ st.free := by
  unfold Phys.clearPageTable
  rw [if_pos hp]
  dsimp only
  split
  · next st₁ halloc =>
      have hnil := (allocFrame_none halloc).2
      rw [checkPhysAddr_free] at hnil
      exact absurd hnil hfree
  · next f st₁ halloc =>
      have hf : f ∈ st.free := by
        have hcons := (allocFrame_some halloc).1
        rw [checkPhysAddr_free] at hcons
        exact hcons ▸ List.mem_cons_self
      obtain ⟨hfal, hflt⟩ := hal f hf
      generalize Phys.dropEntries (addr (st.entry dir (pdeIdx v))) pteCount st₁ = st₂
      have hflags : st₂.entry dir (pdeIdx v) % 8 < Memory.pageSize := by
        unfold Memory.pageSize
        omega
      have hset : (st₂.setEntry dir (pdeIdx v) (mkEntry f (st₂.entry dir (pdeIdx v) % 8))).entry dir
        (pdeIdx v) =
          mkEntry f (st₂.entry dir (pdeIdx v) % 8) := word_setWord st₂.mem (mkEntry_lt hflt hflags)
      generalize st₂.setEntry dir (pdeIdx v) (mkEntry f (st₂.entry dir (pdeIdx v) % 8)) =
        st₃ at hset ⊢
      have hwithin : Within (· = addr (st.entry dir (pdeIdx v))) st₃
          (st₃.freeFrame (addr (st.entry dir (pdeIdx v)))) :=
        within_freeFrame (addr_mod (st.entry dir (pdeIdx v))) rfl
      have hsame := hwithin.same dir hd hne.symm
      rw [Phys.entry, hsame.word hv, ← Phys.entry, hset, addr_mkEntry hflags, addr_of_aligned hfal]
      exact hf

/-! ## every call of a load -/

/-- A page that is cleared, with a frame for the new table, or mapped is in a table of the
user or in none. -/
def Step.InUserTable (dir : Nat) (x : Step Phys) : Prop :=
  match x.call with
  | .clearPageTable v => x.before.free = [] ∨ UserEntry dir x.before (pdeIdx v)
  | .mapPage v _ => UserEntry dir x.before (pdeIdx v)
  | _ => True

instance (dir : Nat) (st : Phys) (i : Nat) : Decidable (UserEntry dir st i) :=
  inferInstanceAs (Decidable (_ → _))

instance (dir : Nat) (x : Step Phys) : Decidable (x.InUserTable dir) :=
  match x with
  | ⟨st, .clearPageTable v, _⟩ => inferInstanceAs
      (Decidable (st.free = [] ∨ UserEntry dir st (pdeIdx v)))
  | ⟨st, .mapPage v _, _⟩ => inferInstanceAs (Decidable (UserEntry dir st (pdeIdx v)))
  | ⟨_, .allocFrame, _⟩ | ⟨_, .freeFrame _, _⟩ | ⟨_, .unmapPage _, _⟩ | ⟨_, .store _ _, _⟩ =>
      isTrue trivial

/-- So far every call has been on the user's tables. -/
structure Good (dir kernelDir : Nat) (T K T₀ : Tables) (st : Phys) (ms : List MappedPage)
    (s : Phys × List (Step Phys)) :
    Prop where
  loading : ∃ T', Loading dir (UserEntry dir st) (Loadable dir T st) T₀ st ms T' s.1
  steps : ∀ x ∈ s.2, SparesKernel dir kernelDir T K st x.after ∧ x.InUserTable dir

/-- A call has been on a supervisor table: it did harm, or all before it did none and it was
the end of the kernel. -/
structure Lost (dir kernelDir : Nat) (T K : Tables) (st : Phys)
    (s : Phys × List (Step Phys)) : Prop where
  astray : ∃ x ∈ s.2, ¬ x.InUserTable dir
  cases : (∃ x ∈ s.2, ¬ x.after.panicked = true ∧ ¬ SparesKernel dir kernelDir T K st x.after ∧
    ¬ x.InUserTable dir) ∨
    s.1.panicked = true ∧
      ∀ x ∈ s.2, x.after.panicked = true ∨ SparesKernel dir kernelDir T K st x.after ∧
        x.InUserTable dir

/-- What was lost stays lost. -/
theorem Lost.noted (h : Lost dir kernelDir T K st s) (c : Call)
    (hp : s.1.panicked = true → st'.panicked = true) :
    Lost dir kernelDir T K st (note s c st') := by
  obtain ⟨⟨x, hx, hout⟩, hcases⟩ := h
  refine ⟨⟨x, List.mem_append_left _ hx, hout⟩, ?_⟩
  rcases hcases with ⟨x, hx, hbad⟩ | ⟨hdead, hall⟩
  · exact .inl ⟨x, List.mem_append_left _ hx, hbad⟩
  · refine .inr ⟨hp hdead, List.forall_mem_append.mpr ⟨hall, fun y hy => ?_⟩⟩
    rw [List.mem_singleton.mp hy]
    exact .inl (hp hdead)

/-- The call that goes astray. -/
theorem Lost.of_step
    (hsteps : ∀ x ∈ s.2, SparesKernel dir kernelDir T K st x.after ∧ x.InUserTable dir)
    (hout : ¬ (⟨s.1, c, st'⟩ : Step Phys).InUserTable dir)
    (hbad : ¬ SparesKernel dir kernelDir T K st st') :
    Lost dir kernelDir T K st (note s c st') := by
  have hx : (⟨s.1, c, st'⟩ : Step Phys) ∈ (note s c st').2 :=
    List.mem_append_right _ (List.mem_singleton_self _)
  refine ⟨⟨_, hx, hout⟩, ?_⟩
  by_cases hp : st'.panicked = true
  · refine .inr ⟨hp, List.forall_mem_append.mpr ⟨fun y hy => .inr (hsteps y hy), fun y hy => ?_⟩⟩
    rw [List.mem_singleton.mp hy]
    exact .inl hp
  · exact .inl ⟨_, hx, hp, hbad, hout⟩

/-- One more call. -/
theorem steps_note
    (hsteps : ∀ x ∈ s.2, SparesKernel dir kernelDir T K st x.after ∧ x.InUserTable dir)
    (hspares : SparesKernel dir kernelDir T K st st')
    (hin : (⟨s.1, c, st'⟩ : Step Phys).InUserTable dir) :
    ∀ x ∈ (note s c st').2, SparesKernel dir kernelDir T K st x.after ∧ x.InUserTable dir := by
  refine List.forall_mem_append.mpr ⟨hsteps, fun y hy => ?_⟩
  rw [List.mem_singleton.mp hy]
  exact ⟨hspares, hin⟩

/-- As long as all is good the kernel is spared. -/
theorem Good.spares (h : Sharing dir kernelDir T K st) (hg : Good dir kernelDir T K T₀ st ms s) :
    SparesKernel dir kernelDir T K st s.1 := by
  obtain ⟨T', hL⟩ := hg.loading
  exact h.spares_loading hL

/-- A table that the kernel shares is not spared when the entry of it changes. -/
theorem Sharing.not_spares (h : Sharing dir kernelDir T K st) (hk : k < pteCount)
    (hs : Supervisor dir st k)
    (hne : st'.entry dir k ≠ st.entry dir k) : ¬ SparesKernel dir kernelDir T K st st' :=
  fun hspares => hne (hspares.entries k hk ((h.supervisor hk).mp hs)).1

/-- **What every call keeps**: the load goes well, or is lost. -/
theorem keeps_watch (h : Sharing dir kernelDir T K st)
    (hT₀ : ∀ q g, T₀.map q = some g → Loadable dir T st g) :
    Keeps (pagesOf dir kernelDir).logged (fun v => v % Memory.pageSize = 0 ∧ v < 2 ^ 32) fun ms s =>
      Good dir kernelDir T K T₀ st ms s ∨ Lost dir kernelDir T K st s where
  refuse ms s s₁ hJ halloc := by
    obtain ⟨st₁, hal, rfl⟩ := logged_allocFrame _ halloc
    rcases hJ with hg | hlost
    · obtain ⟨rfl, -⟩ := allocFrame_none hal
      exact .inl ⟨hg.loading, steps_note hg.steps (hg.spares h) trivial⟩
    · exact .inr (hlost.noted _ fun hp => panicked_alloc hp hal)
  map ms s s₁ s₂ v phys hJ hv hnot halloc hmap := by
    obtain ⟨st₁, hal, rfl⟩ := logged_allocFrame _ halloc
    obtain ⟨st₂, hpage, rfl⟩ := logged_mapPage _ hmap
    have hmono : st₁.panicked = true → st₂.panicked = true := fun hp => by
      have hpan := panicked_mapPage hp dir v phys userFlags
      have heq : st₁.mapPage dir v phys userFlags = (true, st₂) := hpage
      rw [heq] at hpan
      exact hpan
    rcases hJ with hg | hlost
    · obtain ⟨T', hL⟩ := hg.loading
      have halloced := steps_note (c := .allocFrame) hg.steps (h.spares_alloc hL hal) trivial
      have hi := pdeIdx_lt hv.2
      by_cases hu : UserEntry dir st (pdeIdx v)
      · obtain ⟨T'', hL₂⟩ := hL.map (.inr (.inl rfl)) hT₀ ⟨hv.1, hv.2, hu⟩ hnot hal hpage
        refine .inl ⟨⟨T'', hL₂⟩, steps_note halloced (h.spares_loading hL₂) ?_⟩
        exact (hL.userEntry_alloc hal hi).mpr hu
      · have hout : ¬ UserEntry dir st₁ (pdeIdx v) :=
          fun hin => hu ((hL.userEntry_alloc hal hi).mp hin)
        refine .inr
          (Lost.of_step halloced hout (h.not_spares hi (supervisor_iff.mpr hu) fun heq => ?_))
        have huser := mapPage_user hpage
        rw [heq] at huser
        exact (supervisor_iff.mpr hu).2 huser
    · exact .inr ((hlost.noted _ fun hp => panicked_alloc hp hal).noted _ hmono)
  fail ms s s₁ s₂ v phys hJ hv halloc hmap := by
    obtain ⟨st₁, hal, rfl⟩ := logged_allocFrame _ halloc
    obtain ⟨st₂, hpage, rfl⟩ := logged_mapPage _ hmap
    obtain ⟨rfl, -, habsent⟩ := mapPage_false hpage
    rcases hJ with hg | hlost
    · obtain ⟨T', hL⟩ := hg.loading
      have hL₂ := hL.fail hal hpage
      have halloced := steps_note (c := .allocFrame) hg.steps (h.spares_alloc hL hal) trivial
      have hmapped := steps_note (c := .mapPage v phys) halloced (h.spares_alloc hL hal) fun hp =>
        absurd hp habsent
      exact .inl ⟨⟨T', hL₂⟩, steps_note hmapped (h.spares_loading hL₂) trivial⟩
    · exact .inr (((hlost.noted _ fun hp => panicked_alloc hp hal).noted _ id).noted _ fun hp =>
        panicked_free hp phys)
  store ms s m off bs hJ hm hlen := by
    rcases hJ with hg | hlost
    · obtain ⟨T', hL⟩ := hg.loading
      have hL₂ := hL.store hm hlen
      exact .inl ⟨⟨T', hL₂⟩, steps_note hg.steps (h.spares_loading hL₂) trivial⟩
    · exact .inr (hlost.noted _ id)

/-- A panic of the check is the only thing that it changes. -/
theorem Loading.check (hL : Loading dir (UserEntry dir st) U T₀ st ms T st') (a : Nat) :
    Loading dir (UserEntry dir st) U T₀ st ms T (st'.checkPhysAddr a) := by
  unfold Phys.checkPhysAddr
  split
  · exact ⟨⟨hL.ok.inv.congr rfl rfl rfl, hL.ok.shows, hL.ok.entries, hL.ok.aligned, hL.ok.slot,
        hL.ok.only⟩, hL.free, hL.tab,
      hL.phys, hL.rest, hL.within.trans ⟨fun _ _ _ _ _ _ => rfl, fun _ _ _ => rfl,
        fun _ hb => .inl hb, rfl⟩, hL.entries⟩
  · exact hL

/-- Without a free frame a table of the kernel is looked at, and not cleared. -/
theorem clearPageTable_refused {v : Nat} (hs : present (st.entry dir (pdeIdx v)) = true)
    (hfree : st.free = []) :
    st.clearPageTable dir v = st.checkPhysAddr (addr (st.entry dir (pdeIdx v))) := by
  unfold Phys.clearPageTable
  rw [if_pos hs]
  dsimp only
  split
  · next st₁ hal => exact (allocFrame_none hal).1
  · next f st₁ hal =>
      have hcons := (allocFrame_some hal).1
      rw [checkPhysAddr_free, hfree] at hcons
      contradiction

/-- The table of the lowest page is cleared, or it is lost. -/
theorem start_watch {low : Option Nat} (h : Sharing dir kernelDir T K st)
    (hlow : computeElfRange F F.headers none = .ok low) :
    ∃ T₀, (∀ q g, T₀.map q = some g → Loadable dir T st g) ∧
      (Good dir kernelDir T K T₀ st [] (start (pagesOf dir kernelDir).logged low (st, [])) ∨
        Lost dir kernelDir T K st (start (pagesOf dir kernelDir).logged low (st, []))) := by
  obtain ⟨T₁, hstay, hsub, -⟩ := loading_start kernelDir h.inv h.shows h.pool
    (by simp : ∀ l, (none : Option Nat) = some l → InEntries (UserEntry dir st) (alignDown l))
  have hin : ∀ (T₀ : Tables), (∀ q g, T₀.map q = some g → T.map q = some g) →
      ∀ q g, T₀.map q = some g → Loadable dir T st g :=
    fun _ hsub q g hq => .inr (.inr (.inr ⟨q, hsub q g hq⟩))
  have hkept : (∀ l, low = some l → l = 0xFFFFFFFF) →
      start (pagesOf dir kernelDir).logged low (st, []) = (st, []) := by
    intro hmax
    cases low with
    | none => rfl
    | some l => exact if_neg (not_not.mpr (hmax l rfl))
  by_cases hmax : ∀ l, low = some l → l = 0xFFFFFFFF
  · rw [hkept hmax]
    exact ⟨T₁, hin T₁ hsub, .inl ⟨⟨T₁, hstay⟩, by simp⟩⟩
  · simp only [not_forall] at hmax
    obtain ⟨l, rfl, hne⟩ := hmax
    have hstart : start (pagesOf dir kernelDir).logged (some l) (st, []) =
        note (st, []) (.clearPageTable (alignDown l)) (st.clearPageTable dir (alignDown l)) :=
          if_pos hne
    rw [hstart]
    have hi : pdeIdx (alignDown l) < pteCount := pdeIdx_lt (computeElfRange_lt hlow)
    have hnone : ∀ x ∈ ([] : List (Step Phys)), SparesKernel dir kernelDir T K st x.after ∧
      x.InUserTable dir := by simp
    by_cases hu : UserEntry dir st (pdeIdx (alignDown l))
    · have hclear : start (pagesOf dir kernelDir) (some l) st =
        st.clearPageTable dir (alignDown l) := if_pos hne
      have hentry : ∀ l', some l = some l' → InEntries (UserEntry dir st) (alignDown l') := by
        rintro l' ⟨⟩
        exact ⟨alignDown_page l, computeElfRange_lt hlow, hu⟩
      obtain ⟨T₂, hL, hsub₂, -⟩ := loading_start kernelDir h.inv h.shows h.pool hentry
      rw [hclear] at hL
      exact ⟨T₂, hin T₂ hsub₂,
        .inl ⟨⟨T₂, hL⟩, steps_note (s := (st, [])) hnone (h.spares_loading hL) (.inr hu)⟩⟩
    · have hs := supervisor_iff.mpr hu
      refine ⟨T₁, hin T₁ hsub, ?_⟩
      by_cases hfree : st.free = []
      · rw [clearPageTable_refused hs.1 hfree]
        have hL := hstay.check (addr (st.entry dir (pdeIdx (alignDown l))))
        exact .inl ⟨⟨T₁, hL⟩, steps_note (s := (st, [])) hnone (h.spares_loading hL) (.inl hfree)⟩
      · have hforeign := h.foreign _ hi ((h.supervisor hi).mp hs)
        rw [← h.shared _ hi (.inr hs)] at hforeign
        have hmoved := clearPageTable_moves h.inv.aligned h.inv.dir_aligned hi hs.1
          (fun heq => hforeign.2.1 (.inl heq)) hfree
        refine .inr (Lost.of_step (s := (st, [])) hnone ?_ (h.not_spares hi hs fun heq => ?_))
        · rintro (hnil | hin)
          · exact hfree hnil
          · exact hu hin
        · rw [heq] at hmoved
          exact hforeign.1 hmoved

/-- The steps of the rollback, as long as `Q` goes from each to the next. -/
theorem rollback_steps {Q : Phys → Prop}
    (hstep : ∀ st₁, ∀ m ∈ ms, Q st₁ → Q (st₁.unmapPage kernelDir m.vaddr))
    (hspares : ∀ st₁, Q st₁ → SparesKernel dir kernelDir T K st st₁) (hQ : Q s.1)
    (hsteps : ∀ x ∈ s.2, SparesKernel dir kernelDir T K st x.after ∧ x.InUserTable dir) :
    ∀ x ∈ (rollbackMapped (pagesOf dir kernelDir).logged ms s).2,
      SparesKernel dir kernelDir T K st x.after ∧ x.InUserTable dir := by
  induction ms generalizing s with
  | nil => exact hsteps
  | cons m ms ih =>
      have hQ' := hstep s.1 m List.mem_cons_self hQ
      exact ih (fun st₁ m' hm' => hstep st₁ m' (List.mem_cons_of_mem _ hm')) hQ'
        (steps_note (c := .unmapPage m.vaddr) hsteps (hspares _ hQ') trivial)

/-- The rollback does not bring back what was lost. -/
theorem Lost.rollback (h : Lost dir kernelDir T K st s) (ms : List MappedPage) :
    Lost dir kernelDir T K st (rollbackMapped (pagesOf dir kernelDir).logged ms s) := by
  induction ms generalizing s with
  | nil => exact h
  | cons m ms ih =>
      exact ih (h.noted (.unmapPage m.vaddr) fun hp => panicked_unmapPage hp kernelDir m.vaddr)

/-- The pages of the loop are pages of the user. -/
theorem Loading.pages_in (hL : Loading dir (UserEntry dir st) U T₀ st ms T st')
    (hm : ∀ m ∈ ms, m.vaddr < 2 ^ 32) :
    ∀ m ∈ ms, InEntries (UserEntry dir st) m.vaddr := by
  intro m hmem
  refine ⟨hL.ok.aligned m hmem, hm m hmem, (hL.userEntry_iff (pdeIdx_lt (hm m hmem))).mp
    fun _ => ?_⟩
  have hslot := hL.ok.slot m hmem
  cases ht : T.tab (pdeIdx m.vaddr) with
  | none =>
      rw [slotOf, hL.ok.shows.none _ _ ht] at hslot
      contradiction
  | some t => exact ((hL.ok.shows.tab _ (pdeIdx_lt (hm m hmem)) t).mp ht).2.1

/-- The loop goes well, or is lost. -/
theorem attempt_watch {done : Bool} (h : Sharing dir kernelDir T K st)
    (hatt : attempt (pagesOf dir kernelDir).logged F (st, []) = .ok (done, ms, s)) :
    (∀ m ∈ ms, m.vaddr < 2 ^ 32) ∧ ∃ T₀, (∀ q g, T₀.map q = some g → Loadable dir T st g) ∧
      (Good dir kernelDir T K T₀ st ms s ∨ Lost dir kernelDir T K st s) := by
  obtain ⟨low, hlow, hloop⟩ := bind_eq_ok.mp hatt
  obtain ⟨T₀, hT₀, hstart⟩ := start_watch h hlow
  have hpages : ∀ o ∈ F.loaded F.headers, ∀ v ∈ F.pages o, v % Memory.pageSize = 0 ∧ v < 2 ^ 32 :=
    fun o _ v hv => segmentPages_lt hv
  exact ⟨fun m hm => (loadSegments_pages hpages hloop m hm).2, T₀, hT₀,
    loadSegments_keeps (keeps_watch h hT₀) hstart hpages hloop⟩

/-- The rollback keeps clear of the supervisor tables, in whichever directory it goes on. -/
theorem Good.rollback (h : Sharing dir kernelDir T K st)
    (hT₀ : ∀ q g, T₀.map q = some g → Loadable dir T st g)
    (hg : Good dir kernelDir T K T₀ st ms s) (hlt : ∀ m ∈ ms, m.vaddr < 2 ^ 32) :
    ∀ x ∈ (rollbackMapped (pagesOf dir kernelDir).logged ms s).2,
      SparesKernel dir kernelDir T K st x.after ∧ x.InUserTable dir := by
  obtain ⟨T', hL⟩ := hg.loading
  have hin := hL.pages_in hlt
  have hdir : ∀ k < pteCount, Supervisor kernelDir st k →
      word s.1.mem (dir + 4 * k) = word st.mem (dir + 4 * k) := by
    intro k hk hs
    obtain ⟨hp, hu⟩ := (h.supervisor hk).mpr hs
    exact hL.entries k hk hp hu
  by_cases hdk : dir = kernelDir
  · subst hdk
    refine rollback_steps (Q := Fading dir T' (Loadable dir T st) s.1) (fun st₁ m hm hQ => ?_)
      (fun st₁ hQ => ?_)
      (Fading.refl _ _ _ _) hg.steps
    · obtain ⟨-, -, hu⟩ := hin m hm
      have hi := pdeIdx_lt (hlt m hm)
      exact hQ.unmapPage hL.ok.inv hL.ok.shows (.inr (.inl rfl)) hL.tab
        (fun q g hq => hL.map_in hT₀ hq) hi
        (hL.ok.entries _ hi hu)
    · refine h.spares_loadable (hL.within.trans hQ.within) fun k hk hs => ?_
      rcases hQ.entries k hk with heq | ⟨-, htab⟩
      · rw [heq, hdir k hk hs]
      · obtain ⟨t, ht⟩ := Option.ne_none_iff_exists'.mp htab
        have huser := ((hL.ok.shows.tab k hk t).mp ht).2.1
        rw [hdir k hk hs] at huser
        exact absurd huser hs.2
  · obtain ⟨-, -, hdK⟩ := h.apart hdk
    obtain ⟨hsame, hshows⟩ := h.kernel_same hdk hL.within
    refine rollback_steps (Q := Fading kernelDir K (Owns kernelDir K) s.1) (fun st₁ m hm hQ => ?_)
      (fun st₁ hQ => ?_)
      (Fading.refl _ _ _ _) hg.steps
    · have hi := pdeIdx_lt (hlt m hm)
      refine hQ.unmapPage h.kernelInv hshows (.inl rfl) (fun k t ht => .inr (.inl ⟨k, ht⟩))
        (fun q g hq => .inr (.inr ⟨q, hq⟩)) hi
        fun hp => ?_
      rw [hsame.word hi] at hp
      exact h.user_page (hin m hm) hp
    · refine h.spares ((hL.within.mono fun _ => .inl).trans (hQ.within.mono fun _ => .inr))
        fun k hk hs => ⟨?_, ?_⟩
      · rw [(hQ.within.same dir h.inv.dir_aligned hdK).word hk, hdir k hk hs]
      · rcases hQ.entries k hk with heq | ⟨-, htab⟩
        · rw [heq, hsame.word hk]
        · obtain ⟨t, ht⟩ := Option.ne_none_iff_exists'.mp htab
          exact absurd ((h.kernelShows.tab k hk t).mp ht).2.1 hs.2

/-- A load goes well from the first call to the last, or is lost. -/
theorem load_watch (h : Sharing dir kernelDir T K st)
    (hload : load (pagesOf dir kernelDir).logged F (st, []) = .ok (res, st', calls)) :
    (∀ x ∈ calls, SparesKernel dir kernelDir T K st x.after ∧ x.InUserTable dir) ∨
      Lost dir kernelDir T K st (st', calls) := by
  rcases load_cases hload with ⟨-, -, hsame⟩ | ⟨-, done, ms, s, hatt, hend⟩
  · obtain ⟨-, rfl⟩ := Prod.mk.inj hsame
    exact .inl (by simp)
  · obtain ⟨hlt, T₀, hT₀, hwatch⟩ := attempt_watch h hatt
    rcases hend with ⟨-, -, rfl⟩ | ⟨-, -, hrolled⟩
    · exact hwatch.imp_left Good.steps
    · rw [hrolled]
      refine hwatch.imp (fun hg => ?_) (Lost.rollback · ms)
      have hsteps := hg.rollback h hT₀ hlt
      rw [← hrolled] at hsteps
      exact hsteps

end

/-! ## a failed load -/

/-- The entries of a directory and of its tables are the same. -/
def Unchanged (dir : Nat) (st st' : Phys) : Prop :=
  ∀ k < pteCount, st'.entry dir k = st.entry dir k ∧ (present (st.entry dir k) = true →
    ∀ j < pteCount, st'.entry (addr (st.entry dir k)) j = st.entry (addr (st.entry dir k)) j)

/-- The pages `ms` are not mapped any more, their frames are free, and the kernel
directory is as it was, if it is another one. -/
def RolledBack (dir kernelDir : Nat) (st : Phys) (ms : List MappedPage) (st' : Phys) : Prop :=
  (∀ m ∈ ms, st'.lookup dir m.vaddr = none ∧ m.phys ∈ st'.free) ∧
    (dir ≠ kernelDir → Unchanged kernelDir st st')

/-- The first page of the first segment, if `validateSegment` accepts it. -/
def File.firstPage (F : File) (os : List Nat) : Option Nat :=
  match F.loaded os with
  | [] => none
  | o :: _ => if validSegment (F.value (pVaddr o) 4) (F.value (pMemsz o) 4) then (F.pages o).head?
      else none

/-- There is a frame for a page, and one for its table if there is none yet. -/
def HasRoom (dir v : Nat) (st : Phys) : Prop :=
  2 ≤ st.free.length ∨ (st.free.length = 1 ∧ present (st.entry dir (pdeIdx v)) = true)

/-- The first page can be mapped once the table of the lowest one is cleared. -/
def MapsFirst (dir kernelDir : Nat) (F : File) (st : Phys) : Prop :=
  validate F = .ok true ∧ ∃ low v, computeElfRange F F.headers none = .ok low ∧
    F.firstPage F.headers = some v ∧
    HasRoom dir v (start (pagesOf dir kernelDir) low st)

section

variable {P : Pages Phys} {os : List Nat} {v : Nat}

/-- A segment that is loaded has a page. -/
theorem pages_ne_nil {o : Nat} (hl : F.Loads o)
    (hvalid : validSegment (F.value (pVaddr o) 4) (F.value (pMemsz o) 4) = true) :
    F.pages o ≠ [] := by
  have hbelow := validSegment_below (value_lt F _ 4) (value_lt F _ 4) hvalid
  have hmem : alignDown (F.value (pVaddr o) 4) ∈ F.pages o := by
    refine (mem_segmentPages hbelow).mpr ⟨Nat.mul_mod_left .., ?_, ?_⟩
    · have := hl.2
      unfold alignDown pageSize
      omega
    · unfold alignDown pageSize
      omega
  exact List.ne_nil_of_mem hmem

/-- The first page is one of a segment. -/
theorem firstPage_mem (h : F.firstPage os = some v) : ∃ o ∈ F.loaded os, v ∈ F.pages o := by
  unfold File.firstPage at h
  split at h
  · simp at h
  · next o rest hloaded =>
      split at h
      · exact ⟨o, by simp [hloaded], List.mem_of_head? h⟩
      · simp at h

/-- A header that is not loaded has no page. -/
theorem firstPage_skip (hl : ¬ F.Loads o) : F.firstPage (o :: os) = F.firstPage os := by
  unfold File.firstPage File.loaded
  rw [List.filter_cons_of_neg (by simpa using hl)]

/-- The first header that is loaded has the first page, if its segment is valid. -/
theorem firstPage_loads (hl : F.Loads o) : F.firstPage (o :: os) =
    if validSegment (F.value (pVaddr o) 4) (F.value (pMemsz o) 4) = true then (F.pages o).head?
      else none := by
  unfold File.firstPage File.loaded
  rw [List.filter_cons_of_pos (by simpa using hl)]

/-- The first page of a segment decides whether any of them is mapped. -/
theorem mapPages_nil_iff {vs : List Nat} {ended : Bool} (hlt : ∀ v' ∈ vs, v' + pageSize < 2 ^ 32)
    (h : mapPages P F o (v :: vs) [] st = .ok (ended, ms, st')) :
    (ms = [] ↔ (framePage P v [] st).1 = none) ∧
      (ended = true → (framePage P v [] st).1 ≠ none) := by
  simp only [mapPages] at h
  rw [if_neg (by decide)] at h
  split at h
  · next st₁ hframe =>
      cases h
      simp [hframe]
  · next phys ms₁ st₁ hframe =>
      obtain ⟨st₂, -, hrest⟩ := bind_eq_ok.mp h
      have hne : ms₁ ≠ [] := by
        obtain ⟨-, -, m, hm, -⟩ | ⟨-, -, -, -, -, rfl, -⟩ := framePage_cases hframe
        · contradiction
        · simp
      have hne' := mapPages_ne_nil hne hlt hrest
      simp [hframe, hne']

/-- Nothing was mapped exactly when there was no room for the first page. -/
theorem loadSegments_nil_iff (h : loadSegments P F os [] st = .ok (false, ms, st')) :
    ms = [] ↔ ∀ v, F.firstPage os = some v → (framePage P v [] st).1 = none := by
  induction os with
  | nil => cases h
  | cons o os ih =>
      rcases loadSegments_cases h with ⟨hl, h⟩ | ⟨hl, hvalid, -, rfl, rfl⟩ |
        ⟨hl, hvalid, ended, ms₁, st₁, hmap, hrest⟩
      · rw [firstPage_skip hl]
        exact ih h
      · rw [firstPage_loads hl, if_neg hvalid]
        simp
      · obtain ⟨v, vs, hvs⟩ := List.exists_cons_of_ne_nil (pages_ne_nil hl hvalid)
        have hlt : ∀ v' ∈ vs, v' + pageSize < 2 ^ 32 :=
          fun v' hv' => pages_lt hvalid (by rw [hvs]; exact List.mem_cons_of_mem _ hv')
        rw [hvs] at hmap
        obtain ⟨hiff, hended⟩ := mapPages_nil_iff hlt hmap
        have hall : (∀ v', F.firstPage (o :: os) = some v' → (framePage P v' [] st).1 = none) ↔
            (framePage P v [] st).1 = none := by
          rw [firstPage_loads hl, if_pos hvalid, hvs]
          simp
        rw [hall, ← hiff]
        rcases hrest with ⟨rfl, h⟩ | ⟨-, -, rfl, -⟩
        · -- a segment that comes to its end has its first page mapped
          have hne : ms₁ ≠ [] := fun hnil => hended rfl (hiff.mp hnil)
          exact iff_of_false (loadSegments_ne_nil hne h) hne
        · exact Iff.rfl

/-- A page gets no frame exactly when there is no room. -/
theorem framePage_none_iff (hal : ∀ b ∈ st.free, b % Memory.pageSize = 0)
    (hd : dir % Memory.pageSize = 0) (hnot : dir ∉ st.free)
    (hv : pdeIdx v < pteCount) : (framePage (pagesOf dir kernelDir) v [] st).1 = none ↔
    ¬ HasRoom dir v st := by
  unfold framePage HasRoom
  simp only [List.find?_nil]
  cases halloc : (pagesOf dir kernelDir).allocFrame st with
  | mk r st₁ =>
      have halloc' : st.allocFrame = (r, st₁) := halloc
      cases r with
      | none =>
          obtain ⟨rfl, hfree⟩ := allocFrame_none halloc'
          simp [hfree]
      | some a =>
          obtain ⟨hfree, -⟩ := allocFrame_some halloc'
          have ha : a ∈ st.free := hfree ▸ List.mem_cons_self
          have hentry : st₁.entry dir (pdeIdx v) = st.entry dir (pdeIdx v) :=
            ((within_alloc halloc' (hal a ha) (U := (· = a)) rfl).same dir hd fun hda =>
              hnot (hda ▸ ha)).word hv
          have hiff : (st₁.mapPage dir v a userFlags).1 = true ↔
              present (st₁.entry dir (pdeIdx v)) = true ∨ st₁.free ≠ [] :=
            mapPage_true_iff
          rw [hentry] at hiff
          have hlen : st₁.free ≠ [] ↔ 2 ≤ st.free.length := by
            rw [hfree, List.length_cons, ← List.length_pos_iff]
            omega
          have hlen' : st.free.length = 1 ↔ ¬ st₁.free ≠ [] := by
            rw [hfree, List.length_cons, not_not, ← List.length_eq_zero_iff]
            omega
          rw [← hlen, hlen']
          have hpage : (pagesOf dir kernelDir).mapPage st₁ v a = st₁.mapPage dir v a userFlags :=
            rfl
          dsimp only
          rw [hpage]
          cases hmap : st₁.mapPage dir v a userFlags with
          | mk b st₂ =>
              rw [hmap] at hiff
              cases b with
              | false =>
                  simp only [Bool.false_eq_true, false_iff, not_or] at hiff
                  simp [hiff]
              | true =>
                  simp only [true_iff] at hiff
                  simp only [reduceCtorEq, false_iff, not_not]
                  by_cases hne : st₁.free ≠ []
                  · exact .inl hne
                  · exact .inr ⟨not_not.mp hne, hiff.resolve_right hne⟩

end

/-! ## undone in the kernel directory -/

/-- A page is gone when its slot is. -/
theorem lookup_none {v : Nat} (hS : Shows dir T st.mem) (hv : pdeIdx v < pteCount)
    (hentries : present (word st.mem (dir + 4 * pdeIdx v)) = true → T.tab (pdeIdx v) ≠ none)
    (hnone : T.map (slotOf v) = none) :
    st.lookup dir v = none := by
  unfold Phys.lookup Phys.entry
  by_cases hp : present (word st.mem (dir + 4 * pdeIdx v)) = true
  · obtain ⟨t, ht⟩ := Option.ne_none_iff_exists'.mp (hentries hp)
    have hta := ((hS.tab _ hv t).mp ht).2.2
    rw [hta, if_neg]
    rintro ⟨-, hp'⟩
    have hm := (hS.map _ t ht _ (pteIdx_lt v) _).mpr ⟨hp', rfl⟩
    rw [slotOf] at hnone
    rw [hnone] at hm
    contradiction
  · rw [if_neg fun hc => hp hc.1]

/-- Pages with a frame of their own, as the rollback finds them. -/
structure Undoable (dir : Nat) (RI : Nat → Prop) (ms : List MappedPage) (T : Tables)
    (st : Phys) : Prop where
  ok : PagesOk dir RI ms T st
  nodup : (ms.map (·.vaddr)).Nodup
  inside : ∀ m ∈ ms, InEntries RI m.vaddr
  last : ∀ m ∈ ms, m.phys ≠ 0 ∧ st.Counted m.phys ∧ st.refs (m.phys / Memory.pageSize) = 1

/-- One more page is undone. -/
theorem Undoable.unmapPage {RI : Nat → Prop} {m : MappedPage} (h : Undoable dir RI (m :: ms) T st) :
    ∃ T', Undoable dir RI ms T' (st.unmapPage dir m.vaddr) ∧
      Unmapped dir T m.vaddr st T' (st.unmapPage dir m.vaddr) := by
  obtain ⟨hal, hlt, hRI⟩ := h.inside m List.mem_cons_self
  have hi := pdeIdx_lt hlt
  obtain ⟨T', hU⟩ := unmapPage_tables h.ok.inv h.ok.shows hi (h.ok.entries _ hi hRI)
  obtain ⟨hnot, hnodup⟩ := List.nodup_cons.mp h.nodup
  have hne : ∀ m' ∈ ms, slotOf m'.vaddr ≠ slotOf m.vaddr := by
    intro m' hm' heq
    have hv : m'.vaddr = m.vaddr :=
      slotOf_inj (h.ok.aligned m' (List.mem_cons_of_mem _ hm')) hal heq
    exact hnot (List.mem_map.mpr ⟨m', hm', hv⟩)
  refine ⟨T',
    ⟨⟨hU.inv, hU.shows, fun k hk hRI' hp => ?_,
      fun m' hm' => h.ok.aligned m' (List.mem_cons_of_mem _ hm'), fun m' hm' => ?_,
    fun m' hm' q hq => h.ok.only m' (List.mem_cons_of_mem _ hm') q (hU.map_sub hq)⟩, hnodup,
    fun m' hm' => h.inside m' (List.mem_cons_of_mem _ hm'), fun m' hm' => ?_⟩, hU⟩
  · rcases hU.words k hk with hw | ⟨hz, -⟩
    · have htab := h.ok.entries k hk hRI' (hw ▸ hp)
      obtain ⟨t, ht⟩ := Option.ne_none_iff_exists'.mp htab
      have huser := ((h.ok.shows.tab k hk t).mp ht).2.1
      rw [(hU.shows.tab k hk _).mpr ⟨hp, by rw [hw]; exact huser, rfl⟩]
      simp
    · rw [hz] at hp
      simp [present] at hp
  · rw [hU.other _ (hne m' hm')]
    exact h.ok.slot m' (List.mem_cons_of_mem _ hm')
  · have hm'' := List.mem_cons_of_mem m hm'
    obtain ⟨hz, hc, hone⟩ := h.last m' hm''
    obtain ⟨hpal, -, hpd, hpt⟩ := h.ok.frame_used hm''
    have hw : Within (· ≠ m'.phys) st (st.unmapPage dir m.vaddr) := by
      refine hU.within _ hpd.symm (fun t ht htm => hpt _ (htm ▸ ht)) fun g hg hgm => ?_
      exact hne m' hm' (h.ok.only m' hm'' _ (hgm ▸ hg)).symm
    exact ⟨hz, (counted_congr hw).mpr hc, (hw.refs _ hpal (not_not.mpr rfl)).trans hone⟩

/-- **The pages are unmapped and their frames freed**, in the directory that the
rollback works on. -/
theorem Undoable.rollback {RI : Nat → Prop} (h : Undoable dir RI ms T st) :
    ∃ T', PagesOk dir RI [] T' (rollbackMapped (pagesOf dir dir) ms st) ∧
      (∀ q g, T'.map q = some g → T.map q = some g) ∧
      (∀ b ∈ st.free, b ∈ (rollbackMapped (pagesOf dir dir) ms st).free) ∧
      ∀ m ∈ ms, T'.map (slotOf m.vaddr) = none ∧
        m.phys ∈ (rollbackMapped (pagesOf dir dir) ms st).free := by
  induction ms generalizing T st with
  | nil => exact ⟨T, h.ok, fun _ _ => id, fun _ hb => hb, by simp⟩
  | cons m ms ih =>
      obtain ⟨T₁, h₁, hU⟩ := h.unmapPage
      obtain ⟨T', hok, hsub, hfree, hms⟩ := ih h₁
      refine ⟨T', hok, fun q g hq => hU.map_sub (hsub q g hq),
        fun b hb => hfree b (hU.free b hb), ?_⟩
      refine List.forall_mem_cons.mpr ⟨⟨?_, ?_⟩, hms⟩
      · cases hm : T'.map (slotOf m.vaddr) with
        | none => rfl
        | some g =>
            have hnone := hU.slot.symm.trans (hsub _ g hm)
            simp at hnone
      · obtain ⟨hz, hc, hone⟩ := h.last m List.mem_cons_self
        exact hfree _ (hU.freed _ (h.ok.slot m List.mem_cons_self) hz hc hone)

/-! ## undone in another directory -/

/-- Present entries, and present entries of their tables, are the same. -/
def Intact (dir : Nat) (st st' : Phys) : Prop :=
  ∀ k < pteCount, present (st.entry dir k) = true → st'.entry dir k = st.entry dir k ∧
    ∀ j < pteCount, present (st.entry (addr (st.entry dir k)) j) = true →
      st'.entry (addr (st.entry dir k)) j = st.entry (addr (st.entry dir k)) j

/-- The rollback brings no page. -/
theorem rollback_fades (hP : Pool st) (hd : kernelDir % Memory.pageSize = 0) :
    Fades st.mem (rollbackMapped (pagesOf dir kernelDir) ms st).mem := by
  induction ms generalizing st with
  | nil => exact Fades.refl _
  | cons m ms ih =>
      obtain ⟨hf, hP', -⟩ := unmapPage_fades (v := m.vaddr) hP hd
      exact hf.trans (ih hP')

/-- A rollback that leaves a directory as it was frees nothing. -/
theorem rollback_quiet (hP : Pool st) (hd : kernelDir % Memory.pageSize = 0)
    (hms : ∀ m ∈ ms, pdeIdx m.vaddr < pteCount)
    (h : Intact kernelDir st (rollbackMapped (pagesOf dir kernelDir) ms st)) :
    (rollbackMapped (pagesOf dir kernelDir) ms st).free = st.free := by
  induction ms generalizing st with
  | nil => rfl
  | cons m ms ih =>
      obtain ⟨hf, hP', hgone⟩ := unmapPage_fades (v := m.vaddr) hP hd
      have hi := hms m List.mem_cons_self
      have hj := pteIdx_lt m.vaddr
      have hrest : rollbackMapped (pagesOf dir kernelDir) (m :: ms) st =
          rollbackMapped (pagesOf dir kernelDir) ms (st.unmapPage kernelDir m.vaddr) := rfl
      rw [hrest] at h ⊢
      have hf' : Fades (st.unmapPage kernelDir m.vaddr).mem
          (rollbackMapped (pagesOf dir kernelDir) ms (st.unmapPage kernelDir m.vaddr)).mem :=
            rollback_fades hP' hd
      -- a present entry afterwards was there before
      have hback : ∀ t j, t % Memory.pageSize = 0 →
        present ((st.unmapPage kernelDir m.vaddr).entry t j) = true →
          (st.unmapPage kernelDir m.vaddr).entry t j = st.entry t j :=
            fun t j ht hp => hf _ (mod_four ht j) hp
      have hlast : ∀ t j, t % Memory.pageSize = 0 →
          present ((rollbackMapped (pagesOf dir kernelDir) ms
              (st.unmapPage kernelDir m.vaddr)).entry t j) = true →
          present ((st.unmapPage kernelDir m.vaddr).entry t j) = true := by
        intro t j ht hp
        have hword := hf' _ (mod_four ht j) hp
        rw [Phys.entry, ← hword]
        exact hp
      have hintact : Intact kernelDir (st.unmapPage kernelDir m.vaddr)
          (rollbackMapped (pagesOf dir kernelDir) ms (st.unmapPage kernelDir m.vaddr)) := by
        intro k hk hp
        have heq := hback kernelDir k hd hp
        rw [heq] at hp ⊢
        obtain ⟨h₁, h₂⟩ := h k hk hp
        refine ⟨h₁, fun j hj' hp' => ?_⟩
        have heq' := hback _ j (addr_mod _) hp'
        rw [heq'] at hp' ⊢
        exact h₂ j hj' hp'
      rw [ih hP' (fun m' hm' => hms m' (List.mem_cons_of_mem _ hm')) hintact]
      by_cases hp : present (st.entry kernelDir (pdeIdx m.vaddr)) = true
      · obtain ⟨hgone₁, hgone₂⟩ := hgone hp
        obtain ⟨hdir, htab⟩ := h _ hi hp
        have hpte : ¬ present
            (st.entry (addr (st.entry kernelDir (pdeIdx m.vaddr))) (pteIdx m.vaddr)) = true := by
          intro hpte
          refine hgone₁ (hlast _ _ (addr_mod _) ?_)
          rw [htab _ hj hpte]
          exact hpte
        rcases hgone₂ hpte with hfree | hnp
        · exact hfree
        · exact absurd (hlast _ _ hd (by rw [hdir]; exact hp)) hnp
      · have hskip : st.unmapPage kernelDir m.vaddr = st := if_neg hp
        rw [hskip]

/-- The kernel directory and all its tables are as before the loop. -/
theorem Sharing.unchanged (h : Sharing dir kernelDir T K st) (hne : dir ≠ kernelDir)
    (hw : Within (Loadable dir T st) st st₁) :
    Unchanged kernelDir st st₁ := by
  obtain ⟨hsame, -⟩ := h.kernel_same hne hw
  intro k hk
  refine ⟨hsame.word hk, fun hp j hj => ?_⟩
  refine (hw.same _ (addr_mod _) ?_).word hj
  by_cases hu : user (st.entry kernelDir k) = true
  · have ht := (h.kernelShows.tab k hk _).mpr ⟨hp, hu, rfl⟩
    rintro (hin | hin)
    · exact (h.kernelInv.tab_used k _ ht).2.1 hin
    · exact (h.apart hne).2.1 k _ ht hin
  · obtain ⟨hfree, hown, -⟩ := h.foreign k hk ⟨hp, hu⟩
    rintro (hin | hin)
    · exact hfree hin
    · exact hown hin

/-- A loop without a call astray. -/
theorem attempt_good {done : Bool} {s : Phys × List (Step Phys)} (h : Sharing dir kernelDir T K st)
    (hatt : attempt (pagesOf dir kernelDir).logged F (st, []) = .ok (done, ms, s))
    (huser : ∀ x ∈ s.2, x.InUserTable dir) :
    (∀ m ∈ ms, m.vaddr < 2 ^ 32) ∧ ∃ T₀, Good dir kernelDir T K T₀ st ms s := by
  obtain ⟨hlt, T₀, -, hg | hlost⟩ := attempt_watch h hatt
  · exact ⟨hlt, T₀, hg⟩
  · obtain ⟨x, hx, hout⟩ := hlost.astray
    exact absurd (huser x hx) hout

/-- The clearing of the lowest table is good. -/
theorem start_good {low : Option Nat} (h : Sharing dir kernelDir T K st)
    (hlow : computeElfRange F F.headers none = .ok low)
    (huser : ∀ x ∈ (start (pagesOf dir kernelDir).logged low (st, [])).2, x.InUserTable dir) :
    ∃ T₀, Good dir kernelDir T K T₀ st [] (start (pagesOf dir kernelDir).logged low (st, [])) := by
  obtain ⟨T₀, -, hg | hlost⟩ := start_watch h hlow
  · exact ⟨T₀, hg⟩
  · obtain ⟨x, hx, hout⟩ := hlost.astray
    exact absurd (huser x hx) hout

/-- A call that has been made stays in the log. -/
theorem keeps_logged {σ : Type} (P : Pages σ) (x : Step σ) :
    Keeps P.logged (fun _ => True) fun _ s => x ∈ s.2 where
  refuse ms s s₁ hJ halloc := by
    obtain ⟨st₁, -, rfl⟩ := logged_allocFrame _ halloc
    exact List.mem_append_left _ hJ
  map ms s s₁ s₂ v phys hJ _ _ halloc hmap := by
    obtain ⟨st₁, -, rfl⟩ := logged_allocFrame _ halloc
    obtain ⟨st₂, -, rfl⟩ := logged_mapPage _ hmap
    exact List.mem_append_left _ (List.mem_append_left _ hJ)
  fail ms s s₁ s₂ v phys hJ _ halloc hmap := by
    obtain ⟨st₁, -, rfl⟩ := logged_allocFrame _ halloc
    obtain ⟨st₂, -, rfl⟩ := logged_mapPage _ hmap
    exact List.mem_append_left _ (List.mem_append_left _ (List.mem_append_left _ hJ))
  store ms s m off bs hJ _ _ := List.mem_append_left _ hJ

/-- The rollback keeps the record. -/
theorem rollback_logged {σ : Type} (P : Pages σ) (ms : List MappedPage) (s : σ × List (Step σ)) :
    ∀ x ∈ s.2, x ∈ (rollbackMapped P.logged ms s).2 := by
  induction ms generalizing s with
  | nil => exact fun _ => id
  | cons m ms ih => exact fun x hx => ih _ x (List.mem_append_left _ hx)

/-- A load of a valid file that fails is an attempt with its rollback, on record or not. -/
theorem load_failed {calls : List (Step Phys)} (hvalid : validate F = .ok true)
    (hload : load (pagesOf dir kernelDir).logged F (st, []) = .ok (none, st', calls)) :
    ∃ ms st₁ log, attempt (pagesOf dir kernelDir).logged F (st, []) = .ok (false, ms, st₁, log) ∧
      attempt (pagesOf dir kernelDir) F st = .ok (false, ms, st₁) ∧
      st' = rollbackMapped (pagesOf dir kernelDir) ms st₁ ∧ ∀ x ∈ log, x ∈ calls := by
  obtain ⟨hno, -, -⟩ | ⟨-, done, ms, ⟨st₁, log⟩, hatt, hend⟩ := load_cases hload
  · rw [hvalid] at hno
    cases hno
  · obtain ⟨-, hres, -⟩ | ⟨rfl, -, hrolled⟩ := hend
    · cases hres
    · refine ⟨ms, st₁, log, hatt, ?_, ?_, fun x hx => ?_⟩
      · have hmap := attempt_logged (pagesOf dir kernelDir) F (st, [])
        rw [hatt] at hmap
        exact hmap.symm
      · have hmap := rollbackMapped_logged (pagesOf dir kernelDir) ms (st₁, log)
        rw [← hrolled] at hmap
        exact hmap
      · have hin := rollback_logged (pagesOf dir kernelDir) ms (st₁, log) x hx
        rwa [← hrolled] at hin

/-- An attempt that fails has mapped a page exactly when there was room for the first. -/
theorem attempt_nil_iff {log : List (Step Phys)} (h : Sharing dir kernelDir T K st)
    (hvalid : validate F = .ok true)
    (hatt : attempt (pagesOf dir kernelDir).logged F (st, []) = .ok (false, ms, st₁, log))
    (hplain : attempt (pagesOf dir kernelDir) F st = .ok (false, ms, st₁))
    (hlog : ∀ x ∈ log, x.InUserTable dir) :
    ms = [] ↔ ¬ MapsFirst dir kernelDir F st := by
  obtain ⟨low, hlow, hloop⟩ := bind_eq_ok.mp hplain
  obtain ⟨low', hlow', hlogged⟩ := bind_eq_ok.mp hatt
  obtain rfl : low = low' := Except.ok.inj (hlow.symm.trans hlow')
  obtain ⟨T₀, hstarted⟩ := start_good h hlow fun x hx =>
    hlog x (loadSegments_keeps (keeps_logged _ x) hx (fun _ _ _ _ => trivial) hlogged)
  obtain ⟨T', hstart⟩ := hstarted.loading
  rw [start_logged] at hstart
  have hroom : ∀ v, F.firstPage F.headers = some v →
      ((framePage (pagesOf dir kernelDir) v [] (start (pagesOf dir kernelDir) low st)).1 = none ↔
        ¬ HasRoom dir v (start (pagesOf dir kernelDir) low st)) := by
    intro v hv
    refine framePage_none_iff (fun b hb => (hstart.ok.inv.aligned b hb).1) h.inv.dir_aligned
      hstart.ok.inv.dir_used ?_
    obtain ⟨o, -, hmem⟩ := firstPage_mem hv
    exact pdeIdx_lt (segmentPages_lt hmem).2
  rw [loadSegments_nil_iff hloop]
  constructor
  · rintro hall ⟨-, low', v, hlow', hv, hfits⟩
    obtain rfl : low = low' := Except.ok.inj (hlow.symm.trans hlow')
    exact (hroom v hv).mp (hall v hv) hfits
  · intro hfirst v hv
    exact (hroom v hv).mpr fun hfits => hfirst ⟨hvalid, low, v, hlow, hv, hfits⟩

/-- A rollback in a kernel directory that keeps its pages gives back none of the frames. -/
theorem Sharing.rollback_free (h : Sharing dir kernelDir T K st) (hP : Pool st₁)
    (hms : ∀ m ∈ ms, pdeIdx m.vaddr < pteCount) (hbefore : Unchanged kernelDir st st₁)
    (hafter : Unchanged kernelDir st (rollbackMapped (pagesOf dir kernelDir) ms st₁)) :
    (rollbackMapped (pagesOf dir kernelDir) ms st₁).free = st₁.free := by
  refine rollback_quiet hP h.kernelInv.dir_aligned hms fun k hk hp => ?_
  obtain ⟨hd₁, ht₁⟩ := hbefore k hk
  obtain ⟨hd₂, ht₂⟩ := hafter k hk
  rw [hd₁] at hp ⊢
  refine ⟨hd₂, fun j hj _ => ?_⟩
  rw [ht₁ hp j hj, ht₂ hp j hj]

/-- The memory that holds the word `f a` at each `a`. -/
def wordsMem (f : Nat → Nat) (x : Nat) : BitVec 8 := BitVec.ofNat 8 (f (x / 4 * 4) / 256 ^ (x % 4))

/-- A word of the memory that is made of words. -/
theorem word_wordsMem {f : Nat → Nat} {a : Nat} (ha : a % 4 = 0) (hf : f a < 2 ^ 32) :
    word (wordsMem f) a = f a := by
  have h : ∀ k < 4, wordsMem f (a + k) = BitVec.ofNat 8 (f a / 256 ^ k) := by
    intro k hk
    have hdiv : (a + k) / 4 * 4 = a := by omega
    have hmod : (a + k) % 4 = k := by omega
    rw [wordsMem, hdiv, hmod]
  have h₀ := h 0 (by decide)
  simp only [Nat.add_zero] at h₀
  rw [word, h₀, h 1 (by decide), h 2 (by decide), h 3 (by decide)]
  simp only [BitVec.toNat_ofNat]
  omega

/-- The kernel directory at 0x1000 and one at 0x2000, which share the supervisor tables: the
identity map at 0x3000, in entry 0 and again in the higher half, and the table of the
trampoline at 0x4000, which maps the frame 0x8000 at 0xBF000000. -/
def kernelWord (a : Nat) : Nat :=
  if a = 0x1000 ∨ a = 0x1C00 ∨ a = 0x2000 ∨ a = 0x2C00 then 0x3003
  else if a = 0x1BF0 ∨ a = 0x2BF0 then 0x4003
  else if 0x3000 ≤ a ∧ a < 0x4000 then (a - 0x3000) * 0x400 + 3
  else if a = 0x4000 then 0x8003
  else 0

def smallMachine (free : List Nat) : Phys where
  mem := wordsMem kernelWord
  free := free
  refs a := if a ∈ [1, 2, 3, 4, 8] then 1 else 0
  maxFrameIdx := 1024
  panicked := false

def noTables : Tables := ⟨fun _ => none, fun _ => none⟩

/-- The four bytes of a word. -/
def bytes (n : Nat) : List (BitVec 8) := (List.range 4).map fun i => BitVec.ofNat 8 (n / 256 ^ i)

/-- An executable with one segment, of `memsz` bytes at `vaddr`. -/
def program (vaddr memsz : Nat) : File where
  base := 0x100000
  size := 88
  byte k :=
    ([0x7F, 0x45, 0x4C, 0x46, 1, 1, 1, 0, 0, 0, 0, 0, 0, 0, 0, 0, 2, 0, 3, 0, 1, 0, 0, 0] ++
    bytes vaddr ++
    [52, 0, 0, 0, 0, 0, 0, 0, 0, 0, 0, 0, 52, 0, 32, 0, 1, 0, 0, 0, 0, 0, 0, 0, 1, 0, 0, 0, 84, 0,
      0, 0] ++ bytes vaddr ++
    [0, 0, 0, 0, 4, 0, 0, 0] ++ bytes memsz ++ [5, 0, 0, 0, 0, 0x10, 0, 0, 0xB8, 1, 0, 0]).getD k 0
  fits := oneSegment.fits

/-- The entries of both directories. -/
theorem kernelWord_entry {i : Nat} (hi : i < pteCount) :
    kernelWord (0x2000 + 4 * i) = kernelWord (0x1000 + 4 * i) ∧
    (kernelWord (0x1000 + 4 * i) = 0x3003 ∨ kernelWord (0x1000 + 4 * i) = 0x4003 ∨
      kernelWord (0x1000 + 4 * i) = 0) := by
  unfold pteCount at hi
  unfold kernelWord
  grind

/-- None of them is a user table. -/
theorem kernelWord_supervisor {i : Nat} (hi : i < pteCount) :
    ¬ (present (kernelWord (0x1000 + 4 * i)) = true ∧
      user (kernelWord (0x1000 + 4 * i)) = true) := by
  obtain ⟨-, heq | heq | heq⟩ := kernelWord_entry hi
  · rw [heq]
    decide
  · rw [heq]
    decide
  · rw [heq]
    decide

/-- The entries of the example. -/
theorem smallMachine_entry (free : List Nat) {i : Nat} (hi : i < pteCount) :
    (smallMachine free).entry 0x1000 i = kernelWord (0x1000 + 4 * i) ∧
      (smallMachine free).entry 0x2000 i = kernelWord (0x1000 + 4 * i) := by
  obtain ⟨heq, hcases⟩ := kernelWord_entry hi
  have hlt : kernelWord (0x1000 + 4 * i) < 2 ^ 32 := by omega
  constructor
  · exact word_wordsMem (by omega) hlt
  · rw [← heq] at hlt ⊢
    exact word_wordsMem (by omega) hlt

/-- An empty directory keeps its invariant. -/
theorem noTables_inv {dir : Nat} {st : Phys} (hd : dir % Memory.pageSize = 0) (hnd : st.free.Nodup)
    (hnot : dir ∉ st.free)
    (hal : ∀ b ∈ st.free, b % Memory.pageSize = 0 ∧ b < 2 ^ 32) : Memory.Inv dir noTables st := by
  refine ⟨hnd, hal, hd,
    hnot, by simp [noTables], by simp [noTables], by simp [noTables], by simp [noTables], by
    simp [noTables],
    by simp [noTables], fun g _ _ => ?_⟩
  rw [uses_eq_zero (by simp [noTables])]
  exact Nat.zero_le _

/-- A directory without user tables. -/
theorem noTables_shows {dir : Nat} {mem : Nat → BitVec 8}
    (h : ∀ i < pteCount,
    ¬ (present (word mem (dir + 4 * i)) = true ∧ user (word mem (dir + 4 * i)) = true)) :
    Shows dir noTables mem := by
  refine ⟨fun i hi t => ?_, by simp [noTables], by simp [noTables], by simp [noTables]⟩
  simp only [noTables, reduceCtorEq, false_iff]
  exact fun hc => h i hi ⟨hc.1, hc.2.1⟩

/-- A directory without tables owns itself only. -/
theorem not_owns_noTables {dir b : Nat} (hne : dir ≠ b) : ¬ Owns dir noTables b := by
  rintro (heq | ⟨_, h⟩ | ⟨_, h⟩)
  · exact hne heq.symm
  · simp [noTables] at h
  · simp [noTables] at h

/-- The example shares the tables of the kernel. -/
theorem smallMachine_sharing {free : List Nat} (hnd : free.Nodup)
    (hfree : ∀ b ∈ free, b = 0x9000 ∨ b = 0xA000 ∨ b = 0xB000) :
    Sharing 0x2000 0x1000 noTables noTables (smallMachine free) := by
  have hentry := fun i hi => smallMachine_entry free (i := i) hi
  have hal : ∀ b ∈ free, (b % Memory.pageSize = 0 ∧ b < 2 ^ 32) ∧ b ≠ 0 ∧
      b / Memory.pageSize < 1024 := by
    intro b hb
    rcases hfree b hb with rfl | rfl | rfl
    · decide
    · decide
    · decide
  have hnot : ∀ b < 0x9000, b ∉ free := by
    intro b hlt hb
    have := hfree b hb
    omega
  refine ⟨noTables_inv (by decide) hnd (hnot _ (by decide)) fun b hb => (hal b hb).1,
    noTables_shows fun i hi => ?_,
    noTables_inv (by decide) hnd (hnot _ (by decide)) fun b hb =>
      (hal b hb).1, noTables_shows fun i hi => ?_,
    fun b hb => (hal b hb).2, fun i hi _ => ?_, fun i hi hs => ?_,
    fun _ => ⟨not_owns_noTables (by decide), by simp [noTables], not_owns_noTables (by decide)⟩⟩
  · rw [← Phys.entry, (hentry i hi).2]
    exact kernelWord_supervisor hi
  · rw [← Phys.entry, (hentry i hi).1]
    exact kernelWord_supervisor hi
  · rw [(hentry i hi).1, (hentry i hi).2]
  · have hp := hs.1
    rw [(hentry i hi).1] at hp ⊢
    obtain ⟨-, heq | heq | heq⟩ := kernelWord_entry hi
    · rw [heq, (by decide : addr 0x3003 = 0x3000)]
      exact ⟨hnot _ (by decide), not_owns_noTables (by decide), not_owns_noTables (by decide)⟩
    · rw [heq, (by decide : addr 0x4003 = 0x4000)]
      exact ⟨hnot _ (by decide), not_owns_noTables (by decide), not_owns_noTables (by decide)⟩
    · rw [heq] at hp
      simp [present] at hp

/-- Whether a load succeeds, and what is seen of its calls. -/
def outcome {α : Type} (r : Except OutOfFile (Option LoadResult × Phys × List (Step Phys)))
    (see : List (Step Phys) → α) :
    Option (Bool × List Nat × α) :=
  match r with
  | .ok (res, st, calls) => some (res.isSome, st.free, see calls)
  | .error _ => none

/-- A fixed run that was evaluated. -/
theorem outcome_eq {α : Type} {r : Except OutOfFile (Option LoadResult × Phys × List (Step Phys))}
    {see : List (Step Phys) → α}
    {b : Bool} {free : List Nat} {a : α} (h : outcome r see = some (b, free, a)) :
    ∃ res st' calls, r = .ok (res, st', calls) ∧ res.isSome = b ∧ st'.free = free ∧
      see calls = a := by
  unfold outcome at h
  split at h
  · next res st' calls =>
      simp only [Option.some.injEq, Prod.mk.injEq] at h
      exact ⟨res, st', calls, rfl, h⟩
  · contradiction

end Doors.Elf
