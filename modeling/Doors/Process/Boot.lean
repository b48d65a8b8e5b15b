import Doors.Memory.DirectMap
import Doors.Memory.Partition
import Doors.Process.Spaces

/-!
# Doors.Process.Boot

The address spaces from boot on: `kmain` (`kernel/Kernel.cc`) leaves one directory, that of the
kernel, and the runs of `Doors.Process.Spaces` start with it.

* `boot_sane` — the directories are well formed when `kmain` is done;
* `untouched_run` — no run changes a byte of the kernel, of a module, of the heap or of the
  tables that `Paging::init` has set up;
* `direct_run` — in every directory the kernel finds physical memory where it was at boot;
* `userPage_run` — the pages that a task can get are those without a table at boot.
-/

namespace Doors

open Memory Phys Run

/-! ## what a run leaves alone -/

/-- **Nothing beyond the frames `M`** changed, and all directories have the tables of the kernel
that they had. -/
structure Spared (M : Set Nat) (F F' : Family) : Prop where
  within : Within (· ∈ M) F.phys F'.phys
  kernel : ∀ K, KernelMap F.phys.mem ↑F.dirs K → KernelMap F'.phys.mem ↑F'.dirs K

variable {M : Set Nat} {F F' F'' F₀ : Family} {st st' p : Phys} {live held : Multiset Nat}
  {dirs ts L : List Nat} {tr : List SpaceOp}
  {s : Nat → Nat → Nat → Nat} {a d t v x i n stop dir : Nat} {K : Nat → Nat}

theorem Spared.refl (M : Set Nat) (F : Family) : Spared M F F := ⟨.refl _ _, fun _ => id⟩

theorem Spared.trans (h : Spared M F F') (h' : Spared M F' F'') : Spared M F F'' :=
  ⟨h.within.trans h'.within, fun K hK => h'.kernel K (h.kernel K hK)⟩

theorem Memory.Remapped.spared (h : Remapped M ↑F.dirs 0 ↑dirs 0 F.phys st s) :
    Spared M F { F with phys := st, dirs := dirs } :=
  ⟨h.within, h.kernel⟩

/-- **A store** stays in the frame of its page. -/
theorem Memory.Spaces.poke_spared (h : Spaces M ↑F.dirs 0 F.phys) (hd : d ∈ F.dirs)
    (hx : pdeIdx x < pteCount)
    (hm : F.phys.mayStore d x = true) (b : BitVec 8) :
    Spared M F { F with phys := F.phys.poke d x b } := by
  obtain ⟨hu, -, hp, -⟩ := mayStore_iff.mp hm
  have hin : addr (pteAt F.phys.mem d (pdeIdx x) (pteIdx x)) ∈ mapped F.phys.mem ↑F.dirs :=
    mem_mapped.mpr ⟨d, Multiset.mem_coe.mpr hd, _, hx, _, pteIdx_lt x, mem_entryRefs.mpr ⟨hp, rfl⟩⟩
  have hM := h.exact.used_in _ (Multiset.mem_add.mpr (.inl (Multiset.mem_add.mpr (.inr hin))))
  have hlt : x % pageSize < pageSize := Nat.mod_lt _ (by decide)
  have hmem : ∀ y, y < addr (pteAt F.phys.mem d (pdeIdx x) (pteIdx x)) ∨
    addr (pteAt F.phys.mem d (pdeIdx x) (pteIdx x)) + pageSize ≤ y →
      (F.phys.poke d x b).mem y = F.phys.mem y := fun y hy => by
    rw [poke_mem hu]
    refine Function.update_of_ne ?_ _ _
    unfold target
    omega
  refine ⟨Written.within ⟨hmem, rfl, rfl, rfl, rfl⟩ (addr_mod _) hM, fun K hK d' hd' i hi => ?_⟩
  have hsame := (h.poke (b := b) (Multiset.mem_coe.mpr hd) hx hm).2
  show kernelEntry (word (F.phys.poke d x b).mem (d' + 4 * i)) = K i
  rw [(pteAt_same hsame hd' hi).1]
  exact hK d' hd' i hi

namespace Family

/-- **No operation** goes beyond the frames `M`, or takes a table of the kernel away. -/
theorem Sane.spared {op : SpaceOp} (h : Sane M F) (hop : F.Allowed op) :
    Spared M F (F.step op).2 := by
  have hcases := h.step_cases hop
  generalize F.step op = r at hcases ⊢
  cases hcases with
  | map _ _ _ _ hR => exact hR.spared
  | unmap hR => exact hR.spared
  | clear hR => exact hR.spared
  | spawn _ _ hR => exact hR.spared
  | fork _ _ _ hR => exact hR.spared
  | exit _ _ _ hR => exact hR.spared
  | stored hd _ hx hst =>
      cases hst with
      | done hm => exact h.spaces.poke_spared hd (pdeIdx_lt_of hx) hm _
      | @served _ st' _ hs _ hm' =>
          have hserved : Spared M F { F with phys := st' } := hs.remapped.spared
          exact hserved.trans (Memory.Spaces.poke_spared
            (F := { F with phys := st' }) hs.remapped.spaces hd (pdeIdx_lt_of hx) hm' _)
  | fault _ _ hst =>
      cases hst with
      | fault _ hs _ => exact hs.remapped.spared
      | none => exact .refl M F
  | failed hR => exact hR.spared

theorem spared_run (h : Sane M F₀) (hrun : Reach next Allowed F₀ tr F) : Sane M F ∧ Spared M F₀ F :=
  Reach.inv (P := fun F => Sane M F ∧ Spared M F₀ F) ⟨h, .refl M F₀⟩ (fun F op F' hF hop hnext => by
    obtain rfl : (F.step op).2 = F' := Except.ok.inj hnext
    exact ⟨hF.1.step hop, hF.2.trans (hF.1.spared hop)⟩) hrun

end Family

/-! ## after `kmain` -/

/-- Where the identity map ends. -/
def identityEnd (pae : Bool) (kernelEnd : Nat) (mbi : Mbi) : Nat :=
  pageUp (identityMapEnd kernelEnd (availableAbove (mbi.chunks pae) kernelEnd))

/-- `Paging::init` finds frames enough for the directory and the tables. -/
def Suffices (pae : Bool) (kernelEnd : Nat) (mbi : Mbi) : Prop :=
  calcNumPageTables (identityEnd pae kernelEnd mbi) <
    (Pmm.initListed (fun _ => 0) kernelEnd mbi).phys.free.length

instance (pae : Bool) (kernelEnd : Nat) (mbi : Mbi) : Decidable (Suffices pae kernelEnd mbi) :=
  inferInstanceAs (Decidable (_ < _))

/-- The directories after `kmain`: that of the kernel. -/
def Family.boot (booted : Booted) : Family :=
  { phys := booted.phys, kernelDir := booted.pageDir, dirs := [booted.pageDir] }

/-- The frames for tasks: the free ones, and the directory. -/
def pool (F : Family) : Set Nat := {a | a ∈ F.kernelDir :: F.phys.free}

variable {pae : Bool} {kernelEnd fuel : Nat} {mem : Nat → BitVec 8} {words : Nat → Nat} {mbi : Mbi}
  {b : BootImage} {booted : Booted}

theorem init_max_lt (mem : Nat → BitVec 8) (hr : Regular pae kernelEnd mbi) :
    (Pmm.initListed mem kernelEnd mbi).phys.maxFrameIdx < maxFrames := by
  unfold Pmm.initListed
  rw [reserveFrame_max]
  unfold Pmm.addListedPages
  dsimp only
  obtain ⟨-, hle, -⟩ := scan_highest kernelEnd mbi.ranges mbi.mmap (Pmm.zero mem, 0) hr.ends
    (Nat.zero_le _)
  unfold frameLimit pageSize maxFrames
  omega

/-- What the frames in hand go through when the heap's frames are unlinked. -/
theorem Memory.Enabled.same (h : Enabled p n stop st) (hcalm : st'.panicked = st.panicked)
    (hdir : Same st.mem st'.mem (p.free.headD 0))
    (hts : ∀ t ∈ p.free.tail.take n, Same st.mem st'.mem t) (hfree : ∀ a ∈ st'.free, a ∈ st.free)
    (hn : n ≤ 256) : Enabled p n stop st' := by
  have hbound : ∀ i t, (p.free.tail.take n)[i]? = some t → i < n := fun i t ht => by
    have hlt := (List.getElem?_eq_some_iff.mp ht).1
    rw [List.length_take] at hlt
    omega
  refine ⟨hcalm.trans h.calm, fun i hi => ?_,
    ⟨fun i t ht => ?_, fun i t ht => ?_, h.maps.filled.same hts⟩, fun a ha =>
    h.below a (hfree a ha),
    fun i hi hlow hhigh hne => (hdir.word hi).trans (h.absent i hi hlow hhigh hne)⟩
  · rw [← h.kernel i hi]
    exact congrArg user (hdir.word hi)
  · have hi := hbound i t ht
    rw [← h.maps.low i t ht]
    exact hdir.word (by unfold pteCount; omega)
  · have hi := hbound i t ht
    rw [← h.maps.high i t ht]
    exact hdir.word (by unfold higherHalfPde pteCount; omega)

theorem kmain_cases (mem : Nat → BitVec 8) (words : Nat → Nat) (pae : Bool) (kernelEnd : Nat)
    (mbi : Mbi) :
    let st := (Pmm.initListed mem kernelEnd mbi).phys.pagingInit
      (identityMapEnd kernelEnd (availableAbove (mbi.chunks pae) kernelEnd))
    (kmainListed mem words pae kernelEnd mbi).phys = st ∨ ∃ gone,
      (kmainListed mem words pae kernelEnd mbi).phys = st.unlink gone := by
  unfold kmainListed setUp
  dsimp only
  split
  · exact .inr ⟨_, rfl⟩
  · exact .inl rfl

/-- The directory and its tables are among the frames that `Paging::init` keeps. -/
theorem mem_takes {order : List Nat} (h : n < order.length) :
    order.headD 0 ∈ takes order n stop ∧ ∀ t ∈ order.tail.take n, t ∈ takes order n stop := by
  unfold takes
  rw [if_neg (by omega)]
  cases order with
  | nil => simp at h
  | cons b rest => exact ⟨by simp, fun t ht => List.mem_append_right _ (List.mem_cons_of_mem _ ht)⟩

/-- **After `kmain`** the frames of `taken` are in use, and paging is enabled. -/
theorem kmain_enabled (mem : Nat → BitVec 8) (words : Nat → Nat) (hr : Regular pae kernelEnd mbi)
    (hs : Suffices pae kernelEnd mbi) :
    Holds (Pmm.initListed mem kernelEnd mbi).phys (taken pae kernelEnd mbi)
      (kmainListed mem words pae kernelEnd mbi).phys ∧
      Enabled (Pmm.initListed mem kernelEnd mbi).phys
        (calcNumPageTables (identityEnd pae kernelEnd mbi)) (identityEnd pae kernelEnd mbi)
        (kmainListed mem words pae kernelEnd mbi).phys ∧
      (∀ t ∈ (Pmm.initListed mem kernelEnd mbi).phys.free.headD 0 ::
        (Pmm.initListed mem kernelEnd mbi).phys.free.tail.take
          (calcNumPageTables (identityEnd pae kernelEnd mbi)), t ∈ taken pae kernelEnd mbi) := by
  have hp := init_ready mem hr
  have hend := hr.heap
  have htop : identityMapEnd kernelEnd (availableAbove (mbi.chunks pae) kernelEnd) ≤ 2 ^ 30 := by
    unfold identityMapEnd pdeSize
    omega
  have hn : calcNumPageTables (identityEnd pae kernelEnd mbi) ≤ 256 := calcNumPageTables_le _ htop
  have hlen : calcNumPageTables (identityEnd pae kernelEnd mbi) <
      (Pmm.initListed mem kernelEnd mbi).phys.free.length := by
    unfold Suffices at hs
    rwa [init_free] at hs ⊢
  have hholds := (pagingInit_taken mem hr).1
  have henabled := init_enabled (identityEnd pae kernelEnd mbi) hp (init_max_lt mem hr)
    (pos_calcNumPageTables _) hn hlen
  change Enabled _ _ _ ((Pmm.initListed mem kernelEnd mbi).phys.pagingInit _) at henabled
  obtain ⟨hhead, htail⟩ : _ ∈ takes _ _ (identityEnd pae kernelEnd mbi) ∧ _ := mem_takes hlen
  have htaken : takes (Pmm.initListed mem kernelEnd mbi).phys.free
    (calcNumPageTables (identityEnd pae kernelEnd mbi))
      (identityEnd pae kernelEnd mbi) = taken pae kernelEnd mbi := by
    rw [init_free]
    rfl
  rw [htaken] at hhead htail
  have hin : ∀ t ∈ (Pmm.initListed mem kernelEnd mbi).phys.free.headD 0 ::
      (Pmm.initListed mem kernelEnd mbi).phys.free.tail.take
        (calcNumPageTables (identityEnd pae kernelEnd mbi)), t ∈ taken pae kernelEnd mbi :=
    fun t ht => (List.mem_cons.mp ht).elim (fun h => h ▸ hhead) (htail t)
  rcases kmain_cases mem words pae kernelEnd mbi with heq | ⟨gone, heq⟩
  · rw [heq]
    exact ⟨hholds, henabled, hin⟩
  · rw [heq]
    exact ⟨hholds.unlink gone, henabled.same rfl (hholds.same_unlink hp hhead gone)
      (fun t ht => hholds.same_unlink hp (htail t ht) gone)
      (fun a ha => (List.mem_filter.mp ha).1) hn, hin⟩

namespace Family

/-- **The directories are well formed** when `kmain` is done. -/
theorem boot_sane (mem : Nat → BitVec 8) (words : Nat → Nat) (hr : Regular pae kernelEnd mbi)
    (hs : Suffices pae kernelEnd mbi) :
    Sane (pool (boot (kmainListed mem words pae kernelEnd mbi)))
      (boot (kmainListed mem words pae kernelEnd mbi)) := by
  obtain ⟨hholds, henabled, hin⟩ := kmain_enabled mem words hr hs
  have hp := init_ready mem hr
  have hdir := hin _ List.mem_cons_self
  generalize hd : (Pmm.initListed mem kernelEnd mbi).phys.free.headD 0 = dir at hdir
  have hnodup := List.nodup_append.mp hholds.nodup
  have hfresh : dir ∉ (kmainListed mem words pae kernelEnd mbi).phys.free :=
    fun hin => hnodup.2.2 dir hdir dir hin rfl
  have hsub : ∀ a ∈ dir :: (kmainListed mem words pae kernelEnd mbi).phys.free,
      a ∈ (Pmm.initListed mem kernelEnd mbi).phys.free := fun a ha =>
    hholds.sub a (List.mem_append.mpr ((List.mem_cons.mp ha).imp (fun h : a = dir => h ▸ hdir) id))
  have hboot : boot (kmainListed mem words pae kernelEnd mbi) =
      { phys := (kmainListed mem words pae kernelEnd mbi).phys, kernelDir := dir,
        dirs := [dir] } := by
    unfold boot
    rw [kmain_pageDir, hd]
  rw [hboot]
  refine sane_bare _ dir [dir] (List.mem_singleton_self dir) (Nat.le_add_left 1 _)
    (hholds.max ▸ init_max_lt mem hr) ?_ (fun a ha => ?_) (fun a ha => ?_)
    (fun a ha => ?_) (henabled.calm.trans (init_calm mem kernelEnd mbi)) fun d hd' i hi => ?_
  · exact List.nodup_cons.mpr ⟨hfresh, hnodup.2.1⟩
  · obtain ⟨hmod, hpos, -, hcount⟩ := hp.frame a (hsub a ha)
    exact ⟨hmod, by omega, hholds.max ▸ hcount⟩
  · obtain ⟨hmod, -⟩ := hp.frame a (hsub a (List.mem_cons_of_mem dir ha))
    rw [hholds.refs a hmod, if_neg fun hL => hnodup.2.2 a hL a ha rfl]
    exact hp.idle a (hsub a (List.mem_cons_of_mem dir ha))
  · obtain rfl := List.mem_singleton.mp ha
    rw [hholds.refs a (hp.frame a (hsub a List.mem_cons_self)).1, if_pos hdir]
  · obtain rfl := List.mem_singleton.mp hd'
    have huser := henabled.kernel i hi
    rw [hd] at huser
    intro hu
    exact absurd hu.2 (by rw [← Bool.not_eq_true] at huser; exact huser)

/-! ## a machine with two regions -/

theorem twoImage_suffices : Suffices false 0x108000 twoImage.mbi := by
  unfold Suffices
  rw [twoImage_mbi, init_free]
  decide

theorem twoImage_read : ReadsRight 0x108000 twoImage.mbi := readsRight_of_below _ twoImage_below

/-- One task is added. -/
theorem reach_spawn (booted : Booted) :
    Reach next Allowed (boot booted) [.spawn] ((boot booted).step .spawn).2 :=
  .snoc .nil (show 1 ≤ Scheduler.maxTasks by decide) rfl

/-! ## the kernel's memory -/

/-- **The byte is the kernel's**: of the image, a module or the screen, of the heap, or of a frame
that `Paging::init` keeps besides the directory. -/
def OfKernel (pae : Bool) (kernelEnd : Nat) (mbi : Mbi) (booted : Booted) (x : Nat) : Prop :=
  Taken kernelEnd mbi x ∨ booted.InHeap x ∨
    ∃ a ∈ taken pae kernelEnd mbi, a ≠ booted.pageDir ∧ a ≤ x ∧ x < a + pageSize

/-- The kernel's directory is one of the frames that `Paging::init` keeps. -/
theorem pageDir_taken (hr : Regular pae kernelEnd mbi) (hs : Suffices pae kernelEnd mbi) :
    (kmainListed mem words pae kernelEnd mbi).pageDir ∈ taken pae kernelEnd mbi := by
  rw [kmain_pageDir]
  exact (kmain_enabled mem words hr hs).2.2 _ List.mem_cons_self

theorem mem_pool (hr : Regular pae kernelEnd mbi) (hs : Suffices pae kernelEnd mbi)
    (ha : a ∈ pool (boot (kmainListed mem words pae kernelEnd mbi))) :
    a ∈ (Pmm.initListed mem kernelEnd mbi).phys.free ∧ a % pageSize = 0 := by
  have hholds := (kmain_enabled mem words hr hs).1
  have hfree : a ∈ (Pmm.initListed mem kernelEnd mbi).phys.free := by
    rcases List.mem_cons.mp ha with h | h
    · exact hholds.sub a (List.mem_append_left _ (h ▸ pageDir_taken hr hs))
    · exact hholds.sub a (List.mem_append_right _ h)
  exact ⟨hfree, ((init_ready mem hr).frame a hfree).1⟩

/-- The free frames after `Pmm::init` have nothing that is taken. -/
theorem untaken (hr : Regular pae kernelEnd mbi) (hread : ReadsRight kernelEnd mbi)
    (ha : a ∈ (Pmm.initListed mem kernelEnd mbi).phys.free)
    (hlo : a ≤ x) (hhi : x < a + pageSize) : ¬ Taken kernelEnd mbi x := by
  obtain ⟨hne, e, he, hreads⟩ := mem_init hr ha
  rintro (hzero | hkernel | ⟨m, hm, hm₁, hm₂⟩ | hvga)
  · have hpos := hreads.2.2.2.2.1
    omega
  · exact hreads.kernel hlo hhi hkernel
  · have hout := hread.modules e he a hreads hne m hm
    omega
  · have hmod := hreads.2.1
    unfold vgaFrame pageSize at *
    omega

/-- A frame that `Paging::init` keeps is not for tasks, but for the directory. -/
theorem taken_not_pool (hr : Regular pae kernelEnd mbi) (hs : Suffices pae kernelEnd mbi)
    (ha : a ∈ taken pae kernelEnd mbi)
    (hne : a ≠ (kmainListed mem words pae kernelEnd mbi).pageDir) :
    a ∉ pool (boot (kmainListed mem words pae kernelEnd mbi)) := fun hin =>
  (List.nodup_append.mp (kmain_enabled mem words hr hs).1.nodup).2.2 a ha a
    ((List.mem_cons.mp hin).resolve_left hne) rfl

/-- **The kernel's bytes** are in none of the frames for tasks. -/
theorem pool_apart (hr : Regular pae kernelEnd mbi) (hread : ReadsRight kernelEnd mbi)
    (hs : Suffices pae kernelEnd mbi)
    (hpart : (kmainListed mem words pae kernelEnd mbi).Partitioned mbi)
    (hx : OfKernel pae kernelEnd mbi (kmainListed mem words pae kernelEnd mbi) x) :
    addr x ∉ pool (boot (kmainListed mem words pae kernelEnd mbi)) := by
  intro hin
  have hlo : addr x ≤ x := by
    unfold addr pageSize
    omega
  have hhi : x < addr x + pageSize := by
    unfold addr pageSize
    omega
  obtain ⟨hfree, hmod⟩ := mem_pool hr hs hin
  rcases hx with htaken | hheap | ⟨a, ha, hne, hax, hxa⟩
  · exact untaken hr hread hfree hlo hhi htaken
  · rcases List.mem_cons.mp hin with h | h
    · have hholds := (kmain_enabled mem words hr hs).1
      refine hpart.handed (addr x) hmod ?_ x hlo hhi hheap
      rw [hholds.refs _ hmod, if_pos (h ▸ pageDir_taken hr hs)]
      exact Nat.one_ne_zero
    · exact hpart.free (addr x) h x hlo hhi hheap
  · have hmoda := ((kmain_enabled mem words hr hs).1.aligned (init_ready mem hr) ha).1
    obtain rfl : a = addr x := by
      unfold addr pageSize at *
      omega
    exact taken_not_pool hr hs ha hne hin

/-- **The kernel's memory is untouched**: in no run does a write of the operations on the address
spaces, or a store of a task, go to a byte of the kernel. -/
theorem untouched_run (hb : b.Preserved pae kernelEnd) (hr : Regular pae kernelEnd b.mbi)
    (hread : ReadsRight kernelEnd b.mbi) (hs : Suffices pae kernelEnd b.mbi)
    (hk : kmain fuel b.mem words pae kernelEnd b.info = some booted)
    (hpart : booted.Partitioned b.mbi) (hrun : Reach next Allowed (boot booted) tr F) :
    ∀ x, OfKernel pae kernelEnd b.mbi booted x → F.phys.mem x = booted.phys.mem x := by
  intro x hx
  obtain rfl := BootImage.kmain_listed hb hr hk
  obtain ⟨-, hspared⟩ := spared_run (boot_sane b.mem words hr hs) hrun
  refine hspared.within.same (addr x) (addr_mod x) (pool_apart hr hread hs hpart hx) x ?_ ?_
  · unfold addr pageSize
    omega
  · unfold addr pageSize
    omega

theorem untouched_spawn :
    ∃ fuel booted F, kmain fuel twoImage.mem (fun _ => 0) false 0x108000 twoImage.info =
      some booted ∧
      Reach next Allowed (boot booted) [.spawn] F ∧
        ∀ x, OfKernel false 0x108000 twoImage.mbi booted x → F.phys.mem x = booted.phys.mem x := by
  obtain ⟨fuel, hk⟩ := twoImage_kmain fun _ => 0
  have hpart := (partitioned_listed twoImage.mem (fun _ => 0) twoImage_regular).mpr
    (.inr twoImage_left)
  exact ⟨fuel, _, _, hk, reach_spawn _, untouched_run (twoImage_preserved _ _) twoImage_regular
    twoImage_read twoImage_suffices hk hpart (reach_spawn _)⟩

/-! ## the kernel's mapping -/

theorem kernelEntry_eq_zero {e : Nat} : kernelEntry e = 0 ↔ (present e = true → user e = true) := by
  unfold kernelEntry
  split
  · next h =>
      have hpos : e ≠ 0 := by
        rintro rfl
        exact absurd h.1 (by decide)
      exact iff_of_false hpos fun hall => h.2 (hall h.1)
  · next h =>
      refine iff_of_true rfl fun hp => ?_
      by_contra hu
      exact h ⟨hp, hu⟩

theorem kernelEntry_tables (t : Nat) :
    kernelEntry (mkEntry t (pagePresent + pageRw)) = mkEntry t (pagePresent + pageRw) ∧
      mkEntry t (pagePresent + pageRw) ≠ 0 := by
  have hpres : present (mkEntry t (pagePresent + pageRw)) = true := by
    rw [present_iff, mkEntry_mod]
    decide
  refine ⟨if_pos ⟨hpres, by rw [user_tables]; decide⟩, ?_⟩
  unfold mkEntry pagePresent
  omega

/-- Every directory has the entries of the kernel that were there at boot. -/
theorem kernel_spared (h : Spared M (boot (kmainListed mem words pae kernelEnd mbi)) F)
    (hd : d ∈ F.dirs) (hi : i < pteCount) :
    kernelEntry (F.phys.entry d i) =
      kernelEntry ((kmainListed mem words pae kernelEnd mbi).phys.entry
        ((Pmm.initListed mem kernelEnd mbi).phys.free.headD 0) i) := by
  refine h.kernel
    (fun i => kernelEntry ((kmainListed mem words pae kernelEnd mbi).phys.entry
      ((Pmm.initListed mem kernelEnd mbi).phys.free.headD 0) i))
    (fun d' hd' i _ => ?_) d (Multiset.mem_coe.mpr hd) i hi
  have hdir := (List.mem_singleton.mp (Multiset.mem_coe.mp hd')).trans (kmain_pageDir ..)
  rw [hdir]
  rfl

/-- **The kernel's tables** are in every directory, and lead to the same frames. -/
theorem direct_spared (hr : Regular pae kernelEnd mbi) (hs : Suffices pae kernelEnd mbi)
    (h : Spared (pool (boot (kmainListed mem words pae kernelEnd mbi)))
    (boot (kmainListed mem words pae kernelEnd mbi)) F) (hd : d ∈ F.dirs) :
    DirectMap F.phys d ((Pmm.initListed mem kernelEnd mbi).phys.free.tail.take
      (calcNumPageTables (identityEnd pae kernelEnd mbi)))
      (identityEnd pae kernelEnd mbi) := by
  obtain ⟨hholds, henabled, hin⟩ := kmain_enabled mem words hr hs
  have hmaps := henabled.maps
  have hready := init_ready mem hr
  have hlen : calcNumPageTables (identityEnd pae kernelEnd mbi) ≤ 256 := by
    have hend := hr.heap
    refine calcNumPageTables_le _ ?_
    unfold identityMapEnd pdeSize
    omega
  generalize calcNumPageTables (identityEnd pae kernelEnd mbi) = n at hmaps hin hlen ⊢
  -- an entry that leads to a table of the kernel is the same in all directories
  have hentry : ∀ i t, i < pteCount →
      (kmainListed mem words pae kernelEnd mbi).phys.entry
        ((Pmm.initListed mem kernelEnd mbi).phys.free.headD 0) i =
        mkEntry t (pagePresent + pageRw) →
        F.phys.entry d i = mkEntry t (pagePresent + pageRw) := by
    intro i t hi heq
    have hk := kernel_spared h hd hi
    obtain ⟨hself, hpos⟩ := kernelEntry_tables t
    rw [heq, hself] at hk
    rw [← hk] at hpos ⊢
    unfold kernelEntry at *
    split
    · rfl
    · next hno => exact absurd (if_neg hno) hpos
  have hbound : ∀ i t, ((Pmm.initListed mem kernelEnd mbi).phys.free.tail.take n)[i]? = some t →
      i < n := fun i t ht => by
    have hlt := (List.getElem?_eq_some_iff.mp ht).1
    rw [List.length_take] at hlt
    omega
  refine ⟨fun i t ht => ?_, fun i t ht => ?_, hmaps.filled.same fun t ht => ?_⟩
  · have hi := hbound i t ht
    exact hentry i t (by unfold pteCount; omega) (hmaps.low i t ht)
  · have hi := hbound i t ht
    exact hentry _ t (by unfold higherHalfPde pteCount; omega) (hmaps.high i t ht)
  · have htaken := hin t (List.mem_cons_of_mem _ ht)
    have htal := (hholds.aligned hready htaken).1
    refine h.within.same t htal (taken_not_pool hr hs htaken ?_)
    rintro rfl
    -- the directory is the first frame, and not among those after it
    have hnodup := hready.nodup
    rw [kmain_pageDir] at ht
    cases hfree : (Pmm.initListed mem kernelEnd mbi).phys.free with
    | nil =>
        rw [hfree] at ht
        simp at ht
    | cons b rest =>
        rw [hfree] at ht hnodup
        exact (List.nodup_cons.mp hnodup).1 (List.mem_of_mem_take ht)

/-- **The kernel's mapping**: in every run and every directory, physical memory below the end of the
identity map is where it was at boot, at its own address and in the higher half; and every frame
that the allocator has or that a directory refers to, but for that of the kernel, is below. -/
theorem direct_run (hb : b.Preserved pae kernelEnd) (hr : Regular pae kernelEnd b.mbi)
    (hs : Suffices pae kernelEnd b.mbi)
    (hk : kmain fuel b.mem words pae kernelEnd b.info = some booted)
    (hrun : Reach next Allowed (boot booted) tr F) :
    (∀ d ∈ F.dirs, ∀ a < identityEnd pae kernelEnd b.mbi, F.phys.lookup d a = some (addr a) ∧
      F.phys.lookup d (Elf.kernelVirtualBase + a) = some (addr a)) ∧
    ∀ f, f ∈ F.phys.free ∨ f ∈ refsOf F.phys.mem ↑F.dirs 0 → f ≠ booted.pageDir →
      f + pageSize ≤ identityEnd pae kernelEnd b.mbi := by
  obtain rfl := BootImage.kmain_listed hb hr hk
  obtain ⟨hsane, hspared⟩ := spared_run (boot_sane b.mem words hr hs) hrun
  obtain ⟨hholds, henabled, hin⟩ := kmain_enabled b.mem words hr hs
  have hready := init_ready b.mem hr
  constructor
  · intro d hd a ha
    have hbase : Elf.kernelVirtualBase = higherHalfPde * pdeSize := rfl
    rw [hbase]
    refine (direct_spared hr hs hspared hd).lookup
      (fun t ht => (hholds.aligned hready (hin t (List.mem_cons_of_mem _ ht))).1) ?_ ha
    have hlen : calcNumPageTables (identityEnd pae kernelEnd b.mbi) <
        (Pmm.initListed b.mem kernelEnd b.mbi).phys.free.length := by
      unfold Suffices at hs
      rwa [init_free] at hs ⊢
    have hend := hr.heap
    have hstop : identityEnd pae kernelEnd b.mbi ≤ 2 ^ 30 := by
      unfold identityEnd identityMapEnd pageUp pdeSize pageSize
      omega
    rw [List.length_take, List.length_tail, Nat.min_eq_left (by omega)]
    unfold calcNumPageTables pdeSize
    omega
  · intro f hf hne
    have hpool : f ∈ pool (boot (kmainListed b.mem words pae kernelEnd b.mbi)) :=
      hf.elim (hsane.spaces.exact.free_in f) (hsane.spaces.exact.used_in f)
    have hbelow := henabled.below f ((List.mem_cons.mp hpool).resolve_left hne)
    have hmod := (mem_pool hr hs hpool).2
    have hstop : identityEnd pae kernelEnd b.mbi % pageSize = 0 := Nat.mul_mod_left ..
    unfold pageSize at *
    omega

/-- The screen is where `physToVirt` says. -/
theorem direct_spawn :
    ∃ fuel booted F, kmain fuel twoImage.mem (fun _ => 0) false 0x108000 twoImage.info =
      some booted ∧
      Reach next Allowed (boot booted) [.spawn] F ∧
        ∀ d ∈ F.dirs, F.phys.lookup d (Elf.kernelVirtualBase + vgaFrame) = some vgaFrame := by
  obtain ⟨fuel, hk⟩ := twoImage_kmain fun _ => 0
  have hdirect := direct_run (twoImage_preserved _ _) twoImage_regular twoImage_suffices hk
    (reach_spawn _)
  have hin : vgaFrame < identityEnd false 0x108000 twoImage.mbi := by
    rw [twoImage_mbi]
    decide
  exact ⟨fuel, _, _, hk, reach_spawn _, fun d hd => (hdirect.1 d hd vgaFrame hin).2⟩

/-- **The pages that a task can get**: in every run, outside of the trampoline's table, those above
the tables of the identity map that are not in its mirror. -/
theorem userPage_run (hb : b.Preserved pae kernelEnd) (hr : Regular pae kernelEnd b.mbi)
    (hs : Suffices pae kernelEnd b.mbi)
    (hk : kmain fuel b.mem words pae kernelEnd b.info = some booted)
    (hrun : Reach next Allowed (boot booted) tr F) (hd : d ∈ F.dirs) (hv : v < 2 ^ 32)
    (hne : pdeIdx v ≠ pdeIdx trampolineVaddr) :
    F.UserPage d v ↔ calcNumPageTables (identityEnd pae kernelEnd b.mbi) ≤ pdeIdx v ∧
      ¬ (higherHalfPde ≤ pdeIdx v ∧ pdeIdx v <
        higherHalfPde + calcNumPageTables (identityEnd pae kernelEnd b.mbi)) := by
  obtain rfl := BootImage.kmain_listed hb hr hk
  obtain ⟨-, hspared⟩ := spared_run (boot_sane b.mem words hr hs) hrun
  obtain ⟨-, henabled, -⟩ := kmain_enabled b.mem words hr hs
  have hk := kernel_spared hspared hd (pdeIdx_lt_of hv)
  have huser : F.UserPage d v ↔ kernelEntry (F.phys.entry d (pdeIdx v)) = 0 := by
    rw [kernelEntry_eq_zero]
    exact ⟨fun h => h.2.2, fun h => ⟨hd, hv, h⟩⟩
  rw [huser, hk]
  have hlen : calcNumPageTables (identityEnd pae kernelEnd b.mbi) <
      (Pmm.initListed b.mem kernelEnd b.mbi).phys.free.length := by
    unfold Suffices at hs
    rwa [init_free] at hs ⊢
  have hmaps := henabled.maps
  have habsent := henabled.absent _ (pdeIdx_lt_of hv)
  generalize calcNumPageTables (identityEnd pae kernelEnd b.mbi) = n at hmaps habsent hlen ⊢
  have htable : ∀ i < n, ∃ t, ((Pmm.initListed b.mem kernelEnd b.mbi).phys.free.tail.take n)[i]? =
      some t := fun i hi =>
    ⟨_, List.getElem?_eq_getElem (by rw [List.length_take, List.length_tail]; omega)⟩
  by_cases hlow : pdeIdx v < n
  · obtain ⟨t, ht⟩ := htable _ hlow
    obtain ⟨hself, hpos⟩ := kernelEntry_tables t
    rw [hmaps.low _ t ht, hself]
    exact iff_of_false hpos (by omega)
  · by_cases hhigh : higherHalfPde ≤ pdeIdx v ∧ pdeIdx v < higherHalfPde + n
    · obtain ⟨t, ht⟩ := htable (pdeIdx v - higherHalfPde) (by omega)
      obtain ⟨hself, hpos⟩ := kernelEntry_tables t
      have hentry := hmaps.high _ t ht
      rw [Nat.add_sub_cancel' hhigh.1] at hentry
      rw [hentry, hself]
      exact iff_of_false hpos fun h => h.2 hhigh
    · rw [habsent (by omega) (by omega) hne]
      exact iff_of_true rfl ⟨by omega, hhigh⟩

/-- The code page of a task, when the identity map ends at 4 MiB. -/
theorem userPage_code :
    ∃ fuel booted F, kmain fuel twoImage.mem (fun _ => 0) false 0x108000 twoImage.info =
      some booted ∧
      Reach next Allowed (boot booted) [.spawn] F ∧ ∀ d ∈ F.dirs, F.UserPage d userBase := by
  obtain ⟨fuel, hk⟩ := twoImage_kmain fun _ => 0
  refine ⟨fuel, _, _, hk, reach_spawn _, fun d hd => ?_⟩
  refine (userPage_run (twoImage_preserved _ _) twoImage_regular twoImage_suffices hk
    (reach_spawn _) hd
    (by decide) (by decide)).mpr ?_
  rw [twoImage_mbi]
  decide

end Family

end Doors
