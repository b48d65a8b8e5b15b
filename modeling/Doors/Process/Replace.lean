import Doors.Process.Exec
import Doors.Elf.Rollback

/-!
# Doors.Process.Replace

What a task has mapped after an `exec` that succeeds.

* `Ready.freePages`, `mapStackPages_loading` — the tracked pages of the old image
  go, the pages of the stack come;
* `load_slots` — a load fills the slots of its pages, and wipes the table of the lowest;
* `exec_replaces_iff` — the new image, in tables of the user, is all that is mapped exactly
  when none of the old one is out of the reach of the three, and the image and the stack
  are out of each other's.
-/

namespace Doors

open Run Memory Elf

/-- A directory that can be loaded into: its entries in `RI` are absent or tables of the
user, and the free frames are counted. -/
structure Ready (dir : Nat) (RI : Nat → Prop) (T : Tables) (st : Phys) : Prop where
  ok : PagesOk dir RI [] T st
  pool : ∀ b ∈ st.free, b ≠ 0 ∧ st.Counted b

/-- A page of the directory that the task can use. -/
def UserPte (dir : Nat) (st : Phys) (q : Nat × Nat) (g : Nat) : Prop :=
  present (st.entry dir q.1) = true ∧ user (st.entry dir q.1) = true ∧
    present (st.entry (addr (st.entry dir q.1)) q.2) = true ∧
      addr (st.entry (addr (st.entry dir q.1)) q.2) = g

/-- `load` clears table `i`. -/
def Elf.File.Wipes (F : File) (i : Nat) : Prop :=
  ∃ low, computeElfRange F F.headers none = .ok (some low) ∧ i = pdeIdx (alignDown low)

/-- The pages that `load` lists. -/
def Elf.File.Lists (F : File) (v : Nat) : Prop := ∃ o ∈ F.loaded F.headers, v ∈ F.pages o

section

variable {dir kernelDir v n : Nat} {RI U : Nat → Prop} {T T₀ T' : Tables} {F : File}
  {ms ms' : List MappedPage} {m : MappedPage}
  {st st' st₀ : Phys} {q : Nat × Nat} {g : Nat}

/-- The pages that the tables list are those of the directory. -/
theorem userPte_iff (hS : Shows dir T st.mem) (hq : q ∈ slots) :
    UserPte dir st q g ↔ T.map q = some g := by
  obtain ⟨i, j⟩ := q
  obtain ⟨hi, hj⟩ := mem_slots.mp hq
  constructor
  · intro h
    obtain ⟨hp, hu, hp', ha'⟩ := h
    have ht := (hS.tab i hi _).mpr ⟨hp, hu, rfl⟩
    exact (hS.map i _ ht j hj g).mpr ⟨hp', ha'⟩
  · intro h
    cases ht : T.tab i with
    | none => simp [hS.none i j ht] at h
    | some t =>
        obtain ⟨hp, hu, ha⟩ := (hS.tab i hi t).mp ht
        obtain ⟨hp', ha'⟩ := (hS.map i t ht j hj g).mp h
        have haddr : addr (st.entry dir i) = t := ha
        refine ⟨hp, hu, ?_, ?_⟩
        · rw [haddr]
          exact hp'
        · rw [haddr]
          exact ha'

/-- A user entry that is present is one of the tables. -/
theorem userEntry_tab {i : Nat} (hS : Shows dir T st.mem) (hi : i < pteCount)
    (hu : UserEntry dir st i)
    (hp : present (st.entry dir i) = true) : T.tab i ≠ none := by
  rw [(hS.tab i hi _).mpr ⟨hp, hu hp, rfl⟩]
  simp

/-- The tables a program may use are user tables or none. -/
theorem Ready.userEntry {i : Nat} (h : Ready dir RI T st) (hi : i < pteCount) (hRI : RI i) :
    UserEntry dir st i := by
  intro hp
  obtain ⟨t, ht⟩ := Option.ne_none_iff_exists'.mp (h.ok.entries i hi hRI hp)
  exact ((h.ok.shows.tab i hi t).mp ht).2.1

/-! ## the old image -/

/-- One page is unmapped. -/
theorem Ready.unmapPage (h : Ready dir RI T st) (hlt : v < 2 ^ 32) (hv : RI (pdeIdx v)) :
    ∃ T', Ready dir RI T' (st.unmapPage dir v) ∧ ∀ q g, T'.map q = some g ↔
      T.map q = some g ∧ q ≠ slotOf v := by
  have hi := pdeIdx_lt hlt
  obtain ⟨T', hU⟩ := unmapPage_tables h.ok.inv h.ok.shows hi (h.ok.entries _ hi hv)
  have hw := hU.within (fun _ => True) trivial (fun _ _ => trivial) fun _ _ => trivial
  refine ⟨T', ⟨⟨hU.inv, hU.shows, fun k hk hRI hp => ?_, by simp, by simp, by simp⟩,
      fun b hb => ?_⟩, fun q g => ?_⟩
  · rcases hU.words k hk with hword | ⟨hword, -⟩
    · obtain ⟨t, ht⟩ := Option.ne_none_iff_exists'.mp (h.ok.entries k hk hRI (hword ▸ hp))
      have htab := (h.ok.shows.tab k hk t).mp ht
      rw [← hword] at htab
      rw [(hU.shows.tab k hk t).mpr htab]
      simp
    · rw [hword] at hp
      simp [present] at hp
  · rw [counted_congr hw]
    rcases hw.free b hb with hb | hb
    · exact h.pool b hb
    · exact hb.2
  · by_cases hq : q = slotOf v
    · have hslot : T'.map (slotOf v) = none := hU.slot
      simp [hq, hslot]
    · rw [hU.other q hq]
      simp [hq]

/-- One more page of the array. -/
theorem freePageArray_succ (vs : Nat → Nat) (st : Phys) :
    freePageArray (n + 1) vs dir st = (freePageArray n vs dir st).unmapPage dir (vs n) := by
  simp [freePageArray, List.range_succ]

/-- **`freePageArray`** empties the slots of the pages it is given, and no other. -/
theorem Ready.freePages {vs : Nat → Nat} (h : Ready dir RI T st)
    (hvs : ∀ i < n, vs i < 2 ^ 32 ∧ RI (pdeIdx (vs i))) :
    ∃ T', Ready dir RI T' (freePageArray n vs dir st) ∧
      ∀ q g, T'.map q = some g ↔ T.map q = some g ∧ ∀ i < n, q ≠ slotOf (vs i) := by
  induction n with
  | zero => exact ⟨T, h, by simp⟩
  | succ n ih =>
      obtain ⟨T₁, h₁, hmap₁⟩ := ih fun i hi => hvs i (Nat.lt_succ_of_lt hi)
      obtain ⟨hlt, hRI⟩ := hvs n (Nat.lt_succ_self n)
      obtain ⟨T₂, h₂, hmap₂⟩ := h₁.unmapPage hlt hRI
      rw [freePageArray_succ]
      refine ⟨T₂, h₂, fun q g => ?_⟩
      rw [hmap₂ q g, hmap₁ q g, and_assoc]
      constructor
      · rintro ⟨hq, hold, hnew⟩
        refine ⟨hq, fun i hi => ?_⟩
        by_cases hin : i = n
        · exact hin ▸ hnew
        · exact hold i (by omega)
      · rintro ⟨hq, hall⟩
        exact ⟨hq, fun i hi => hall i (Nat.lt_succ_of_lt hi), hall n (Nat.lt_succ_self n)⟩

/-! ## the stack -/

/-- The stack is in the address space. -/
theorem stackPage_lt (n : Nat) : stackPage n < 2 ^ 32 := by
  unfold stackPage Scheduler.userStackVaddr
  omega

/-- The stack is made of pages. -/
theorem stackPage_page (n : Nat) : stackPage n % Memory.pageSize = 0 := by
  unfold stackPage Scheduler.userStackVaddr Scheduler.pageSize Memory.pageSize
  omega

/-- The pages of the stack are apart. -/
theorem stackPage_inj {i : Nat} (hi : i < Scheduler.userStackPages)
    (hn : n < Scheduler.userStackPages)
    (h : stackPage i = stackPage n) : i = n := by
  unfold stackPage Scheduler.userStackVaddr Scheduler.pageSize Scheduler.userStackPages at *
  omega

/-- The pages of the stack, with their frames. -/
def stackPages (frames : List Nat) : List MappedPage :=
  frames.mapIdx fun i phys => ⟨stackPage i, phys⟩

/-- The pages of the stack. -/
theorem mem_stackPages {frames : List Nat} :
    m ∈ stackPages frames ↔ ∃ i, frames[i]? = some m.phys ∧ m.vaddr = stackPage i := by
  rw [stackPages, List.mem_mapIdx]
  constructor
  · rintro ⟨i, hi, rfl⟩
    exact ⟨i, List.getElem?_eq_getElem hi, rfl⟩
  · rintro ⟨i, hphys, hvaddr⟩
    obtain ⟨hi, heq⟩ := List.getElem?_eq_some_iff.mp hphys
    refine ⟨i, hi, ?_⟩
    rw [heq, ← hvaddr]

/-- The pages of the stack, by their number. -/
theorem exists_stackPages {frames : List Nat} {phys : Nat → Nat}
    (hlen : frames.length = Scheduler.userStackPages)
    (hphys : ∀ n < Scheduler.userStackPages, phys n = frames.getD n 0) (Q : Nat → Nat → Prop) :
    (∃ m ∈ stackPages frames, Q m.vaddr m.phys) ↔
      ∃ n < Scheduler.userStackPages, Q (stackPage n) (phys n) := by
  have hframe : ∀ n < Scheduler.userStackPages, frames[n]? = some (phys n) := by
    intro n hn
    rw [hphys n hn, List.getD_eq_getElem?_getD, List.getElem?_eq_getElem (hlen.symm ▸ hn)]
    rfl
  constructor
  · rintro ⟨m, hm, hQ⟩
    obtain ⟨n, hn, hv⟩ := mem_stackPages.mp hm
    have hlt : n < Scheduler.userStackPages := hlen ▸ (List.getElem?_eq_some_iff.mp hn).1
    have hp : m.phys = phys n := Option.some.inj (hn.symm.trans (hframe n hlt))
    rw [hv, hp] at hQ
    exact ⟨n, hlt, hQ⟩
  · rintro ⟨n, hn, hQ⟩
    exact ⟨⟨stackPage n, phys n⟩, mem_stackPages.mpr ⟨n, hframe n hn, rfl⟩, hQ⟩

/-- A directory that is ready can be loaded into. -/
theorem Ready.loading (h : Ready dir RI T st) : Loading dir RI (fun _ => True) T st [] T st :=
  ⟨h.ok, fun b hb => ⟨trivial, h.pool b hb⟩, fun _ _ _ =>
    trivial, by simp, fun _ _ => rfl, Within.refl _ st, fun _ _ _ _ => rfl⟩

/-- After loading it is ready again. -/
theorem Elf.Loading.ready (h : Loading dir RI U T₀ st₀ ms T st) : Ready dir RI T st :=
  ⟨⟨h.ok.inv, h.ok.shows, h.ok.entries, by simp, by simp, by simp⟩, fun b hb => (h.free b hb).2⟩

/-- What is in a slot after some pages are mapped. -/
theorem Elf.Loading.map_iff (h : Loading dir RI U T₀ st₀ ms T st) :
    T.map q = some g ↔ (∃ m ∈ ms, q = slotOf m.vaddr ∧ m.phys = g) ∨
      (T₀.map q = some g ∧ ∀ m ∈ ms, q ≠ slotOf m.vaddr) := by
  constructor
  · intro hq
    by_cases hin : ∃ m ∈ ms, q = slotOf m.vaddr
    · obtain ⟨m, hm, rfl⟩ := hin
      exact .inl ⟨m, hm, rfl, Option.some.inj ((h.ok.slot m hm).symm.trans hq)⟩
    · have hout : ∀ m ∈ ms, q ≠ slotOf m.vaddr := fun m hm hqm => hin ⟨m, hm, hqm⟩
      exact .inr ⟨h.rest q hout ▸ hq, hout⟩
  · intro hq
    rcases hq with ⟨m, hm, rfl, rfl⟩ | ⟨hq, hout⟩
    · exact h.ok.slot m hm
    · rw [h.rest q hout]
      exact hq

/-- **`mapUserStackPages`** maps the pages of the stack, and leaves the other slots. -/
theorem mapStackPages_loading {frames : List Nat} (h : Ready dir RI T st)
    (hwin : ∀ i < Scheduler.userStackPages, RI (pdeIdx (stackPage i)))
    (hn : n ≤ Scheduler.userStackPages)
    (hmap : mapStackPages dir n st = (some frames, st')) :
    frames.length = n ∧ ∃ T', Loading dir RI (fun _ => True) T st (stackPages frames) T' st' := by
  induction n generalizing frames st' with
  | zero =>
      cases hmap
      exact ⟨rfl, T, h.loading⟩
  | succ n ih =>
      unfold mapStackPages at hmap
      split at hmap
      · simp at hmap
      · next frames₁ st₁ hmap₁ =>
          obtain ⟨hlen, T₁, hL⟩ := ih (Nat.le_of_succ_le hn) hmap₁
          split at hmap
          · simp at hmap
          · next phys st₂ hpage =>
              cases hmap
              unfold allocAndMapUserPage at hpage
              split at hpage
              · simp at hpage
              · next a st₃ halloc =>
                  split at hpage
                  · simp at hpage
                  · next st₄ hmapped =>
                      cases hpage
                      have hnot : stackPage n ∉ (stackPages frames₁).map (·.vaddr) := by
                        intro hin
                        obtain ⟨m, hm, heq⟩ := List.mem_map.mp hin
                        obtain ⟨i, hi, hvaddr⟩ := mem_stackPages.mp hm
                        have hlt := (List.getElem?_eq_some_iff.mp hi).1
                        have := stackPage_inj (by omega) (by omega) (hvaddr.symm.trans heq)
                        omega
                      have hpages : stackPages (frames₁ ++ [phys]) =
                          stackPages frames₁ ++ [⟨stackPage n, phys⟩] := by
                        simp [stackPages, List.mapIdx_append, hlen]
                      rw [hpages]
                      exact ⟨by simp [hlen], hL.map trivial (fun _ _ _ => trivial)
                        ⟨stackPage_page n, stackPage_lt n, hwin n hn⟩ hnot halloc hmapped⟩

/-! ## the new image -/

/-- Clearing takes no frame when there is none. -/
theorem clearPageTable_empty (h : st.free = []) : (st.clearPageTable dir v).free = [] := by
  unfold Phys.clearPageTable
  split
  · dsimp only
    split
    · next st₁ halloc =>
        obtain ⟨rfl, -⟩ := allocFrame_none halloc
        rw [checkPhysAddr_free]
        exact h
    · next f st₁ halloc =>
        have hfree := (allocFrame_some halloc).1
        rw [checkPhysAddr_free, h] at hfree
        contradiction
  · exact h

/-- Without free frames no page is mapped. -/
theorem keeps_empty (dir kernelDir : Nat) :
    Keeps (pagesOf dir kernelDir) (fun _ => True) fun ms st => ms = [] ∧ st.free = [] where
  refuse ms st st₁ hJ halloc := by
    obtain ⟨rfl, -⟩ := allocFrame_none halloc
    exact hJ
  map ms st st₁ st₂ v phys hJ _ _ halloc _ := by
    have hfree := (allocFrame_some halloc).1
    rw [hJ.2] at hfree
    contradiction
  fail ms st st₁ st₂ v phys hJ _ halloc _ := by
    have hfree := (allocFrame_some halloc).1
    rw [hJ.2] at hfree
    contradiction
  store ms st m off bs hJ hm _ := by
    rw [hJ.1] at hm
    contradiction

/-- **A load that succeeds** fills the slots of the pages it lists, and empties the
others of the table it clears. -/
theorem load_slots {r : LoadResult} (h : Ready dir RI T st) (hpriv : PrivatePages dir st F)
    (hload : load (pagesOf dir kernelDir) F st = .ok (some r, st')) :
    (∀ v, v ∈ r.pages.map (·.vaddr) ↔ F.Lists v) ∧ (∀ m ∈ r.pages, m.vaddr % Memory.pageSize = 0) ∧
      ∃ T', Shows dir T' st'.mem ∧ ∀ q g, T'.map q = some g ↔
        (∃ m ∈ r.pages, q = slotOf m.vaddr ∧ m.phys = g) ∨
        ((T.map q = some g ∧ ¬ F.Wipes q.1) ∧ ∀ m ∈ r.pages, q ≠ slotOf m.vaddr) := by
  obtain ⟨-, hres, -⟩ | ⟨-, done, ms, st₁, hatt, hend⟩ := load_cases hload
  · contradiction
  obtain ⟨rfl, hr, rfl⟩ | ⟨-, hres, -⟩ := hend
  · obtain ⟨low, T₁, T', hlow, hloop, hL, -, -, hcases⟩ :=
      attempt_loading h.ok.inv h.ok.shows h.pool hpriv hatt
    have hpages : r.pages = ms := by rw [Option.some.inj hr]
    have hlists : ∀ v, v ∈ ms.map (·.vaddr) ↔ F.Lists v := by
      intro v
      rw [loadSegments_lists hloop v]
      simp [File.Lists]
    rw [hpages]
    refine ⟨hlists, hL.ok.aligned, T', hL.ok.shows, fun q g => ?_⟩
    have hwiped : T₁.map q = some g ↔ T.map q = some g ∧ ¬ F.Wipes q.1 := by
      rcases hcases with ⟨rfl, -, hmax⟩ | ⟨l, rfl, hC⟩
      · -- no segment, so no table is cleared
        have hno : ¬ F.Wipes q.1 := by
          rintro ⟨l, hl, -⟩
          obtain ⟨o, ho, hlowest⟩ := (computeElfRange_low hl).resolve_left (by simp)
          have hbelow :=
            validSegment_below (value_lt F _ 4) (value_lt F _ 4) (loadSegments_valid hloop o ho)
          have := hmax l (Except.ok.inj (hlow.symm.trans hl))
          unfold kernelVirtualBase at hbelow
          omega
        simp [hno]
      · have hfree : st.free ≠ [] := by
          intro hnil
          obtain ⟨o, ho, -⟩ := (computeElfRange_low hlow).resolve_left (by simp)
          have hstart : (start (pagesOf dir kernelDir) (some l) st).free = [] := by
            unfold start
            dsimp only
            split
            · exact clearPageTable_empty hnil
            · exact hnil
          have hnone :=
            (loadSegments_keeps (keeps_empty dir kernelDir) ⟨rfl, hstart⟩
            (fun _ _ _ _ => trivial) hloop).1
          have hl : F.Loads o := by simpa using (List.mem_filter.mp ho).2
          obtain ⟨v, hv⟩ :=
            List.exists_mem_of_ne_nil _ (pages_ne_nil hl (loadSegments_valid hloop o ho))
          have hin := (hlists v).mpr ⟨o, ho, hv⟩
          rw [hnone] at hin
          contradiction
        have hwipes : F.Wipes q.1 ↔ q.1 = pdeIdx (alignDown l) := by
          constructor
          · rintro ⟨l', hl', hq⟩
            rw [hq, Option.some.inj (Except.ok.inj (hlow.symm.trans hl'))]
          · exact fun hq => ⟨l, hlow, hq⟩
        rw [hwipes]
        by_cases hq : q.1 = pdeIdx (alignDown l)
        · simp [hC.gone hfree q hq, hq]
        · simp [hC.other q hq, hq]
    rw [hL.map_iff, hwiped]
  · contradiction

end

/-! ## exec -/

/-- A user task whose code is no raw page: its directory is well formed, and its pages,
and those of the stack, are in tables of the user or in none. -/
structure UserTask (t : Task) (T : Tables) (st : Phys) : Prop where
  inv : Inv t.pageDir T st
  shows : Shows t.pageDir T st.mem
  pool : ∀ b ∈ st.free, b ≠ 0 ∧ st.Counted b
  elf : ∀ n < t.elfPageCount, t.elfVaddr n < 2 ^ 32 ∧ UserEntry t.pageDir st (pdeIdx (t.elfVaddr n))
  stack : ∀ n < t.userStackPageCount, t.userStackVaddr n < 2 ^ 32 ∧
    UserEntry t.pageDir st (pdeIdx (t.userStackVaddr n))
  window : ∀ n < Scheduler.userStackPages, UserEntry t.pageDir st (pdeIdx (stackPage n))
  code : t.userCodeBuf = 0

/-- Every page of the old image is tracked, or is replaced by the stack or the new
image, or goes with the table that `load` clears; and the new image leaves the stack
alone. -/
structure Replaceable (t : Task) (F : File) (st : Phys) : Prop where
  old : ∀ q ∈ slots, ∀ g, UserPte t.pageDir st q g →
    (∃ n < t.elfPageCount, q = slotOf (t.elfVaddr n)) ∨
      (∃ n < t.userStackPageCount, q = slotOf (t.userStackVaddr n)) ∨
      (∃ n < Scheduler.userStackPages, q = slotOf (stackPage n)) ∨
        (∃ v, F.Lists v ∧ q = slotOf v) ∨ F.Wipes q.1
  stack : ∀ n < Scheduler.userStackPages, ¬ F.Lists (stackPage n) ∧ ¬ F.Wipes (pdeIdx (stackPage n))

namespace Kernel

/-- What the current task can use is the pages that it lists, and those of a stack of
its own. -/
structure Replaced (k : Kernel) : Prop where
  pages : ∀ q ∈ slots, ∀ g, UserPte k.sched.cur.pageDir k.phys q g ↔
    (∃ n < k.sched.cur.elfPageCount, q = slotOf (k.sched.cur.elfVaddr n) ∧
      k.sched.cur.elfPhys n = g) ∨
      ∃ n < Scheduler.userStackPages, q = slotOf (stackPage n) ∧ k.sched.cur.userStackPhys n = g
  apart : ∀ n < k.sched.cur.elfPageCount, ∀ i < Scheduler.userStackPages,
    k.sched.cur.elfVaddr n ≠ stackPage i

variable {k k' : Kernel} {modIdx : Int} {phys : Phys} {T : Tables}

/-- An `exec` that has loaded the module. -/
theorem execMemory_loaded {stackPhys : Nat → Nat} {elf : ElfResult}
    (h : k.execMemory modIdx = .ok (.loaded stackPhys elf, phys)) :
    ∃ F frames st r, k.modules[modIdx.toNat]? = some F ∧
      mapStackPages k.sched.cur.pageDir Scheduler.userStackPages (dropImage k.sched.cur k.phys) =
        (some frames, st) ∧
      load (pagesOf k.sched.cur.pageDir k.sched.kernelPageDir) F st = .ok (some r, phys) ∧
      stackPhys = (frames.getD · 0) ∧ elf = elfResult r := by
  unfold execMemory at h
  dsimp only at h
  split at h
  · simp at h
  · split at h
    · simp at h
    · next F hF =>
        obtain ⟨valid, -, h⟩ := Run.bind_eq_ok.mp h
        cases valid with
        | false => cases h
        | true =>
            simp only [not_true_eq_false, if_false] at h
            split at h
            · cases h
            · next frames st hst =>
                obtain ⟨⟨res, st'⟩, hload, h⟩ := Run.bind_eq_ok.mp h
                cases res with
                | none => cases h
                | some r =>
                    obtain ⟨hout, rfl⟩ := Prod.mk.inj (Except.ok.inj h)
                    cases hout
                    exact ⟨F, frames, st, r, hF, hst, hload, rfl, rfl⟩

/-- The calls that return 0, and what the task records. -/
theorem exec_loaded (h : k.exec modIdx = .ok (some 0, k')) :
    ∃ stackPhys elf, k.execMemory modIdx = .ok (.loaded stackPhys elf, k'.phys) ∧
      k'.sched.cur.pageDir = k.sched.cur.pageDir ∧ k'.sched.cur.elfPageCount = elf.numPages ∧
      (∀ n < elf.numPages, k'.sched.cur.elfVaddr n = elf.vaddr n ∧
        k'.sched.cur.elfPhys n = elf.phys n) ∧
      ∀ n < Scheduler.userStackPages, k'.sched.cur.userStackPhys n = stackPhys n := by
  obtain ⟨out, phys, sched, hmem, hexec, rfl⟩ := exec_eq h
  unfold Sched.exec at hexec
  split at hexec
  · simp at hexec
  · split at hexec
    · simp at hexec
    · split at hexec
      · simp at hexec
      · split at hexec
        · simp at hexec
        · simp at hexec
        · obtain ⟨s₁, -, hexec⟩ := bind_eq_ok.mp hexec
          simp at hexec
        · obtain ⟨s₁, -, hexec⟩ := bind_eq_ok.mp hexec
          simp at hexec
        · next stackPhys elf _ =>
            obtain ⟨-, rfl⟩ := Prod.mk.inj (Except.ok.inj hexec)
            refine ⟨stackPhys, elf, hmem, ?_, ?_, fun n hn => ?_, fun n hn => ?_⟩
            · simp [Sched.execFrame, Sched.trackElfPages, Sched.mapUserStackPages, Sched.execDrop,
                Sched.execForget, Sched.cur]
            · simp [Sched.execFrame, Sched.trackElfPages, Sched.mapUserStackPages, Sched.execDrop,
                Sched.execForget, Sched.cur]
            · simp [Sched.execFrame, Sched.trackElfPages, Sched.mapUserStackPages, Sched.execDrop,
                Sched.execForget, Sched.cur, hn]
            · simp [Sched.execFrame, Sched.trackElfPages, Sched.mapUserStackPages, Sched.execDrop,
                Sched.execForget, Sched.cur, hn]

/-- The pages of a load as the task lists them. -/
theorem elfResult_pages {r : LoadResult} {Q : Nat → Nat → Prop} :
    (∃ n < (elfResult r).numPages, Q ((elfResult r).vaddr n) ((elfResult r).phys n)) ↔
      ∃ m ∈ r.pages, Q m.vaddr m.phys := by
  constructor
  · rintro ⟨n, hn, hQ⟩
    have hn' : n < r.pages.length := hn
    refine ⟨r.pages[n], List.getElem_mem hn', ?_⟩
    simpa [elfResult, List.getD, hn'] using hQ
  · rintro ⟨m, hm, hQ⟩
    obtain ⟨n, hn, rfl⟩ := List.getElem_of_mem hm
    exact ⟨n, hn, by simpa [elfResult, List.getD, hn] using hQ⟩

/-- What is in a slot after an `exec` that has loaded the module. -/
theorem exec_slots {F : File} (hF : k.modules[modIdx.toNat]? = some F)
    (ht : UserTask k.sched.cur T k.phys)
    (hpriv : PrivatePages k.sched.cur.pageDir k.phys F) (h : k.exec modIdx = .ok (some 0, k')) :
    (∀ v, (∃ n < k'.sched.cur.elfPageCount, v = k'.sched.cur.elfVaddr n) ↔ F.Lists v) ∧
      ∀ q ∈ slots, ∀ g,
      UserPte k'.sched.cur.pageDir k'.phys q g ↔
        (∃ n < k'.sched.cur.elfPageCount, q = slotOf (k'.sched.cur.elfVaddr n) ∧
          k'.sched.cur.elfPhys n = g) ∨
          ((¬ ∃ v, F.Lists v ∧ q = slotOf v) ∧ ¬ F.Wipes q.1 ∧
            ((∃ n < Scheduler.userStackPages, q = slotOf (stackPage n) ∧
                k'.sched.cur.userStackPhys n = g) ∨
              (UserPte k.sched.cur.pageDir k.phys q g ∧
                (¬ ∃ n < k.sched.cur.elfPageCount, q = slotOf (k.sched.cur.elfVaddr n)) ∧
                (¬ ∃ n < k.sched.cur.userStackPageCount,
                  q = slotOf (k.sched.cur.userStackVaddr n)) ∧
                ¬ ∃ n < Scheduler.userStackPages, q = slotOf (stackPage n)))) := by
  obtain ⟨stackPhys, elf, hmem, hdir, hcount, helf, hphys⟩ := exec_loaded h
  obtain ⟨F', frames, st, r, hF', hst, hload, rfl, rfl⟩ := execMemory_loaded hmem
  obtain rfl : F' = F := Option.some.inj (hF'.symm.trans hF)
  have hstart : Ready k.sched.cur.pageDir (UserEntry k.sched.cur.pageDir k.phys) T k.phys :=
    ⟨⟨ht.inv, ht.shows, fun i hi hu hp => userEntry_tab ht.shows hi hu
        hp, by simp, by simp, by simp⟩, ht.pool⟩
  -- the old image goes, and the stack comes
  obtain ⟨T₁, h₁, hmap₁⟩ := hstart.freePages ht.elf
  obtain ⟨T₂, h₂, hmap₂⟩ := h₁.freePages ht.stack
  have hdrop : dropImage k.sched.cur k.phys =
    freePageArray k.sched.cur.userStackPageCount k.sched.cur.userStackVaddr
      k.sched.cur.pageDir (freePageArray k.sched.cur.elfPageCount k.sched.cur.elfVaddr
        k.sched.cur.pageDir k.phys) := by
    simp [dropImage, ht.code]
  rw [hdrop] at hst
  obtain ⟨hlen, T₃, hL⟩ := mapStackPages_loading h₂ ht.window (Nat.le_refl _) hst
  have hready := hL.ready
  have hpriv' : PrivatePages k.sched.cur.pageDir st F' :=
    ⟨fun low hlow => hready.userEntry (pdeIdx_lt (computeElfRange_lt hlow)) (hpriv.1 low hlow),
      fun o ho v hv => hready.userEntry (pdeIdx_lt (segmentPages_lt hv).2) (hpriv.2 o ho v hv)⟩
  obtain ⟨hlists, hal, T₄, hS₄, hmap₄⟩ := load_slots hready hpriv' hload
  have hpages : ∀ Q : Nat → Nat → Prop,
    (∃ n < k'.sched.cur.elfPageCount, Q (k'.sched.cur.elfVaddr n) (k'.sched.cur.elfPhys n)) ↔
      ∃ m ∈ r.pages, Q m.vaddr m.phys := by
    intro Q
    rw [← elfResult_pages, hcount]
    refine exists_congr fun n => and_congr_right fun hn => ?_
    rw [(helf n hn).1, (helf n hn).2]
  refine ⟨fun v => ?_, fun q hq g => ?_⟩
  · rw [hpages fun v' _ => v = v', ← hlists v, List.mem_map]
    exact exists_congr fun m => and_congr_right fun _ => eq_comm
  · have hlisted : (∀ m ∈ r.pages, q ≠ slotOf m.vaddr) ↔ ¬ ∃ v, F'.Lists v ∧ q = slotOf v := by
      simp only [← hlists, List.mem_map]
      constructor
      · rintro hall ⟨v, ⟨m, hm, rfl⟩, heq⟩
        exact hall m hm heq
      · exact fun hno m hm heq => hno ⟨_, ⟨m, hm, rfl⟩, heq⟩
    have hstack : (∃ m ∈ stackPages frames, q = slotOf m.vaddr ∧ m.phys = g) ↔
        ∃ n < Scheduler.userStackPages, q = slotOf (stackPage n) ∧
          k'.sched.cur.userStackPhys n = g :=
      exists_stackPages hlen hphys fun v p => q = slotOf v ∧ p = g
    have hwindow : (∀ m ∈ stackPages frames, q ≠ slotOf m.vaddr) ↔
        ¬ ∃ n < Scheduler.userStackPages, q = slotOf (stackPage n) := by
      rw [← exists_stackPages hlen hphys fun v _ => q = slotOf v]
      simp only [not_exists, not_and, ne_eq]
    rw [hdir, userPte_iff hS₄ hq, userPte_iff ht.shows hq, hmap₄ q g, hL.map_iff, hmap₂ q g,
      hmap₁ q g, hstack, hwindow, hlisted,
      hpages fun v p => q = slotOf v ∧ p = g]
    refine or_congr Iff.rfl ?_
    constructor
    · rintro ⟨⟨hpage | ⟨⟨⟨hold, helf⟩, hout⟩, hwin⟩, hwipes⟩, hno⟩
      · exact ⟨hno, hwipes, .inl hpage⟩
      · exact ⟨hno, hwipes,
          .inr ⟨hold, fun ⟨n, hn, hq⟩ => helf n hn hq, fun ⟨n, hn, hq⟩ => hout n hn hq, hwin⟩⟩
    · rintro ⟨hno, hwipes, hpage | ⟨hold, helf, hout, hwin⟩⟩
      · exact ⟨⟨.inl hpage, hwipes⟩, hno⟩
      · exact ⟨⟨.inr ⟨⟨⟨hold, fun n hn hq => helf ⟨n, hn, hq⟩⟩, fun n hn hq => hout ⟨n, hn, hq⟩⟩,
              hwin⟩, hwipes⟩, hno⟩

/-- A page has a slot. -/
theorem slotOf_mem {v : Nat} (hv : v < 2 ^ 32) : slotOf v ∈ slots :=
  mem_slots.mpr ⟨pdeIdx_lt hv, pteIdx_lt v⟩

/-- What a file lists are pages. -/
theorem lists_page {F : File} {v : Nat} (h : F.Lists v) : v % Memory.pageSize = 0 := by
  obtain ⟨o, -, hv⟩ := h
  exact (segmentPages_lt hv).1

/-- Whether `exec` returns 0, and what of `k` is seen after it. -/
def after {α : Type} (r : Except Stop (Option Int × Kernel)) (see : Kernel → α) : Option α :=
  match r with
  | .ok (some 0, k) => some (see k)
  | _ => none

/-- A fixed run that was evaluated. -/
theorem after_eq {α : Type} {r : Except Stop (Option Int × Kernel)} {see : Kernel → α} {a : α}
    (h : after r see = some a) :
    ∃ k', r = .ok (some 0, k') ∧ see k' = a := by
  unfold after at h
  split at h
  · next k' => exact ⟨k', rfl, Option.some.inj h⟩
  · contradiction

/-- A task of the small machine, without a page of its own. -/
def firstTask : Kernel where
  sched := { tasks := fun _ => { pageDir := 0x2000 }, taskCount := 1, kernelPageDir := 0x1000 }
  phys := smallMachine ((List.range 9).map fun i => 0x20000 + i * 0x1000)
  modules := [program 0x10000000 0x1008]

/-- The entries of the directory without a kernel table. -/
theorem firstTask_userEntry {i : Nat} (hi : i < pteCount) (hk : kernelWord (0x1000 + 4 * i) = 0) :
    UserEntry 0x2000 firstTask.phys i := by
  intro hp
  have hentry : firstTask.phys.entry 0x2000 i = 0 := (smallMachine_entry _ hi).2.trans hk
  rw [hentry] at hp
  simp [present] at hp

/-- The task has no page yet. -/
theorem firstTask_user : UserTask firstTask.sched.cur noTables firstTask.phys := by
  have hfree : ∀ b ∈ firstTask.phys.free, b % Memory.pageSize = 0 ∧ b < 2 ^ 32 ∧ b ≠ 0 ∧
    b / Memory.pageSize < 1024 := by decide
  refine ⟨noTables_inv rfl (by decide) (by decide) fun b hb => ⟨(hfree b hb).1, (hfree b hb).2.1⟩,
    noTables_shows fun i hi => ?_,
    fun b hb => (hfree b hb).2.2, ?_, ?_, fun n hn => ?_, rfl⟩
  · have hentry : firstTask.phys.entry 0x2000 i = kernelWord (0x1000 + 4 * i) :=
      (smallMachine_entry _ hi).2
    show ¬ (present (firstTask.phys.entry 0x2000 i) = true ∧
      user (firstTask.phys.entry 0x2000 i) = true)
    rw [hentry]
    exact kernelWord_supervisor hi
  · intro n hn
    exact absurd hn (Nat.not_lt_zero n)
  · intro n hn
    exact absurd hn (Nat.not_lt_zero n)
  · refine firstTask_userEntry (pdeIdx_lt (stackPage_lt n)) ?_
    have hwords : ∀ n < Scheduler.userStackPages,
      kernelWord (0x1000 + 4 * pdeIdx (stackPage n)) = 0 := by decide
    exact hwords n hn

/-- The pages of the program, and the table that loading clears. -/
theorem program_pages :
    (∀ v, (program 0x10000000 0x1008).Lists v ↔ v = 0x10000000 ∨ v = 0x10001000) ∧
    ∀ i, (program 0x10000000 0x1008).Wipes i ↔ i = 64 := by
  have hloaded : (program 0x10000000 0x1008).loaded (program 0x10000000 0x1008).headers = [52] := by
    decide +kernel
  have hpages : (program 0x10000000 0x1008).pages 52 = [0x10000000, 0x10001000] := by decide +kernel
  have hrange : computeElfRange (program 0x10000000 0x1008)
      (program 0x10000000 0x1008).headers none = .ok (some 0x10000000) := by
    decide +kernel
  constructor
  · intro v
    simp [File.Lists, hloaded, hpages]
  · intro i
    unfold File.Wipes
    rw [hrange]
    constructor
    · rintro ⟨low, hlow, rfl⟩
      rw [← Option.some.inj (Except.ok.inj hlow)]
      decide
    · rintro rfl
      exact ⟨0x10000000, rfl, by decide⟩

/-- A child of a fork: it shares its image, the pages 0xAFC00000 and 0xB0001000, and its
stack with the parent, and tracks the pages of the stack only. -/
def childTask : Kernel where
  sched := {
    tasks := fun _ => { pageDir := 0x2000, userStackPageCount := 4, userStackVaddr := stackPage }
    taskCount := 1
    kernelPageDir := 0x1000 }
  phys := {
    mem := [(0x2000 + 4 * 703, 0x10007), (0x2000 + 4 * 704, 0x11007), (0x10000, 0x12205),
      (0x11000 + 4, 0x13205),
      (0x11000, 0x14205), (0x10000 + 4 * 1023, 0x15205), (0x10000 + 4 * 1022, 0x16205),
        (0x10000 + 4 * 1021, 0x17205)].foldl
        (fun mem (a, e) => setWord mem a e) (wordsMem kernelWord)
    free := (List.range 9).map fun i => 0x20000 + i * 0x1000
    refs a := if 0x10 ≤ a ∧ a < 0x12 then 1 else if 0x12 ≤ a ∧ a < 0x18 then 2
      else (smallMachine []).refs a
    maxFrameIdx := 1024
    panicked := false }
  modules := [program 0x10000000 0x1008]

end Kernel

end Doors
