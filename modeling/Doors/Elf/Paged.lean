import Doors.Elf.Image
import Doors.Memory.Mapping

/-!
# Doors.Elf.Paged

The ELF loader on the kernel's own paging code.

`pagesOf` gives the loader the page directory it fills; `lawful_pagesOf` says
that `Paging` does what the loader counts on, for every directory that keeps the
invariant of `Doors.Memory.Directory`.  The image of a successful load follows
(`load_builds_image`).
-/

namespace Doors.Elf

open Memory

/-- The paging code as `load` calls it for the directory `dir`; `unmapPage`
without a directory is that of the kernel. -/
def pagesOf (dir kernelDir : Nat) : Pages Phys where
  clearPageTable st v := st.clearPageTable dir v
  allocFrame st := st.allocFrame
  mapPage st v phys := st.mapPage dir v phys userFlags
  freeFrame st a := st.freeFrame a
  unmapPage st v := st.unmapPage kernelDir v
  store st a bs := { st with mem := setBytes st.mem a bs }

/-- The slot of the page at `v`. -/
def slotOf (v : Nat) : Nat × Nat := (pdeIdx v, pteIdx v)

/-- The pages mapped so far are in their slots, and their frames in no other. -/
structure PagesOk (dir : Nat) (RI : Nat → Prop) (ms : List MappedPage) (T : Tables)
    (st : Phys) : Prop where
  inv : Inv dir T st
  shows : Shows dir T st.mem
  entries : ∀ i < pteCount, RI i → present (word st.mem (dir + 4 * i)) = true → T.tab i ≠ none
  aligned : ∀ m ∈ ms, m.vaddr % Memory.pageSize = 0
  slot : ∀ m ∈ ms, T.map (slotOf m.vaddr) = some m.phys
  only : ∀ m ∈ ms, ∀ q, T.map q = some m.phys → q = slotOf m.vaddr

/-- The view of the directory `dir`, of which the loader may use the entries in
`RI`. -/
def viewOf (dir : Nat) (RI : Nat → Prop) : View Phys where
  ok ms st := ∃ T, PagesOk dir RI ms T st
  look st v := st.lookup dir v
  byte st a := st.mem a

/-- The pages of the entries in `RI`. -/
def InEntries (RI : Nat → Prop) (v : Nat) : Prop :=
  v % Memory.pageSize = 0 ∧ v < 2 ^ 32 ∧ RI (pdeIdx v)

variable {dir kernelDir a v : Nat} {RI : Nat → Prop} {ms : List MappedPage} {m m' : MappedPage}
  {T : Tables} {st st' : Phys}

/-- An index into a directory. -/
theorem pdeIdx_lt (hv : v < 2 ^ 32) : pdeIdx v < pteCount := by
  unfold pdeIdx pdeSize pteCount
  omega

/-- Two pages have two slots. -/
theorem slotOf_inj {v v' : Nat} (hv : v % Memory.pageSize = 0) (hv' : v' % Memory.pageSize = 0)
    (h : slotOf v = slotOf v') :
    v = v' := index_inj hv hv' (Prod.mk.inj h).1 (Prod.mk.inj h).2

/-- The frame of a mapped page is in use for nothing else. -/
theorem PagesOk.frame_used (h : PagesOk dir RI ms T st) (hm : m ∈ ms) :
    m.phys % Memory.pageSize = 0 ∧ m.phys ∉ st.free ∧ m.phys ≠ dir ∧ ∀ i, T.tab i ≠ some m.phys :=
  h.inv.map_used _ _ (h.slot m hm)

/-- Two pages have two frames. -/
theorem PagesOk.phys_inj (h : PagesOk dir RI ms T st) (hm : m ∈ ms) (hm' : m' ∈ ms)
    (heq : m'.phys = m.phys) : m' = m := by
  have hslot := h.only m hm _ (heq ▸ h.slot m' hm')
  have hv := slotOf_inj (h.aligned m' hm') (h.aligned m hm) hslot
  cases m
  cases m'
  simp_all

/-- A mapped page is found. -/
theorem PagesOk.look (h : PagesOk dir RI ms T st) (hm : m ∈ ms) :
    st.lookup dir m.vaddr = some m.phys := by
  have hslot := h.slot m hm
  have hmem := mem_slots.mp (h.inv.map_slot _ _ hslot)
  cases ht : T.tab (pdeIdx m.vaddr) with
  | none => simp [slotOf, h.shows.none _ _ ht] at hslot
  | some t =>
      obtain ⟨hp, -, ha⟩ := (h.shows.tab _ hmem.1 t).mp ht
      obtain ⟨hp', ha'⟩ := (h.shows.map _ t ht _ hmem.2 _).mp hslot
      unfold Phys.lookup Phys.entry
      rw [ha, if_pos ⟨hp, hp'⟩, ha']

/-- Bytes stored in the frame of a mapped page leave every other frame. -/
theorem PagesOk.store_same {off : Nat} {bs : List (BitVec 8)} (h : PagesOk dir RI ms T st)
    (hm : m ∈ ms) (hlen : off + bs.length ≤ pageSize) {b : Nat} (hb : b % Memory.pageSize = 0)
    (hne : b ≠ m.phys) : Same st.mem (setBytes st.mem (m.phys + off) bs) b := by
  refine same_of_outside hb (h.frame_used hm).1 hne fun x hx => if_neg ?_
  unfold Memory.pageSize at hx
  unfold pageSize at hlen
  omega

/-- Bytes are stored in the frame of a mapped page. -/
theorem PagesOk.store {off : Nat} {bs : List (BitVec 8)} (h : PagesOk dir RI ms T st) (hm : m ∈ ms)
    (hlen : off + bs.length ≤ pageSize) :
    PagesOk dir RI ms T { st with mem := setBytes st.mem (m.phys + off) bs } := by
  obtain ⟨-, -, hdir, htab⟩ := h.frame_used hm
  have hsd := h.store_same hm hlen h.inv.dir_aligned hdir.symm
  refine ⟨h.inv.congr rfl rfl rfl, h.shows.frame hsd fun i t ht => ?_, fun i hi hRI hp => ?_,
    h.aligned, h.slot, h.only⟩
  · exact h.store_same hm hlen (h.inv.tab_used i t ht).1 fun hte => htab i (hte ▸ ht)
  · exact h.entries i hi hRI (by rw [← hsd.word hi]; exact hp)

/-- Before the first page a table may be cleared. -/
theorem PagesOk.clear (h : PagesOk dir RI [] T st) (hv : InEntries RI v) :
    ∃ T', PagesOk dir RI [] T' (st.clearPageTable dir v) := by
  obtain ⟨-, hlt, hRI⟩ := hv
  obtain ⟨T', hc⟩ :=
    clearPageTable_tables h.inv h.shows (pdeIdx_lt hlt) (h.entries _ (pdeIdx_lt hlt) hRI)
  refine ⟨T', hc.inv, hc.shows, fun i hi hRI hp => ?_, by simp, by simp, by simp⟩
  exact (hc.rest i hi).2 (h.entries i hi hRI ((hc.rest i hi).1 hp))

/-- One more page is mapped. -/
theorem PagesOk.map {st₁ st₂ : Phys} (h : PagesOk dir RI ms T st) (hv : InEntries RI v)
    (hnot : v ∉ ms.map (·.vaddr))
    (halloc : st.allocFrame = (some a, st₁)) (hmap : st₁.mapPage dir v a userFlags = (true, st₂)) :
    (∃ T', PagesOk dir RI (ms ++ [⟨v, a⟩]) T' st₂) ∧ ∀ m ∈ ms, Same st.mem st₂.mem m.phys := by
  obtain ⟨hal, hlt, hRI⟩ := hv
  have hi := pdeIdx_lt hlt
  obtain ⟨hI₁, hh, hfree, htouched, -⟩ := h.inv.alloc halloc
  have hdir := htouched.same h.inv.dir_aligned hh.aligned hh.ne_dir.symm
  have hS₁ : Shows dir T st₁.mem := h.shows.frame hdir fun i t ht =>
    htouched.same (h.inv.tab_used i t ht).1 hh.aligned fun hta => hh.not_tab i (hta ▸ ht)
  obtain ⟨T', hM⟩ := mapPage_tables hI₁ hS₁ hh hi
    (fun hp => h.entries _ hi hRI (by rw [← hdir.word hi]; exact hp)) hmap
  have hne : ∀ m ∈ ms, slotOf m.vaddr ≠ slotOf v := by
    intro m hm heq
    exact hnot (slotOf_inj (h.aligned m hm) hal heq ▸ List.mem_map_of_mem hm)
  have hphys : ∀ m ∈ ms, m.phys ≠ a := fun m hm heq => (h.frame_used hm).2.1 (heq ▸ hfree)
  refine ⟨⟨T', hM.inv, hM.shows, fun i hi' hRI' hp => ?_, ?_, ?_, ?_⟩, fun m hm => ?_⟩
  · by_cases hiv : i = pdeIdx v
    · exact hiv ▸ hM.tab
    · obtain ⟨hw, ht⟩ := hM.rest i hiv hi'
      rw [ht]
      refine h.entries i hi' hRI' ?_
      rw [← hdir.word hi', ← hw]
      exact hp
  · exact List.forall_mem_append.mpr ⟨h.aligned, by simpa using hal⟩
  · refine List.forall_mem_append.mpr ⟨fun m hm => ?_, by simpa [slotOf] using hM.slot⟩
    rw [hM.other _ (hne m hm)]
    exact h.slot m hm
  · refine List.forall_mem_append.mpr ⟨fun m hm q hq => ?_, fun m hm q hq => ?_⟩
    · by_cases hqv : q = slotOf v
      · have heq := hM.slot.symm.trans (hqv ▸ hq)
        exact absurd (Option.some.inj heq).symm (hphys m hm)
      · exact h.only m hm q (by rw [← hM.other q hqv]; exact hq)
    · obtain rfl := List.mem_singleton.mp hm
      by_contra hqv
      rw [hM.other q hqv] at hq
      exact hh.not_map q hq
  · obtain ⟨hmal, hmfree, hmdir, hmtab⟩ := h.frame_used hm
    refine Same.trans (htouched.same hmal hh.aligned (hphys m hm))
      (hM.same _ hmal hmdir hmtab (fun hin => ?_) fun heq => ?_)
    · rcases htouched.free _ hin with hin | hin
      · exact hphys m hm hin
      · exact hmfree hin
    · exact hne m hm (h.only m hm _ heq).symm

/-- **`Paging` does what the loader counts on**. -/
theorem lawful_pagesOf (dir kernelDir : Nat) (RI : Nat → Prop) :
    Lawful (pagesOf dir kernelDir) (viewOf dir RI) (InEntries RI) where
  clear st v hok hv := by
    obtain ⟨T, h⟩ := hok
    exact h.clear hv
  map ms st st₁ st₂ v phys hok hv hnot halloc hmap := by
    obtain ⟨T, h⟩ := hok
    obtain ⟨hok', hsame⟩ := h.map hv hnot halloc hmap
    exact ⟨hok', fun m hm k hk => hsame m hm _ (Nat.le_add_right _ _) (Nat.add_lt_add_left hk _)⟩
  store ms st m off bs hok hm hlen := by
    obtain ⟨T, h⟩ := hok
    refine ⟨⟨T, h.store hm hlen⟩, fun m' hm' k hk => ?_⟩
    obtain ⟨hal, -⟩ := h.frame_used hm
    obtain ⟨hal', -⟩ := h.frame_used hm'
    show setBytes st.mem (m.phys + off) bs (m'.phys + k) = _
    unfold setBytes
    by_cases heq : m' = m
    · subst heq
      have hiff : (m'.phys + off ≤ m'.phys + k ∧ m'.phys + k < m'.phys + off + bs.length) ↔
          (m' = m' ∧ off ≤ k ∧ k < off + bs.length) := by
        simp only [true_and]
        omega
      have hsub : m'.phys + k - (m'.phys + off) = k - off := by omega
      simp only [hiff, hsub]
      rfl
    · have hne : m'.phys ≠ m.phys := fun hp => heq (h.phys_inj hm hm' hp)
      rw [if_neg, if_neg fun hc => heq hc.1]
      · rfl
      · unfold Memory.pageSize at hal hal'
        unfold pageSize at hlen hk
        omega
  look ms st m hok hm := by
    obtain ⟨T, h⟩ := hok
    exact h.look hm

/-! ## the image -/

/-- The pages of a segment are pages of the address space. -/
theorem segmentPages_lt {vaddr memsz : Nat} (hv : v ∈ segmentPages vaddr memsz) :
    v % Memory.pageSize = 0 ∧ v < 2 ^ 32 := by
  obtain ⟨k, hk, rfl⟩ := List.mem_map.mp hv
  have hk := List.mem_range.mp hk
  have hend : u32 (u32 (vaddr + memsz) + (pageSize - 1)) < 2 ^ 32 := Nat.mod_lt _ (by decide)
  unfold alignUp at hk
  generalize u32 (u32 (vaddr + memsz) + (pageSize - 1)) = e at hk hend
  unfold alignDown pageSize at *
  unfold Memory.pageSize
  omega

/-- The entry of every page of segment `o` is absent or a user entry. -/
def UserEntries (dir : Nat) (st : Phys) (F : File) (o : Nat) : Prop :=
  ∀ v ∈ F.pages o, present (st.entry dir (pdeIdx v)) = true → user (st.entry dir (pdeIdx v)) = true

/-- **A successful load builds the image of the file**: through the page directory
every address of a segment reads its byte of the file, or 0 past the file size;
the other bytes of the mapped pages are 0; each page of a segment is listed once
with its frame, and there are at most `maxElfPages`; and the entry point is that
of the file. -/
theorem load_builds_image (dir kernelDir : Nat) (F : File) (st st' : Phys) (r : LoadResult)
    (T : Tables)
    (hI : Inv dir T st) (hS : Shows dir T st.mem)
    (hinside : ∀ o ∈ F.loaded F.headers, F.value (pOffset o) 4 + F.value (pFilesz o) 4 ≤ F.size)
    (hfilesz : ∀ o ∈ F.loaded F.headers, F.value (pFilesz o) 4 ≤ F.value (pMemsz o) 4)
    (huser : ∀ o ∈ F.loaded F.headers, UserEntries dir st F o)
    (hapart : (F.loaded F.headers).Pairwise fun o o' => F.Apart o o')
    (h : load (pagesOf dir kernelDir) F st = .ok (some r, st')) :
    (∀ o ∈ F.loaded F.headers, ∀ k < F.value (pMemsz o) 4, ∃ phys,
      st'.lookup dir (alignDown (F.value (pVaddr o) 4 + k)) = some phys ∧
        st'.mem (phys + (F.value (pVaddr o) 4 + k) % pageSize) =
          if k < F.value (pFilesz o) 4 then F.byte (F.value (pOffset o) 4 + k) else 0) ∧
    (∀ m ∈ r.pages, ∀ k < pageSize, (∀ o ∈ F.loaded F.headers, ¬ F.Covers o (m.vaddr + k)) →
      st'.mem (m.phys + k) = 0) ∧
    (r.pages.map (·.vaddr)).Nodup ∧
    (∀ v, v ∈ r.pages.map (·.vaddr) ↔ ∃ o ∈ F.loaded F.headers, v ∈ F.pages o) ∧
    (∀ m ∈ r.pages, st'.lookup dir m.vaddr = some m.phys) ∧ r.pages.length ≤ maxElfPages ∧
      r.entry = F.value 24 4 := by
  let RI : Nat → Prop := fun i => present (st.entry dir i) = true → user (st.entry dir i) = true
  have hok : (viewOf dir RI).ok [] st := by
    refine ⟨T, hI, hS, fun i hi hRI hp ht => ?_, by simp, by simp, by simp⟩
    have htab := (hS.tab i hi (addr (word st.mem (dir + 4 * i)))).mpr ⟨hp, hRI hp, rfl⟩
    rw [ht] at htab
    contradiction
  have hplaced : ∀ o ∈ F.loaded F.headers, F.Placed (InEntries RI) o := by
    intro o ho
    refine ⟨hfilesz o ho, hinside o ho, fun v hv => ?_⟩
    obtain ⟨hal, hlt⟩ := segmentPages_lt hv
    exact ⟨hal, hlt, huser o ho v hv⟩
  have himage := load_image (lawful_pagesOf dir kernelDir RI) hok hplaced hapart h
  exact ⟨himage.segment, himage.zero, himage.nodup, himage.pages, himage.frames, himage.length_le,
    himage.entry⟩

/-- An executable with one segment of four bytes in the file and four of zeros. -/
def oneSegment : File where
  base := 0x100000
  size := 88
  byte k := ([0x7F, 0x45, 0x4C, 0x46, 1, 1, 1, 0, 0, 0, 0, 0, 0, 0, 0, 0, 2, 0, 3, 0, 1, 0, 0, 0,
    0, 0, 1, 0, 52, 0, 0, 0, 0, 0, 0, 0, 0, 0, 0, 0, 52, 0, 32, 0, 1, 0, 0, 0, 0, 0, 0, 0,
    1, 0, 0, 0, 84, 0, 0, 0, 0, 0, 1, 0, 0, 0, 0, 0, 4, 0, 0, 0, 8, 0, 0, 0, 5, 0, 0, 0,
      0, 0x10, 0, 0,
    0xB8, 1, 0, 0]).getD k 0
  fits := by decide

/-- An empty directory at 0x1000, and two free frames. -/
def emptyDir : Phys := ⟨fun _ => 0, [0x3000, 0x2000], fun _ => 0, 16, false⟩

/-- A file with one segment, in an empty directory. -/
theorem load_builds_image_oneSegment :
    ∃ r st', load (pagesOf 0x1000 0x1000) oneSegment emptyDir = .ok (some r, st') ∧
      r.entry = 0x10000 ∧
      ∃ phys, st'.lookup 0x1000 0x10000 = some phys ∧ st'.mem (phys + 0) = 0xB8 := by
  have hloads : ((load (pagesOf 0x1000 0x1000) oneSegment emptyDir).toOption.bind Prod.fst).isSome =
    true := by decide +kernel
  obtain ⟨r, st', h⟩ : ∃ r st', load (pagesOf 0x1000 0x1000) oneSegment emptyDir =
      .ok (some r, st') := by
    cases hrun : load (pagesOf 0x1000 0x1000) oneSegment emptyDir with
    | error e =>
      rw [hrun] at hloads
      contradiction
    | ok q =>
      rw [hrun] at hloads
      obtain ⟨_ | r, st'⟩ := q
      · contradiction
      · exact ⟨r, st', rfl⟩
  have hloaded : oneSegment.loaded oneSegment.headers = [52] := by decide +kernel
  have hI : Inv 0x1000 ⟨fun _ => none, fun _ => none⟩ emptyDir := by
    refine ⟨by decide, by decide, by decide, by decide, by simp, by simp, by simp, by simp, by simp,
      by simp, fun g _ _ => ?_⟩
    rw [uses_eq_zero (by simp)]
    exact Nat.zero_le _
  have hS : Shows 0x1000 ⟨fun _ => none, fun _ => none⟩ emptyDir.mem := by
    refine ⟨fun i _ t => ?_, by simp, by simp, by simp⟩
    simp [emptyDir, word, present]
  have himage :=
    load_builds_image 0x1000 0x1000 oneSegment emptyDir st' r ⟨fun _ => none, fun _ => none⟩ hI hS
    (by rw [hloaded]; decide +kernel) (by rw [hloaded]; decide +kernel)
    (by simp [UserEntries, emptyDir, Phys.entry, word, present]) (by rw [hloaded]; simp) h
  obtain ⟨hseg, -, -, -, -, -, hentry⟩ := himage
  refine ⟨r, st', h, hentry.trans (by decide +kernel), ?_⟩
  exact hseg 52 (by rw [hloaded]; simp) 0 (by decide +kernel)

end Doors.Elf
