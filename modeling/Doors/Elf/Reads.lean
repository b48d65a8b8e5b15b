import Doors.Elf.Loader

/-!
# Doors.Elf.Reads

Where the ELF loader reads.

`validate` makes sure that the ELF header is in the file, and checks the end of
the program headers with a sum that wraps.  The size of a header, and the
offset and size of a segment in the file, are not checked at all.

* `Contained` — the fields and segment bytes that the loader gets to are in
  the file;
* `reads_inside_iff` — this is exactly when no run of the loader, over whatever
  allocator and page tables, reads outside the file.
-/

namespace Doors.Elf

open Run

variable {F : File} {off n o v : Nat}

/-! ## the condition -/

/-- `validate` accepts the file. -/
def File.Valid (F : File) : Prop := validate F = .ok true

/-- The headers of the file. -/
def File.headers (F : File) : List Nat := phdrs (F.value 28 4) (F.value 44 2) (F.value 42 2)

/-- A segment that `load` maps. -/
def File.Loads (F : File) (o : Nat) : Prop :=
  F.value (pType o) 4 = ptLoad ∧ F.value (pMemsz o) 4 ≠ 0

/-- The fields of a header that are read for every header. -/
def File.HeaderIn (F : File) (o : Nat) : Prop :=
  F.Inside (pType o) 4 ∧ (F.value (pType o) 4 = ptLoad →
    F.Inside (pMemsz o) 4 ∧ (F.value (pMemsz o) 4 ≠ 0 → F.Inside (pVaddr o) 4))

/-- The part of the file that the page at `v` of segment `o` gets. -/
def File.copied (F : File) (o v : Nat) : Nat × Nat :=
  pageRange v (F.value (pVaddr o) 4) (u32 (F.value (pVaddr o) 4 + F.value (pFilesz o) 4))

/-- The fields and bytes that are read for the page at `v` of segment `o`. -/
def File.PageIn (F : File) (o v : Nat) : Prop :=
  F.Inside (pFilesz o) 4 ∧ ((F.copied o v).2 ≠ 0 → F.Inside (pOffset o) 4 ∧
    F.Inside (fileOff (F.value (pOffset o) 4) (F.value (pVaddr o) 4) v (F.copied o v).1)
      (F.copied o v).2)

/-- The pages mapped so far, with `v`. -/
def insertPage (v : Nat) (mapped : List Nat) : List Nat :=
  if v ∈ mapped then mapped else mapped ++ [v]

/-- The pages mapped after `vs`, unless there are too many. -/
def mapAll : List Nat → List Nat → Option (List Nat)
  | [], mapped => some mapped
  | v :: vs, mapped => if mapped.length ≥ maxElfPages then none else mapAll vs (insertPage v mapped)

/-- The pages that are reached before there are too many read in the file. -/
def File.PagesIn (F : File) (o : Nat) : List Nat → List Nat → Prop
  | [], _ => True
  | v :: vs, mapped =>
      mapped.length < maxElfPages → F.PageIn o v ∧ F.PagesIn o vs (insertPage v mapped)

/-- The pages of segment `o`. -/
def File.pages (F : File) (o : Nat) : List Nat :=
  segmentPages (F.value (pVaddr o) 4) (F.value (pMemsz o) 4)

/-- The segments that are reached, after valid segments with few enough pages,
read in the file. -/
def File.SegmentsIn (F : File) : List Nat → List Nat → Prop
  | [], _ => True
  | o :: os, mapped =>
      (¬ F.Loads o → F.SegmentsIn os mapped) ∧
        (F.Loads o → validSegment (F.value (pVaddr o) 4) (F.value (pMemsz o) 4) = true →
          F.PagesIn o (F.pages o) mapped ∧
            ∀ mapped', mapAll (F.pages o) mapped = some mapped' → F.SegmentsIn os mapped')

/-- **Contained files**: everything the loader gets to is in the file. -/
def File.Contained (F : File) : Prop :=
  F.Valid → (∀ o ∈ F.headers, F.HeaderIn o) ∧ F.SegmentsIn F.headers []

/-! ## reads -/

/-- A read inside the file succeeds. -/
theorem read_of_inside (h : F.Inside off n) : F.read off n = .ok (F.value off n) := if_pos h

/-- Only a read inside the file succeeds. -/
theorem read_ok {x : Nat} (h : F.read off n = .ok x) : F.Inside off n ∧ x = F.value off n := by
  unfold File.read at h
  split at h
  · next hin => exact ⟨hin, (Except.ok.inj h).symm⟩
  · contradiction

/-- The ELF header is in every file that is large enough for it. -/
theorem inside_header (hsize : ¬ F.size < ehdrSize) (off n : Nat) (hn : off + n ≤ ehdrSize) :
    F.Inside off n := by
  intro k hk
  unfold ehdrSize at *
  have : u32 (off + k) = off + k := Nat.mod_eq_of_lt (by omega)
  omega

/-- `validate` looks at the size before it reads. -/
theorem validate_ok (F : File) : ∃ b, validate F = .ok b := by
  unfold validate
  split
  · exact ⟨false, rfl⟩
  · next h =>
      have hsize : ¬ F.size < ehdrSize := fun hlt => h (.inr hlt)
      have hin : ∀ off n, off + n ≤ ehdrSize → F.read off n = .ok (F.value off n) :=
        fun off n hn => read_of_inside (inside_header hsize off n hn)
      rw [hin 0 4 (by decide), hin 4 1 (by decide), hin 5 1 (by decide), hin 6 1 (by decide),
        hin 16 2 (by decide), hin 18 2 (by decide), hin 28 4 (by decide), hin 44 2 (by decide),
        hin 42 2 (by decide)]
      simp only [bind, Except.bind, pure, Except.pure]
      split_ifs <;> exact ⟨_, rfl⟩

/-- A valid file has room for its header. -/
theorem Valid.size (h : F.Valid) : ¬ F.size < ehdrSize := by
  intro hlt
  unfold File.Valid validate at h
  rw [if_pos (.inr hlt)] at h
  contradiction

/-! ## the range of the segments -/

/-- The range is computed from the headers alone. -/
theorem computeElfRange_ok {os : List Nat} (h : ∀ o ∈ os, F.HeaderIn o) (low : Option Nat) :
    ∃ r, computeElfRange F os low = .ok r := by
  induction os generalizing low with
  | nil => exact ⟨low, rfl⟩
  | cons o os ih =>
      obtain ⟨htype, hmem⟩ := h o List.mem_cons_self
      have ih' : ∀ low, ∃ r, computeElfRange F os low = .ok r :=
        fun low => ih (fun o ho => h o (List.mem_cons_of_mem _ ho)) low
      simp only [computeElfRange, read_of_inside htype, bind, Except.bind]
      split
      · exact ih' _
      · next hload =>
          obtain ⟨hmemsz, hvaddr⟩ := hmem (not_not.mp hload)
          simp only [read_of_inside hmemsz]
          split
          · exact ih' _
          · next hne =>
              simp only [read_of_inside (hvaddr hne)]
              exact ih' _

/-- Every header is looked at. -/
theorem headerIn_of_computeElfRange {os : List Nat} {low r : Option Nat}
    (h : computeElfRange F os low = .ok r) : ∀ o ∈ os, F.HeaderIn o := by
  induction os generalizing low with
  | nil => exact fun o ho => by contradiction
  | cons o os ih =>
      simp only [computeElfRange, bind_eq_ok] at h
      obtain ⟨type, ht, h⟩ := h
      obtain ⟨htype, rfl⟩ := read_ok ht
      split at h
      · next hne =>
          refine List.forall_mem_cons.mpr ⟨⟨htype, fun he => absurd he hne⟩, ih h⟩
      · rw [bind_eq_ok] at h
        obtain ⟨memsz, hm, h⟩ := h
        obtain ⟨hmemsz, rfl⟩ := read_ok hm
        split at h
        · next hz =>
            exact List.forall_mem_cons.mpr
              ⟨⟨htype, fun _ => ⟨hmemsz, fun hn => absurd hz hn⟩⟩, ih h⟩
        · rw [bind_eq_ok] at h
          obtain ⟨vaddr, hv, h⟩ := h
          exact List.forall_mem_cons.mpr ⟨⟨htype, fun _ => ⟨hmemsz, fun _ => (read_ok hv).1⟩⟩, ih h⟩

/-! ## pages -/

section

variable {σ : Type} {P : Pages σ} {st st' : σ} {phys : Nat} {mapped mapped' : List MappedPage}

/-- A page is filled when its part of the segment is in the file. -/
theorem fillPage_ok (P : Pages σ) (hvaddr : F.Inside (pVaddr o) 4) (hmemsz : F.Inside (pMemsz o) 4)
    (h : F.PageIn o v) (phys : Nat) (st : σ) : ∃ st', fillPage P F o v phys st = .ok st' := by
  obtain ⟨hfilesz, hcopied⟩ := h
  simp only [fillPage, read_of_inside hvaddr, read_of_inside hfilesz, read_of_inside hmemsz, bind,
    Except.bind,
    pure, Except.pure]
  split
  · next hlen =>
      obtain ⟨hoff, hbytes⟩ := hcopied hlen
      simp only [File.copied] at hbytes
      simp only [read_of_inside hoff, File.readBytes, if_pos hbytes]
      exact ⟨_, rfl⟩
  · exact ⟨_, rfl⟩

/-- A page is filled only when its part of the segment is in the file. -/
theorem pageIn_of_fillPage (h : fillPage P F o v phys st = .ok st') : F.PageIn o v := by
  unfold fillPage at h
  obtain ⟨start, hs, h⟩ := bind_eq_ok.mp h
  obtain ⟨filesz, hf, h⟩ := bind_eq_ok.mp h
  obtain ⟨-, rfl⟩ := read_ok hs
  obtain ⟨hfilesz, rfl⟩ := read_ok hf
  refine ⟨hfilesz, fun hlen => ?_⟩
  unfold File.copied at hlen ⊢
  dsimp only at h
  rw [if_pos hlen] at h
  obtain ⟨offset, ho, h⟩ := bind_eq_ok.mp h
  obtain ⟨bytes, hb, -⟩ := bind_eq_ok.mp h
  obtain ⟨hoff, rfl⟩ := read_ok ho
  unfold File.readBytes at hb
  split at hb
  · next hbytes => exact ⟨hoff, hbytes⟩
  · nomatch hb

/-- The search for a mapped page is by address. -/
theorem find?_vaddr (mapped : List MappedPage) (v : Nat) :
    (mapped.find? (·.vaddr = v)).isSome ↔ v ∈ mapped.map (·.vaddr) := by
  simp [List.find?_isSome]

/-- The pages after one more. -/
theorem mem_insertPage {v x : Nat} {l : List Nat} : x ∈ insertPage v l ↔ x ∈ l ∨ x = v := by
  unfold insertPage
  split
  · next hv =>
      constructor
      · exact .inl
      · rintro (hx | rfl)
        · exact hx
        · exact hv
  · simp

/-- A page that gets a frame had it before, or is mapped to a new one, which is cleared. -/
theorem framePage_cases (h : framePage P v mapped st = (some (phys, mapped'), st')) :
    (mapped' = mapped ∧ st' = st ∧ ∃ m ∈ mapped, m.vaddr = v ∧ m.phys = phys) ∨
      (v ∉ mapped.map (·.vaddr) ∧ ∃ st₁ st₂, P.allocFrame st = (some phys, st₁) ∧
        P.mapPage st₁ v phys = (true, st₂) ∧ mapped' = mapped ++ [⟨v, phys⟩] ∧
        st' = P.store st₂ phys (List.replicate pageSize 0)) := by
  unfold framePage at h
  split at h
  · next m hm =>
      cases h
      have hv := List.find?_some hm
      exact .inl ⟨rfl, rfl, m, List.mem_of_find?_eq_some hm, by simpa using hv, rfl⟩
  · next hnone =>
      have hmem : v ∉ mapped.map (·.vaddr) := fun hv => by
        have := (find?_vaddr mapped v).mpr hv
        rw [hnone] at this
        contradiction
      split at h
      · simp at h
      · next p st₁ halloc =>
          split at h
          · simp at h
          · next st₂ hmap =>
              cases h
              exact .inr ⟨hmem, st₁, st₂, halloc, hmap, rfl, rfl⟩

/-- A page that gets a frame joins the mapped ones. -/
theorem framePage_vaddrs (h : framePage P v mapped st = (some (phys, mapped'), st')) :
    mapped'.map (·.vaddr) = insertPage v (mapped.map (·.vaddr)) := by
  obtain ⟨rfl, -, m, hm, rfl, -⟩ | ⟨hmem, -, -, -, -, rfl, -⟩ := framePage_cases h
  · exact (if_pos (List.mem_map_of_mem hm)).symm
  · rw [insertPage, if_neg hmem]
    simp

/-- The loop over the pages reads what belongs to them, and the pages it maps depend on the
file alone. -/
theorem mapPages_ok {vs : List Nat} (P : Pages σ) (st : σ) (hvaddr : F.Inside (pVaddr o) 4)
    (hmemsz : F.Inside (pMemsz o) 4)
    (h : F.PagesIn o vs (mapped.map (·.vaddr))) :
    ∃ done mapped' st', mapPages P F o vs mapped st = .ok (done, mapped', st') ∧
      (done = true → mapAll vs (mapped.map (·.vaddr)) = some (mapped'.map (·.vaddr))) := by
  induction vs generalizing mapped st with
  | nil => exact ⟨true, mapped, st, rfl, fun _ => rfl⟩
  | cons v vs ih =>
      simp only [mapPages, mapAll, List.length_map]
      split
      · exact ⟨false, mapped, st, rfl, nofun⟩
      · next hlen =>
          obtain ⟨hpage, hrest⟩ := h (by simpa using hlen)
          split
          · exact ⟨false, mapped, _, rfl, nofun⟩
          · next phys mapped₁ st₁ hframe =>
              obtain ⟨st₂, hfill⟩ := fillPage_ok P hvaddr hmemsz hpage phys st₁
              rw [← framePage_vaddrs hframe] at hrest ⊢
              simp only [hfill, bind, Except.bind]
              exact ih st₂ hrest

/-- The loop over the headers stays inside the file. -/
theorem loadSegments_ok {os : List Nat} (P : Pages σ) (st : σ) (hheaders : ∀ o ∈ os, F.HeaderIn o)
    (h : F.SegmentsIn os (mapped.map (·.vaddr))) : ∃ r, loadSegments P F os mapped st = .ok r := by
  induction os generalizing mapped st with
  | nil => exact ⟨_, rfl⟩
  | cons o os ih =>
      obtain ⟨htype, hmem⟩ := hheaders o List.mem_cons_self
      have ih' : ∀ {mapped st}, F.SegmentsIn os (mapped.map (·.vaddr)) →
          ∃ r, loadSegments P F os mapped st = .ok r :=
        fun {_ st} h => ih st (fun o ho => hheaders o (List.mem_cons_of_mem _ ho)) h
      simp only [loadSegments, read_of_inside htype, bind, Except.bind]
      split
      · next hne => exact ih' (h.1 fun hl => hne hl.1)
      · next hload =>
          have hload := not_not.mp hload
          obtain ⟨hmemsz, hvaddr⟩ := hmem hload
          simp only [read_of_inside hmemsz]
          split
          · next hz => exact ih' (h.1 fun hl => hl.2 hz)
          · next hne =>
              simp only [read_of_inside (hvaddr hne)]
              split
              · exact ⟨_, rfl⟩
              · next hvalid =>
                  obtain ⟨hpages, hrest⟩ := h.2 ⟨hload, hne⟩ (by simpa using hvalid)
                  obtain ⟨done, mapped', st', hmap, hall⟩ :=
                    mapPages_ok P st (hvaddr hne) hmemsz hpages
                  simp only [mapSegmentRange, read_of_inside (hvaddr hne), read_of_inside hmemsz,
                    bind, Except.bind,
                    File.pages] at hmap ⊢
                  rw [hmap]
                  cases done with
                  | true => exact ih' (hrest _ (hall rfl))
                  | false => exact ⟨_, rfl⟩

end

/-! ## a machine that never refuses -/

/-- Page tables that grant every frame and every mapping. -/
def grants : Pages Unit where
  clearPageTable _ _ := ()
  allocFrame _ := (some 0, ())
  mapPage _ _ _ := (true, ())
  freeFrame _ _ := ()
  unmapPage _ _ := ()
  store _ _ _ := ()

section

variable {mapped mapped' : List MappedPage}

/-- A paging code that never fails finds a frame for every page. -/
theorem framePage_grants (v : Nat) (mapped : List MappedPage) :
    ∃ phys mapped', framePage grants v mapped () = (some (phys, mapped'), ()) := by
  unfold framePage
  split
  · exact ⟨_, _, rfl⟩
  · exact ⟨_, _, rfl⟩

/-- With a paging code that never fails, the loop has read every page. -/
theorem pagesIn_of_mapPages {vs : List Nat} {done : Bool}
    (h : mapPages grants F o vs mapped () = .ok (done, mapped', ())) :
    F.PagesIn o vs (mapped.map (·.vaddr)) ∧
      ∀ m, mapAll vs (mapped.map (·.vaddr)) = some m → done = true ∧ mapped'.map (·.vaddr) = m := by
  induction vs generalizing mapped with
  | nil =>
      cases h
      exact ⟨trivial, fun m hm => ⟨rfl, Option.some.inj hm⟩⟩
  | cons v vs ih =>
      obtain ⟨phys, mapped₁, hframe⟩ := framePage_grants v mapped
      simp only [mapPages, hframe] at h
      simp only [File.PagesIn, mapAll, List.length_map]
      split at h
      · next hlen =>
          rw [if_pos hlen]
          exact ⟨fun hlt => absurd hlen (by omega), nofun⟩
      · next hlen =>
          obtain ⟨st₁, hfill, h⟩ := bind_eq_ok.mp h
          obtain ⟨hpages, hall⟩ := ih h
          rw [framePage_vaddrs hframe] at hpages hall
          rw [if_neg hlen]
          exact ⟨fun _ => ⟨pageIn_of_fillPage hfill, hpages⟩, hall⟩

/-- With a paging code that never fails, the loop has read every segment. -/
theorem segmentsIn_of_loadSegments {os : List Nat} {r : Bool × List MappedPage × Unit}
    (h : loadSegments grants F os mapped () = .ok r) : F.SegmentsIn os (mapped.map (·.vaddr)) := by
  induction os generalizing mapped with
  | nil => trivial
  | cons o os ih =>
      unfold loadSegments at h
      obtain ⟨type, ht, h⟩ := bind_eq_ok.mp h
      obtain ⟨-, rfl⟩ := read_ok ht
      split at h
      · next hne => exact ⟨fun _ => ih h, fun hl => absurd hl.1 hne⟩
      · next hload =>
        obtain ⟨memsz, hm, h⟩ := bind_eq_ok.mp h
        obtain ⟨-, rfl⟩ := read_ok hm
        split at h
        · next hz => exact ⟨fun _ => ih h, fun hl => absurd hz hl.2⟩
        · next hne =>
            refine ⟨fun hl => absurd ⟨not_not.mp hload, hne⟩ hl, fun _ hvalid => ?_⟩
            obtain ⟨vaddr, hv, h⟩ := bind_eq_ok.mp h
            obtain ⟨-, rfl⟩ := read_ok hv
            obtain ⟨memsz, hm', h⟩ := bind_eq_ok.mp h
            obtain ⟨-, rfl⟩ := read_ok hm'
            rw [if_neg (by simpa using hvalid)] at h
            obtain ⟨⟨done, mapped', ⟨⟩⟩, hmap, h⟩ := bind_eq_ok.mp h
            unfold mapSegmentRange at hmap
            obtain ⟨vaddr, hv', hmap⟩ := bind_eq_ok.mp hmap
            obtain ⟨-, rfl⟩ := read_ok hv'
            obtain ⟨memsz, hm'', hmap⟩ := bind_eq_ok.mp hmap
            obtain ⟨-, rfl⟩ := read_ok hm''
            obtain ⟨hpages, hall⟩ := pagesIn_of_mapPages hmap
            refine ⟨hpages, fun m hm => ?_⟩
            obtain ⟨rfl, rfl⟩ := hall m hm
            exact ih h

end

/-! ## whole runs -/

/-- A contained file is read within its bounds, whatever the paging code does. -/
theorem load_ok {σ : Type} (P : Pages σ) (h : F.Contained) (st : σ) : ∃ r, load P F st = .ok r := by
  obtain ⟨b, hb⟩ := validate_ok F
  simp only [load, hb, bind, Except.bind]
  cases b with
  | false => exact ⟨_, rfl⟩
  | true =>
      have hsize := Valid.size hb
      obtain ⟨hheaders, hsegments⟩ := h hb
      obtain ⟨low, hlow⟩ := computeElfRange_ok hheaders none
      have hphoff := read_of_inside (inside_header hsize 28 4 (by decide))
      have hphnum := read_of_inside (inside_header hsize 44 2 (by decide))
      have hphentsize := read_of_inside (inside_header hsize 42 2 (by decide))
      have hentry := read_of_inside (inside_header hsize 24 4 (by decide))
      unfold File.headers at hlow hheaders hsegments
      have hloaded : ∀ st, ∃ r, loadSegments P F _ [] st = .ok r :=
        fun st => loadSegments_ok P st hheaders hsegments
      simp only [hphoff, hphnum, hphentsize, hentry, hlow]
      rw [if_neg (by simp)]
      split
      · next herr =>
          obtain ⟨r, hrun⟩ := hloaded _
          nomatch hrun.symm.trans herr
      · split <;> exact ⟨_, rfl⟩

/-- With a paging code that never fails, `load` succeeds only on a contained file. -/
theorem contained_of_load {r : Option LoadResult × Unit} (h : load grants F () = .ok r) :
    F.Contained := by
  intro hvalid
  unfold load at h
  obtain ⟨b, hb, h⟩ := bind_eq_ok.mp h
  obtain rfl : true = b := Except.ok.inj (hvalid.symm.trans hb)
  obtain ⟨phoff, hphoff, h⟩ := bind_eq_ok.mp h
  obtain ⟨phnum, hphnum, h⟩ := bind_eq_ok.mp h
  obtain ⟨phentsize, hphentsize, h⟩ := bind_eq_ok.mp h
  obtain ⟨low, hlow, h⟩ := bind_eq_ok.mp h
  obtain ⟨loaded, hloaded, -⟩ := bind_eq_ok.mp h
  obtain ⟨-, rfl⟩ := read_ok hphoff
  obtain ⟨-, rfl⟩ := read_ok hphnum
  obtain ⟨-, rfl⟩ := read_ok hphentsize
  exact ⟨headerIn_of_computeElfRange hlow, segmentsIn_of_loadSegments hloaded⟩

/-- **The loader reads only the file, exactly for contained files**: over every
allocator and page tables.  One that grants every request is enough to reach all
of the reads. -/
theorem reads_inside_iff (F : File) :
    (∀ (σ : Type) (P : Pages σ) (st : σ), (∃ b, validate F = .ok b) ∧ ∃ r, load P F st = .ok r) ↔
      F.Contained := by
  constructor
  · intro h
    obtain ⟨-, r, hr⟩ := h Unit grants ()
    exact contained_of_load hr
  · intro h σ P st
    exact ⟨validate_ok F, load_ok P h st⟩

/-- An executable of one header, whose segment of four bytes is at offset 4096 of
a file of 84 bytes. -/
def straying : File where
  base := 0x100000
  size := 84
  byte k := ([0x7F, 0x45, 0x4C, 0x46, 1, 1, 1, 0, 0, 0, 0, 0, 0, 0, 0, 0, 2, 0, 3, 0, 1, 0, 0, 0,
    0, 0, 1, 0, 52, 0, 0, 0, 0, 0, 0, 0, 0, 0, 0, 0, 52, 0, 32, 0, 1, 0, 0, 0, 0, 0, 0, 0,
    1, 0, 0, 0, 0, 0x10, 0, 0, 0, 0, 1, 0, 0, 0, 0, 0, 4, 0, 0, 0, 4, 0, 0, 0, 5, 0, 0, 0, 0, 0x10,
      0, 0]).getD k 0
  fits := by decide

/-- A header that `validate` lets through, with bytes behind the end of the file. -/
theorem load_straying : validate straying = .ok true ∧ load grants straying () = .error .outside ∧
    ¬ ∀ (σ : Type) (P : Pages σ) (st : σ), (∃ b, validate straying = .ok b) ∧ ∃ r,
      load P straying st = .ok r := by
  have hload : load grants straying () = .error .outside := by decide +kernel
  refine ⟨by decide +kernel, hload, fun h => ?_⟩
  obtain ⟨-, r, hr⟩ := h Unit grants ()
  nomatch hr.symm.trans hload

end Doors.Elf
