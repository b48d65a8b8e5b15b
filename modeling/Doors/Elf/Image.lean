import Mathlib.Data.List.Nodup
import Doors.Elf.Reads

/-!
# Doors.Elf.Image

The image that the ELF loader builds, over any allocator and paging code that
does what the loader counts on (`Lawful`).

`PageOk` says what is on a mapped page: the bytes of the segments written to it
so far, and zeros elsewhere.  The loop over the pages of a segment keeps it
(`mapPages_image`), and so does the loop over the segments
(`loadSegments_image`).
-/

namespace Doors.Elf

open Run

/-! ## what the loader counts on -/

/-- How a page directory and the page frames are seen: `ok` holds of the pages
mapped so far, `look` is the frame of a page, and `byte` the physical memory. -/
structure View (σ : Type) where
  ok : List MappedPage → σ → Prop
  look : σ → Nat → Option Nat
  byte : σ → Nat → BitVec 8

/-- Paging code that maps the pages in `R` without disturbing those that are
mapped. -/
structure Lawful {σ : Type} (P : Pages σ) (V : View σ) (R : Nat → Prop) : Prop where
  clear : ∀ st v, V.ok [] st → R v → V.ok [] (P.clearPageTable st v)
  map : ∀ ms st st₁ st₂ v phys, V.ok ms st → R v → v ∉ ms.map (·.vaddr) →
    P.allocFrame st = (some phys, st₁) →
    P.mapPage st₁ v phys = (true, st₂) → V.ok (ms ++ [⟨v, phys⟩]) st₂ ∧
      ∀ m ∈ ms, ∀ k < pageSize, V.byte st₂ (m.phys + k) = V.byte st (m.phys + k)
  store : ∀ ms st m off bs, V.ok ms st → m ∈ ms → off + bs.length ≤ pageSize →
    V.ok ms (P.store st (m.phys + off) bs) ∧ ∀ m' ∈ ms, ∀ k < pageSize,
      V.byte (P.store st (m.phys + off) bs) (m'.phys + k) =
        if m' = m ∧ off ≤ k ∧ k < off + bs.length then bs.getD (k - off) 0
          else V.byte st (m'.phys + k)
  look : ∀ ms st m, V.ok ms st → m ∈ ms → V.look st m.vaddr = some m.phys

/-! ## segments -/

/-- The segment at header `o` has a byte at address `a`. -/
def File.Covers (F : File) (o a : Nat) : Prop :=
  F.value (pVaddr o) 4 ≤ a ∧ a < F.value (pVaddr o) 4 + F.value (pMemsz o) 4

/-- The byte of segment `o` at address `a`. -/
def File.content (F : File) (o a : Nat) : BitVec 8 :=
  if a < F.value (pVaddr o) 4 + F.value (pFilesz o) 4 then
    F.byte (F.value (pOffset o) 4 + (a - F.value (pVaddr o) 4))
  else 0

/-- A segment below the kernel, with its bytes in the file. -/
structure File.Sound (F : File) (o : Nat) : Prop where
  below : F.value (pVaddr o) 4 + F.value (pMemsz o) 4 ≤ kernelVirtualBase
  filesz : F.value (pFilesz o) 4 ≤ F.value (pMemsz o) 4
  inside : F.value (pOffset o) 4 + F.value (pFilesz o) 4 ≤ F.size

/-- A field has as many bytes as are read. -/
theorem value_lt (F : File) (off n : Nat) : F.value off n < 256 ^ n := by
  induction n generalizing off with
  | zero => simp [File.value]
  | succ n ih =>
      have hbyte := (F.byte (u32 off)).isLt
      have hrest := ih (off + 1)
      simp only [File.value, Nat.pow_succ]
      omega

/-- A number that fits. -/
theorem u32_eq {n : Nat} (h : n < 2 ^ 32) : u32 n = n := Nat.mod_eq_of_lt h

/-- A segment that `validateSegment` accepts does not wrap. -/
theorem validSegment_below {vaddr memsz : Nat} (hv : vaddr < 2 ^ 32) (hm : memsz < 2 ^ 32)
    (h : validSegment vaddr memsz = true) : vaddr + memsz ≤ kernelVirtualBase := by
  simp only [validSegment, decide_eq_true_eq] at h
  obtain ⟨hwrap, -, hbase⟩ := h
  unfold u32 at hwrap hbase
  unfold kernelVirtualBase at *
  omega

/-- `pageRange` cuts a range at the ends of a page. -/
theorem pageRange_iff {v s e k : Nat} (hv : v + pageSize < 2 ^ 32) (hk : k < pageSize) :
    ((pageRange v s e).1 ≤ k ∧ k < (pageRange v s e).1 + (pageRange v s e).2) ↔
      s ≤ v + k ∧ v + k < e := by
  unfold pageRange
  rw [u32_eq hv]
  dsimp only
  split
  · omega
  · omega

/-- The part of a segment on a page is in the page. -/
theorem pageRange_le {v s e : Nat} (hv : v + pageSize < 2 ^ 32) :
    (pageRange v s e).1 + (pageRange v s e).2 ≤ pageSize := by
  unfold pageRange
  rw [u32_eq hv]
  dsimp only
  split
  · omega
  · simp

/-- The part begins behind the start of the segment. -/
theorem pageRange_start {v s e : Nat} (h : (pageRange v s e).2 ≠ 0) :
    s ≤ v + (pageRange v s e).1 := by
  unfold pageRange at *
  dsimp only at *
  split at h
  · next hlt =>
      rw [if_pos hlt]
      dsimp only
      omega
  · contradiction

/-- The file offset of a byte of a page. -/
theorem fileOff_add {offset start v off k : Nat} (hstart : start ≤ v + off) (hk : off ≤ k)
    (hlt : offset + (v + k - start) < 2 ^ 32) :
    u32 (fileOff offset start v off + (k - off)) = offset + (v + k - start) := by
  have hoff : offset + (v + off - start) < 2 ^ 32 := by omega
  rw [fileOff, u32_eq hoff]
  have hsum : offset + (v + off - start) + (k - off) = offset + (v + k - start) := by omega
  rw [hsum, u32_eq hlt]

/-- The zeros that a page is cleared with. -/
theorem getD_zeros (n k : Nat) : (List.replicate n (0 : BitVec 8)).getD k 0 = 0 := by
  rw [List.getD_eq_getElem?_getD, List.getElem?_replicate]
  split
  · rfl
  · rfl

/-! ## one page -/

section

variable {σ : Type} {P : Pages σ} {V : View σ} {R : Nat → Prop} {F : File} {o : Nat}
  {ms ms' : List MappedPage}
  {m : MappedPage} {st st' : σ}

/-- The ends of a sound segment do not wrap. -/
theorem Sound.lt (h : F.Sound o) :
    F.value (pVaddr o) 4 + F.value (pFilesz o) 4 < 2 ^ 32 ∧
      F.value (pVaddr o) 4 + F.value (pMemsz o) 4 < 2 ^ 32 ∧
      F.value (pOffset o) 4 + F.value (pFilesz o) 4 ≤ 2 ^ 32 := by
  have hbelow := h.below
  have hfilesz := h.filesz
  have hinside := h.inside
  have hfits := F.fits
  unfold kernelVirtualBase at hbelow
  omega

/-- A store that may be left out when there is nothing to write. -/
theorem Lawful.store_if (hL : Lawful P V R) (hok : V.ok ms st) (hm : m ∈ ms) {off : Nat}
    {bs : List (BitVec 8)}
    (hlen : off + bs.length ≤ pageSize) {n : Nat} (hn : bs.length = n)
    (hst : st' = if n ≠ 0 then P.store st (m.phys + off) bs else st) :
    V.ok ms st' ∧ ∀ m' ∈ ms, ∀ k < pageSize, V.byte st' (m'.phys + k) =
      if m' = m ∧ off ≤ k ∧ k < off + n then bs.getD (k - off) 0 else V.byte st (m'.phys + k) := by
  subst hn hst
  split
  · exact hL.store ms st m off bs hok hm hlen
  · next hz =>
      refine ⟨hok, fun m' _ k _ => ?_⟩
      rw [if_neg]
      omega

/-- The two stores of `fillPage`. -/
theorem fillPage_stores {v phys : Nat} (h : fillPage P F o v phys st = .ok st') :
    ∃ bs st₁, bs.length = (F.copied o v).2 ∧
      (∀ k < (F.copied o v).2, bs.getD k 0 =
        F.byte (u32
          (fileOff (F.value (pOffset o) 4) (F.value (pVaddr o) 4) v (F.copied o v).1 + k))) ∧
      st₁ = (if (F.copied o v).2 ≠ 0 then P.store st (phys + (F.copied o v).1) bs else st) ∧
      st' = (if (pageRange v (u32 (F.value (pVaddr o) 4 + F.value (pFilesz o) 4))
            (u32 (F.value (pVaddr o) 4 + F.value (pMemsz o) 4))).2 ≠ 0 then
          P.store st₁ (phys + (pageRange v (u32 (F.value (pVaddr o) 4 + F.value (pFilesz o) 4))
              (u32 (F.value (pVaddr o) 4 + F.value (pMemsz o) 4))).1)
            (List.replicate (pageRange v (u32 (F.value (pVaddr o) 4 + F.value (pFilesz o) 4))
              (u32 (F.value (pVaddr o) 4 + F.value (pMemsz o) 4))).2 0)
        else st₁) := by
  unfold fillPage at h
  obtain ⟨start, hstart, h⟩ := bind_eq_ok.mp h
  obtain ⟨filesz, hfs, h⟩ := bind_eq_ok.mp h
  obtain ⟨-, rfl⟩ := read_ok hstart
  obtain ⟨-, rfl⟩ := read_ok hfs
  dsimp only at h
  by_cases hlen : (F.copied o v).2 ≠ 0
  · unfold File.copied at hlen ⊢
    rw [if_pos hlen] at h
    obtain ⟨offset, ho, h⟩ := bind_eq_ok.mp h
    obtain ⟨bytes, hb, h⟩ := bind_eq_ok.mp h
    obtain ⟨st₁, hst₁, h⟩ := bind_eq_ok.mp h
    obtain ⟨memsz, hms, h⟩ := bind_eq_ok.mp h
    obtain ⟨-, rfl⟩ := read_ok ho
    obtain ⟨-, rfl⟩ := read_ok hms
    unfold File.readBytes at hb
    split at hb
    · refine ⟨bytes, st₁, ?_, fun k hk => ?_, ?_, (Except.ok.inj h).symm⟩
      · rw [← Except.ok.inj hb]
        simp
      · rw [← Except.ok.inj hb]
        simp [List.getD_eq_getElem?_getD, List.getElem?_map, List.getElem?_range hk]
      · rw [if_pos hlen]
        exact (Except.ok.inj hst₁).symm
    · nomatch hb
  · unfold File.copied at hlen ⊢
    rw [if_neg hlen] at h
    obtain ⟨st₁, hst₁, h⟩ := bind_eq_ok.mp h
    obtain ⟨memsz, hms, h⟩ := bind_eq_ok.mp h
    obtain ⟨-, rfl⟩ := read_ok hms
    refine ⟨[], st₁, ?_, fun k hk => ?_, ?_, (Except.ok.inj h).symm⟩
    · exact (not_not.mp hlen).symm
    · omega
    · rw [if_neg hlen]
      exact (Except.ok.inj hst₁).symm

/-- A page gets its part of the segment, and the other pages keep theirs. -/
theorem fillPage_image (hL : Lawful P V R) (hok : V.ok ms st) (hm : m ∈ ms) (hs : F.Sound o)
    (hv : m.vaddr + pageSize < 2 ^ 32) (h : fillPage P F o m.vaddr m.phys st = .ok st') :
    V.ok ms st' ∧ ∀ m' ∈ ms, ∀ k < pageSize, (m' = m → F.Covers o (m.vaddr + k) →
        V.byte st' (m'.phys + k) = F.content o (m.vaddr + k)) ∧
      (m' ≠ m ∨ ¬ F.Covers o (m.vaddr + k) → V.byte st' (m'.phys + k) =
        V.byte st (m'.phys + k)) := by
  obtain ⟨hlt, hlt', hoff⟩ := Sound.lt hs
  have hfilesz := hs.filesz
  obtain ⟨bs, st₁, hlen, hbs, hst₁, hst'⟩ := fillPage_stores h
  unfold File.copied at hlen hbs hst₁
  rw [u32_eq hlt] at hlen hbs hst₁ hst'
  rw [u32_eq hlt'] at hst'
  unfold File.Covers File.content
  generalize F.value (pVaddr o) 4 = start at *
  generalize F.value (pFilesz o) 4 = filesz at *
  generalize F.value (pMemsz o) 4 = memsz at *
  generalize F.value (pOffset o) 4 = offset at *
  obtain ⟨hok₁, hbyte₁⟩ := hL.store_if hok hm (by rw [hlen]; exact pageRange_le hv) hlen hst₁
  have hlen₂ :
      (List.replicate (pageRange m.vaddr (start + filesz) (start + memsz)).2
      (0 : BitVec 8)).length = _ :=
    List.length_replicate
  obtain ⟨hok₂, hbyte₂⟩ := hL.store_if hok₁ hm (by rw [hlen₂]; exact pageRange_le hv) hlen₂ hst'
  refine ⟨hok₂, fun m' hm' k hk => ?_⟩
  have hfile := pageRange_iff (s := start) (e := start + filesz) hv hk
  have hbss := pageRange_iff (s := start + filesz) (e := start + memsz) hv hk
  rw [hbyte₂ m' hm' k hk, hbyte₁ m' hm' k hk]
  simp only [hbss, hfile]
  constructor
  · rintro rfl ⟨hge, hlt₂⟩
    by_cases hin : m'.vaddr + k < start + filesz
    · rw [if_neg (by omega), if_pos ⟨rfl, hge, hin⟩, if_pos hin]
      obtain ⟨hk₁, hk₂⟩ := hfile.mpr ⟨hge, hin⟩
      have hstart := pageRange_start (v := m'.vaddr) (s := start) (e := start + filesz) (by omega)
      rw [hbs _ (by omega), fileOff_add hstart hk₁ (by omega)]
    · rw [if_pos ⟨rfl, by omega, hlt₂⟩, if_neg hin]
      exact getD_zeros _ _
  · intro hout
    rw [if_neg, if_neg]
    · rintro ⟨rfl, hge, hlt₂⟩
      rcases hout with hne | hout
      · exact hne rfl
      · exact hout ⟨hge, by omega⟩
    · rintro ⟨rfl, hge, hlt₂⟩
      rcases hout with hne | hout
      · exact hne rfl
      · exact hout ⟨by omega, hlt₂⟩

/-! ## the pages of a segment -/

/-- The pages of a segment. -/
theorem mem_segmentPages {vaddr memsz v : Nat} (hb : vaddr + memsz ≤ kernelVirtualBase) :
    v ∈ segmentPages vaddr memsz ↔ v % pageSize = 0 ∧ v < vaddr + memsz ∧ vaddr < v + pageSize := by
  unfold kernelVirtualBase at hb
  have hu₁ : u32 (vaddr + memsz) = vaddr + memsz := u32_eq (by omega)
  have hu₂ : u32 (vaddr + memsz + (pageSize - 1)) = vaddr + memsz + (pageSize - 1) :=
    u32_eq (by unfold pageSize; omega)
  simp only [segmentPages, alignDown, alignUp, hu₁, hu₂, List.mem_map, List.mem_range]
  unfold pageSize
  constructor
  · rintro ⟨k, hk, rfl⟩
    omega
  · intro hv
    exact ⟨(v - vaddr / 4096 * 4096) / 4096, by omega, by omega⟩

/-- No page of a segment comes twice. -/
theorem nodup_segmentPages (vaddr memsz : Nat) : (segmentPages vaddr memsz).Nodup := by
  refine List.Nodup.map ?_ List.nodup_range
  intro a b hab
  unfold pageSize at hab
  dsimp only at hab
  omega

/-- No two segments share a byte. -/
def File.Apart (F : File) (o o' : Nat) : Prop := ∀ a, F.Covers o a → ¬ F.Covers o' a

/-! ## the invariant -/

/-- The page `m` holds the bytes of the segments `segs`, and zeros elsewhere. -/
def PageOk (V : View σ) (F : File) (segs : List Nat) (st : σ) (m : MappedPage) : Prop :=
  ∀ k < pageSize,
    (∀ o ∈ segs, F.Covers o (m.vaddr + k) → V.byte st (m.phys + k) = F.content o (m.vaddr + k)) ∧
    ((∀ o ∈ segs, ¬ F.Covers o (m.vaddr + k)) → V.byte st (m.phys + k) = 0)

/-- **The loader's invariant**: `w v` are the segments that are written to the
page at `v`; those with bytes on it are written only after it is mapped. -/
structure Built (V : View σ) (F : File) (w : Nat → List Nat) (ms : List MappedPage)
    (st : σ) : Prop where
  ok : V.ok ms st
  nodup : (ms.map (·.vaddr)).Nodup
  length_le : ms.length ≤ maxElfPages
  aligned : ∀ m ∈ ms, m.vaddr % pageSize = 0
  page : ∀ m ∈ ms, PageOk V F (w m.vaddr) st m
  absent : ∀ v, v % pageSize = 0 → v ∉ ms.map (·.vaddr) →
    ∀ k < pageSize, ∀ o ∈ w v, ¬ F.Covers o (v + k)

variable {w : Nat → List Nat} {v phys : Nat}

/-- A page has a frame, new or old. -/
theorem framePage_built (hL : Lawful P V R) (hb : Built V F w ms st) (hR : R v)
    (hv : v % pageSize = 0)
    (hlen : ms.length < maxElfPages) (h : framePage P v ms st = (some (phys, ms'), st')) :
    Built V F w ms' st' ∧ ∃ m ∈ ms', m.vaddr = v ∧ m.phys = phys := by
  obtain ⟨rfl, rfl, hframe⟩ | ⟨hmem, st₁, st₂, halloc, hmap, rfl, rfl⟩ := framePage_cases h
  · exact ⟨hb, hframe⟩
  · obtain ⟨hok, hbyte⟩ := hL.map ms st st₁ st₂ v phys hb.ok hR hmem halloc hmap
    have hnew : (⟨v, phys⟩ : MappedPage) ∈ ms ++ [⟨v, phys⟩] := by simp
    obtain ⟨hok', hbyte'⟩ :=
      hL.store _ st₂ ⟨v, phys⟩ 0 (List.replicate pageSize 0) hok hnew (by simp)
    have hne : ∀ m ∈ ms, m ≠ ⟨v, phys⟩ := by
      rintro m hm rfl
      exact hmem (List.mem_map_of_mem hm)
    refine ⟨⟨hok', ?_, ?_, ?_, ?_, ?_⟩, _, hnew, rfl, rfl⟩
    · rw [List.map_append, List.nodup_append]
      refine ⟨hb.nodup, by simp, ?_⟩
      rintro a ha b hb rfl
      simp only [List.map_cons, List.map_nil, List.mem_singleton] at hb
      exact hmem (hb ▸ ha)
    · simp
      omega
    · intro m hm
      rcases List.mem_append.mp hm with hm | hm
      · exact hb.aligned m hm
      · rw [List.mem_singleton.mp hm]
        exact hv
    · intro m hm k hk
      rcases List.mem_append.mp hm with hm | hm
      · have hold := hbyte' m (List.mem_append_left _ hm) k hk
        rw [if_neg fun hc => hne m hm hc.1, hbyte m hm k hk] at hold
        simp only [Nat.add_zero] at hold
        rw [hold]
        exact hb.page m hm k hk
      · have hm := List.mem_singleton.mp hm
        subst hm
        have hzero := hbyte' ⟨v, phys⟩ hnew k hk
        rw [if_pos (by simpa using hk)] at hzero
        simp only [Nat.add_zero, getD_zeros] at hzero
        exact ⟨fun o ho hc => absurd hc (hb.absent v hv hmem k hk o ho), fun _ => hzero⟩
    · intro v' hv' hnot
      refine hb.absent v' hv' fun hin => hnot ?_
      rw [List.map_append]
      exact List.mem_append_left _ hin

/-- A page is filled. -/
theorem fillPage_built (hL : Lawful P V R) (hb : Built V F w ms st) (hm : m ∈ ms) (hs : F.Sound o)
    (hv : m.vaddr + pageSize < 2 ^ 32) (hapart : ∀ o' ∈ w m.vaddr, F.Apart o o')
    (h : fillPage P F o m.vaddr m.phys st = .ok st') :
    Built V F (Function.update w m.vaddr (w m.vaddr ++ [o])) ms st' := by
  obtain ⟨hok, hbyte⟩ := fillPage_image hL hb.ok hm hs hv h
  refine ⟨hok, hb.nodup, hb.length_le, hb.aligned, fun m' hm' k hk => ?_, fun v hv hnot k hk => ?_⟩
  · obtain ⟨hin, hout⟩ := hbyte m' hm' k hk
    obtain ⟨hseg, hzero⟩ := hb.page m' hm' k hk
    by_cases heq : m' = m
    · subst heq
      rw [Function.update_self]
      refine ⟨fun o' ho' hc => ?_, fun hnone => ?_⟩
      · rcases List.mem_append.mp ho' with ho' | ho'
        · rw [hout (.inr fun hc' => hapart o' ho' _ hc' hc)]
          exact hseg o' ho' hc
        · rw [List.mem_singleton.mp ho'] at hc ⊢
          exact hin rfl hc
      · rw [hout (.inr (hnone o (by simp)))]
        exact hzero fun o' ho' => hnone o' (List.mem_append_left _ ho')
    · have hne : m'.vaddr ≠ m.vaddr := fun h => heq (List.inj_on_of_nodup_map hb.nodup hm' hm h)
      rw [Function.update_of_ne hne, hout (.inl heq)]
      exact ⟨hseg, hzero⟩
  · have hne : v ≠ m.vaddr := by
      rintro rfl
      exact hnot (List.mem_map_of_mem hm)
    rw [Function.update_of_ne hne]
    exact hb.absent v hv hnot k hk

/-! ## the loops -/

/-- The pages of a segment are listed. -/
theorem mapPages_lists {vs : List Nat} (h : mapPages P F o vs ms st = .ok (true, ms', st'))
    (v : Nat) :
    v ∈ ms'.map (·.vaddr) ↔ v ∈ ms.map (·.vaddr) ∨ v ∈ vs := by
  induction vs generalizing ms st with
  | nil =>
      cases h
      simp
  | cons u us ih =>
      simp only [mapPages] at h
      split at h
      · cases h
      · split at h
        · cases h
        · next phys ms₁ st₁ hframe =>
            obtain ⟨st₂, -, hrest⟩ := bind_eq_ok.mp h
            rw [ih hrest, framePage_vaddrs hframe, mem_insertPage, List.mem_cons, or_assoc]

/-- The pages of a segment are filled. -/
theorem mapPages_built {vs : List Nat} (hL : Lawful P V R) (hb : Built V F w ms st) (hs : F.Sound o)
    (hnd : vs.Nodup)
    (hvs : ∀ v ∈ vs, R v ∧ v % pageSize = 0 ∧ v + pageSize < 2 ^ 32 ∧ ∀ o' ∈ w v, F.Apart o o')
    (h : mapPages P F o vs ms st = .ok (true, ms', st')) :
    Built V F (fun v => if v ∈ vs then w v ++ [o] else w v) ms' st' := by
  induction vs generalizing ms st w with
  | nil =>
      cases h
      simpa using hb
  | cons v vs ih =>
      obtain ⟨hR, hv, hlt, hapart⟩ := hvs v List.mem_cons_self
      obtain ⟨hnot, hnd'⟩ := List.nodup_cons.mp hnd
      simp only [mapPages] at h
      split at h
      · cases h
      · next hlen =>
          split at h
          · cases h
          · next phys ms₁ st₁ hframe =>
              obtain ⟨st₂, hfill, hrest⟩ := bind_eq_ok.mp h
              obtain ⟨hb₁, m, hm, rfl, rfl⟩ := framePage_built hL hb hR hv (by omega) hframe
              have hb₂ := fillPage_built hL hb₁ hm hs hlt hapart hfill
              have hother : ∀ v ∈ vs, v ≠ m.vaddr := fun v hv hveq => hnot (hveq ▸ hv)
              have hb₃ := ih hb₂ hnd' (fun v hv => by
                rw [Function.update_of_ne (hother v hv)]
                exact hvs v (List.mem_cons_of_mem _ hv)) hrest
              have hw :
                (fun v => if v ∈ vs then Function.update w m.vaddr (w m.vaddr ++ [o]) v ++ [o]
                  else Function.update w m.vaddr (w m.vaddr ++ [o]) v) =
                  fun v => if v ∈ m.vaddr :: vs then w v ++ [o] else w v := by
                funext v
                by_cases hveq : v = m.vaddr
                · subst hveq
                  simp [hnot]
                · simp [hveq]
              rw [← hw]
              exact hb₃

/-- After its last page a segment is written everywhere. -/
theorem Built.segment {segs : List Nat} (hs : F.Sound o)
    (hb : Built V F (fun v => if v ∈ F.pages o then segs ++ [o] else segs) ms st) :
    Built V F (fun _ => segs ++ [o]) ms st := by
  have hout : ∀ v, v % pageSize = 0 → v ∉ F.pages o → ∀ k < pageSize, ¬ F.Covers o (v + k) := by
    intro v hv hnot k hk hc
    refine hnot ((mem_segmentPages hs.below).mpr ⟨hv, ?_, ?_⟩)
    · have := hc.2
      omega
    · have := hc.1
      omega
  refine ⟨hb.ok, hb.nodup, hb.length_le, hb.aligned, fun m hm k hk => ?_,
    fun v hv hnot k hk o' ho' => ?_⟩
  · have hpage := hb.page m hm k hk
    by_cases hin : m.vaddr ∈ F.pages o
    · simpa only [if_pos hin] using hpage
    · simp only [if_neg hin] at hpage
      refine ⟨fun o' ho' hc => ?_, fun hnone => hpage.2 fun o' ho' =>
        hnone o' (List.mem_append_left _ ho')⟩
      rcases List.mem_append.mp ho' with ho' | ho'
      · exact hpage.1 o' ho' hc
      · rw [List.mem_singleton.mp ho'] at hc
        exact absurd hc (hout _ (hb.aligned m hm) hin k hk)
  · have habsent := hb.absent v hv hnot k hk
    by_cases hin : v ∈ F.pages o
    · simp only [if_pos hin] at habsent
      exact habsent o' ho'
    · simp only [if_neg hin] at habsent
      rcases List.mem_append.mp ho' with ho' | ho'
      · exact habsent o' ho'
      · rw [List.mem_singleton.mp ho']
        exact hout v hv hin k hk

end

instance (F : File) (o : Nat) : Decidable (F.Loads o) := inferInstanceAs (Decidable (_ ∧ _))

/-- The headers of the segments that `load` maps. -/
def File.loaded (F : File) (os : List Nat) : List Nat := os.filter fun o => F.Loads o

/-- What the loader needs of a segment, other than the checks it makes itself. -/
structure File.Placed (F : File) (R : Nat → Prop) (o : Nat) : Prop where
  filesz : F.value (pFilesz o) 4 ≤ F.value (pMemsz o) 4
  inside : F.value (pOffset o) 4 + F.value (pFilesz o) 4 ≤ F.size
  pages : ∀ v ∈ F.pages o, R v

section

variable {σ : Type} {P : Pages σ} {V : View σ} {R : Nat → Prop} {F : File} {o : Nat}
  {ms ms' : List MappedPage} {st st' : σ}

/-- A segment that is valid and well placed is sound. -/
theorem sound_of_valid (hp : F.Placed R o)
    (hv : validSegment (F.value (pVaddr o) 4) (F.value (pMemsz o) 4) = true) :
    F.Sound o :=
  ⟨validSegment_below (value_lt F _ 4) (value_lt F _ 4) hv, hp.filesz, hp.inside⟩

/-- One header of the loop, whichever way it ends. -/
theorem loadSegments_cases {os : List Nat}
    (h : loadSegments P F (o :: os) ms st = .ok (done, ms', st')) :
    (¬ F.Loads o ∧ loadSegments P F os ms st = .ok (done, ms', st')) ∨
      (F.Loads o ∧ ¬ validSegment (F.value (pVaddr o) 4) (F.value (pMemsz o) 4) = true ∧
        done = false ∧ ms' = ms ∧ st' = st) ∨
      (F.Loads o ∧ validSegment (F.value (pVaddr o) 4) (F.value (pMemsz o) 4) = true ∧
        ∃ ended ms₁ st₁,
        mapPages P F o (F.pages o) ms st = .ok (ended, ms₁, st₁) ∧
          ((ended = true ∧ loadSegments P F os ms₁ st₁ = .ok (done, ms', st')) ∨
            (ended = false ∧ done = false ∧ ms' = ms₁ ∧ st' = st₁))) := by
  unfold loadSegments at h
  obtain ⟨type, ht, h⟩ := bind_eq_ok.mp h
  obtain ⟨-, rfl⟩ := read_ok ht
  split at h
  · next hne => exact .inl ⟨fun hl => hne hl.1, h⟩
  · next hload =>
      obtain ⟨memsz, hm, h⟩ := bind_eq_ok.mp h
      obtain ⟨-, rfl⟩ := read_ok hm
      split at h
      · next hz => exact .inl ⟨fun hl => hl.2 hz, h⟩
      · next hne =>
          have hloads : F.Loads o := ⟨not_not.mp hload, hne⟩
          obtain ⟨vaddr, hv, h⟩ := bind_eq_ok.mp h
          obtain ⟨-, rfl⟩ := read_ok hv
          obtain ⟨memsz, hm', h⟩ := bind_eq_ok.mp h
          obtain ⟨-, rfl⟩ := read_ok hm'
          split at h
          · next hvalid =>
              cases h
              exact .inr (.inl ⟨hloads, hvalid, rfl, rfl, rfl⟩)
          · next hvalid =>
              obtain ⟨⟨ended, ms₁, st₁⟩, hmap, h⟩ := bind_eq_ok.mp h
              unfold mapSegmentRange at hmap
              obtain ⟨vaddr, hv', hmap⟩ := bind_eq_ok.mp hmap
              obtain ⟨-, rfl⟩ := read_ok hv'
              obtain ⟨memsz, hm'', hmap⟩ := bind_eq_ok.mp hmap
              obtain ⟨-, rfl⟩ := read_ok hm''
              refine .inr (.inr ⟨hloads, not_not.mp hvalid, ended, ms₁, st₁, hmap, ?_⟩)
              cases ended with
              | true => exact .inl ⟨rfl, h⟩
              | false =>
                  cases h
                  exact .inr ⟨rfl, rfl, rfl, rfl⟩

/-- One header of a loop that comes to its end. -/
theorem loadSegments_cons {os : List Nat}
    (h : loadSegments P F (o :: os) ms st = .ok (true, ms', st')) :
    (¬ F.Loads o ∧ loadSegments P F os ms st = .ok (true, ms', st')) ∨
      (F.Loads o ∧ validSegment (F.value (pVaddr o) 4) (F.value (pMemsz o) 4) = true ∧
        ∃ ms₁ st₁, mapPages P F o (F.pages o) ms st = .ok (true, ms₁, st₁) ∧
          loadSegments P F os ms₁ st₁ = .ok (true, ms', st')) := by
  obtain hskip | ⟨-, -, hend, -, -⟩ | ⟨hloads, hvalid, ended, ms₁, st₁, hmap, hrest⟩ :=
    loadSegments_cases h
  · exact .inl hskip
  · contradiction
  · obtain ⟨rfl, hrest⟩ | ⟨-, hend, -, -⟩ := hrest
    · exact .inr ⟨hloads, hvalid, ms₁, st₁, hmap, hrest⟩
    · contradiction

/-- All segments that were mapped are valid. -/
theorem loadSegments_valid {os : List Nat} (h : loadSegments P F os ms st = .ok (true, ms', st')) :
    ∀ o ∈ F.loaded os, validSegment (F.value (pVaddr o) 4) (F.value (pMemsz o) 4) = true := by
  induction os generalizing ms st with
  | nil => exact fun o ho => by contradiction
  | cons o os ih =>
      rcases loadSegments_cons h with ⟨hl, h⟩ | ⟨hl, hv, ms₁, st₁, -, h⟩
      · rw [File.loaded, List.filter_cons_of_neg (by simpa using hl)]
        exact ih h
      · rw [File.loaded, List.filter_cons_of_pos (by simpa using hl)]
        exact List.forall_mem_cons.mpr ⟨hv, ih h⟩

/-- A load that succeeds lists all pages of its segments. -/
theorem loadSegments_lists {os : List Nat} (h : loadSegments P F os ms st = .ok (true, ms', st'))
    (v : Nat) :
    v ∈ ms'.map (·.vaddr) ↔ v ∈ ms.map (·.vaddr) ∨ ∃ o ∈ F.loaded os, v ∈ F.pages o := by
  induction os generalizing ms st with
  | nil =>
      cases h
      simp [File.loaded]
  | cons o os ih =>
      rcases loadSegments_cons h with ⟨hl, h⟩ | ⟨hl, -, ms₁, st₁, hmap, h⟩
      · have hloaded : F.loaded (o :: os) = F.loaded os :=
          List.filter_cons_of_neg (by simpa using hl)
        rw [hloaded]
        exact ih h
      · have hloaded : F.loaded (o :: os) = o :: F.loaded os :=
          List.filter_cons_of_pos (by simpa using hl)
        rw [ih h, mapPages_lists hmap, hloaded, or_assoc]
        simp

/-- All segments are mapped and filled. -/
theorem loadSegments_built {os segs : List Nat} (hL : Lawful P V R)
    (hb : Built V F (fun _ => segs) ms st)
    (hplaced : ∀ o ∈ F.loaded os, F.Placed R o)
    (hapart : (segs ++ F.loaded os).Pairwise fun o o' => F.Apart o' o)
    (h : loadSegments P F os ms st = .ok (true, ms', st')) :
    Built V F (fun _ => segs ++ F.loaded os) ms' st' := by
  induction os generalizing ms st segs with
  | nil =>
      cases h
      simpa [File.loaded] using hb
  | cons o os ih =>
      rcases loadSegments_cons h with ⟨hl, h⟩ | ⟨hl, hvalid, ms₁, st₁, hmap, h⟩
      · have hskip : F.loaded (o :: os) = F.loaded os := List.filter_cons_of_neg (by simpa using hl)
        rw [hskip] at hplaced hapart ⊢
        exact ih hb hplaced hapart h
      · have htake : F.loaded (o :: os) = o :: F.loaded os :=
          List.filter_cons_of_pos (by simpa using hl)
        rw [htake] at hplaced hapart ⊢
        have hp := hplaced o List.mem_cons_self
        have hs := sound_of_valid hp hvalid
        have hpages : ∀ v ∈ F.pages o, R v ∧ v % pageSize = 0 ∧ v + pageSize < 2 ^ 32 ∧ ∀ o' ∈ segs,
            F.Apart o o' := by
          intro v hv
          obtain ⟨hal, hlt, -⟩ := (mem_segmentPages hs.below).mp hv
          have hbelow := hs.below
          refine ⟨hp.pages v hv, hal, ?_, fun o' ho' => ?_⟩
          · unfold kernelVirtualBase at hbelow
            unfold pageSize
            omega
          · exact (List.pairwise_append.mp hapart).2.2 o' ho' o List.mem_cons_self
        have hb₁ := mapPages_built hL hb hs (nodup_segmentPages _ _) hpages hmap
        have hb₂ := hb₁.segment hs
        have hcons : segs ++ o :: F.loaded os = segs ++ [o] ++ F.loaded os := by simp
        rw [hcons] at hapart ⊢
        exact ih hb₂ (fun o' ho' => hplaced o' (List.mem_cons_of_mem _ ho')) hapart h

/-- The lowest address is that of a segment. -/
theorem computeElfRange_low {os : List Nat} {low : Option Nat} {r : Nat}
    (h : computeElfRange F os low = .ok (some r)) :
    low = some r ∨ ∃ o ∈ F.loaded os, F.value (pVaddr o) 4 = r := by
  induction os generalizing low with
  | nil =>
      cases h
      exact .inl rfl
  | cons o os ih =>
      unfold computeElfRange at h
      obtain ⟨type, ht, h⟩ := bind_eq_ok.mp h
      obtain ⟨-, rfl⟩ := read_ok ht
      have htail : ∀ {low'}, computeElfRange F os low' = .ok (some r) →
          low' = some r ∨ ∃ o' ∈ F.loaded (o :: os), F.value (pVaddr o') 4 = r := by
        intro low' h
        rcases ih h with h | ⟨o', ho', h⟩
        · exact .inl h
        · refine .inr ⟨o', ?_, h⟩
          simp only [File.loaded, List.mem_filter] at ho' ⊢
          exact ⟨List.mem_cons_of_mem _ ho'.1, ho'.2⟩
      split at h
      · exact htail h
      · next hload =>
          obtain ⟨memsz, hm, h⟩ := bind_eq_ok.mp h
          obtain ⟨-, rfl⟩ := read_ok hm
          split at h
          · exact htail h
          · next hne =>
              obtain ⟨vaddr, hv, h⟩ := bind_eq_ok.mp h
              obtain ⟨-, rfl⟩ := read_ok hv
              have hmem : o ∈ F.loaded (o :: os) := by
                simp only [File.loaded, List.mem_filter, List.mem_cons, true_or, true_and,
                  decide_eq_true_eq]
                exact ⟨not_not.mp hload, hne⟩
              have hlt := value_lt F (pVaddr o) 4
              rcases htail h with h | h
              · have h := Option.some.inj h
                cases low with
                | none =>
                    simp only [Option.getD_none] at h
                    exact .inr ⟨o, hmem, by omega⟩
                | some l =>
                    simp only [Option.getD_some] at h
                    rcases Nat.le_total (F.value (pVaddr o) 4) l with hle | hle
                    · exact .inr ⟨o, hmem, by omega⟩
                    · exact .inl (by rw [← h, Nat.min_eq_right hle])
              · exact .inr h

/-- What a successful `load` has done. -/
theorem load_some {r : LoadResult} (h : load P F st = .ok (some r, st')) :
    r.entry = F.value 24 4 ∧ ∃ low st₀, computeElfRange F F.headers none = .ok low ∧
      (st₀ = st ∨ ∃ l, low = some l ∧ st₀ = P.clearPageTable st (alignDown l)) ∧
      loadSegments P F F.headers [] st₀ = .ok (true, r.pages, st') := by
  unfold load at h
  obtain ⟨b, hb, h₁⟩ := bind_eq_ok.mp h
  cases b with
  | false => cases h₁
  | true =>
      rw [if_neg (by simp)] at h₁
      obtain ⟨phoff, hphoff, h₂⟩ := bind_eq_ok.mp h₁
      obtain ⟨phnum, hphnum, h₃⟩ := bind_eq_ok.mp h₂
      obtain ⟨phentsize, hphentsize, h₄⟩ := bind_eq_ok.mp h₃
      obtain ⟨low, hlow, h₅⟩ := bind_eq_ok.mp h₄
      obtain ⟨⟨done, ms, st₁⟩, hloaded, h₆⟩ := bind_eq_ok.mp h₅
      obtain ⟨-, rfl⟩ := read_ok hphoff
      obtain ⟨-, rfl⟩ := read_ok hphnum
      obtain ⟨-, rfl⟩ := read_ok hphentsize
      cases done with
      | false => cases h₆
      | true =>
          obtain ⟨entry, hentry, h₇⟩ := bind_eq_ok.mp h₆
          obtain ⟨-, rfl⟩ := read_ok hentry
          cases h₇
          refine ⟨rfl, low, _, hlow, ?_, hloaded⟩
          cases low with
          | none => exact .inl rfl
          | some l =>
              dsimp only
              split
              · exact .inr ⟨l, rfl, rfl⟩
              · exact .inl rfl

/-- The image of a file: every byte of every segment is where it belongs, and
the rest of the mapped pages is zero. -/
structure Image (V : View σ) (F : File) (r : LoadResult) (st : σ) : Prop where
  segment : ∀ o ∈ F.loaded F.headers, ∀ k < F.value (pMemsz o) 4, ∃ phys,
    V.look st (alignDown (F.value (pVaddr o) 4 + k)) = some phys ∧
      V.byte st (phys + (F.value (pVaddr o) 4 + k) % pageSize) =
        if k < F.value (pFilesz o) 4 then F.byte (F.value (pOffset o) 4 + k) else 0
  zero : ∀ m ∈ r.pages, ∀ k < pageSize, (∀ o ∈ F.loaded F.headers, ¬ F.Covers o (m.vaddr + k)) →
    V.byte st (m.phys + k) = 0
  nodup : (r.pages.map (·.vaddr)).Nodup
  pages : ∀ v, v ∈ r.pages.map (·.vaddr) ↔ ∃ o ∈ F.loaded F.headers, v ∈ F.pages o
  frames : ∀ m ∈ r.pages, V.look st m.vaddr = some m.phys
  length_le : r.pages.length ≤ maxElfPages
  entry : r.entry = F.value 24 4

/-- What is built is the image. -/
theorem Built.image {r : LoadResult} (hL : Lawful P V R)
    (hb : Built V F (fun _ => F.loaded F.headers) r.pages st)
    (hsound : ∀ o ∈ F.loaded F.headers, F.Sound o)
    (hmem : ∀ v, v ∈ r.pages.map (·.vaddr) ↔ ∃ o ∈ F.loaded F.headers, v ∈ F.pages o)
    (hentry : r.entry = F.value 24 4) : Image V F r st where
  segment o ho k hk := by
    have hcov : F.Covers o (F.value (pVaddr o) 4 + k) := ⟨by omega, by omega⟩
    generalize ha : F.value (pVaddr o) 4 + k = a at hcov ⊢
    have hsplit : alignDown a + a % pageSize = a := by
      unfold alignDown pageSize
      omega
    have hpage : alignDown a ∈ F.pages o := by
      refine (mem_segmentPages (hsound o ho).below).mpr ⟨?_, ?_, ?_⟩
      · unfold alignDown pageSize
        omega
      · have := hcov.2
        omega
      · have := hcov.1
        have : a % pageSize < pageSize := Nat.mod_lt _ (by decide)
        omega
    obtain ⟨m, hm, hv⟩ := List.mem_map.mp ((hmem _).mpr ⟨o, ho, hpage⟩)
    rw [← hv] at hsplit ⊢
    refine ⟨m.phys, hL.look _ _ m hb.ok hm, ?_⟩
    rw [(hb.page m hm (a % pageSize) (Nat.mod_lt _ (by decide))).1 o ho
      (by rw [hsplit]; exact hcov), hsplit, File.content]
    by_cases hfile : k < F.value (pFilesz o) 4
    · rw [if_pos (by omega), if_pos hfile]
      congr 1
      omega
    · rw [if_neg (by omega), if_neg hfile]
  zero m hm k hk := (hb.page m hm k hk).2
  nodup := hb.nodup
  pages := hmem
  frames m hm := hL.look _ _ m hb.ok hm
  length_le := hb.length_le
  entry := hentry

/-- **The image of a successful load**, over lawful paging code. -/
theorem load_image {r : LoadResult} (hL : Lawful P V R) (hok : V.ok [] st)
    (hplaced : ∀ o ∈ F.loaded F.headers, F.Placed R o)
    (hapart : (F.loaded F.headers).Pairwise fun o o' => F.Apart o o')
    (h : load P F st = .ok (some r, st')) :
    Image V F r st' := by
  obtain ⟨hentry, low, st₀, hlow, hclear, hload⟩ := load_some h
  have hsound : ∀ o ∈ F.loaded F.headers, F.Sound o :=
    fun o ho => sound_of_valid (hplaced o ho) (loadSegments_valid hload o ho)
  have hok' : V.ok [] st₀ := by
    rcases hclear with rfl | ⟨l, rfl, rfl⟩
    · exact hok
    · obtain ⟨o, ho, rfl⟩ := (computeElfRange_low hlow).resolve_left (by simp)
      refine hL.clear _ _ hok
        ((hplaced o ho).pages _ ((mem_segmentPages (hsound o ho).below).mpr ?_))
      have hmemsz : F.value (pMemsz o) 4 ≠ 0 := by
        simp only [File.loaded, List.mem_filter, decide_eq_true_eq] at ho
        exact ho.2.2
      unfold alignDown pageSize
      omega
  have hb : Built V F (fun _ => []) [] st₀ := ⟨hok', by simp, by simp, by simp, by simp, by simp⟩
  have hapart' : ([] ++ F.loaded F.headers).Pairwise fun o o' => F.Apart o' o :=
    hapart.imp fun hd a ha ha' => hd a ha' ha
  have hb' := loadSegments_built hL hb hplaced hapart' hload
  have hmem : ∀ v, v ∈ r.pages.map (·.vaddr) ↔ ∃ o ∈ F.loaded F.headers, v ∈ F.pages o := by
    simpa using loadSegments_lists hload
  rw [List.nil_append] at hb'
  exact hb'.image hL hsound hmem hentry

end

end Doors.Elf
