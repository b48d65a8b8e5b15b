import Doors.Elf.Paged
import Doors.Memory.Unmap

/-!
# Doors.Elf.Outcome

What `load` does, whichever way it ends.

* `load_cases` — a rejected file, a loop that came to its end, or one that stopped
  and was rolled back;
* `Keeps`, `loadSegments_keeps` — the rule for what every call of the loop keeps;
* `Loading` — the invariant of the loop on the kernel's paging code, over a set of
  frames that it does not leave.
-/

namespace Doors.Elf

open Run Memory

/-! ## the ways to end -/

section

variable {σ : Type} {P : Pages σ} {F : File} {o v phys : Nat} {ms ms' : List MappedPage}
  {st st' : σ} {done : Bool}

/-- The table of the lowest page is cleared. -/
def start (P : Pages σ) (low : Option Nat) (st : σ) : σ :=
  match low with
  | some low => if low ≠ 0xFFFFFFFF then P.clearPageTable st (alignDown low) else st
  | none => st

/-- The loop of `load`, on a file that `validate` accepts. -/
def attempt (P : Pages σ) (F : File) (st : σ) : Except OutOfFile (Bool × List MappedPage × σ) := do
  let low ← computeElfRange F F.headers none
  loadSegments P F F.headers [] (start P low st)

/-- The pages in `mapped` when the loop ends. -/
def mappedPages (P : Pages σ) (F : File) (st : σ) : List MappedPage :=
  match validate F, attempt P F st with
  | .ok true, .ok (_, ms, _) => ms
  | _, _ => []

/-- The three ways out of `load`. -/
theorem load_cases {res : Option LoadResult} (h : load P F st = .ok (res, st')) :
    (validate F = .ok false ∧ res = none ∧ st' = st) ∨ (validate F = .ok true ∧ ∃ done ms st₁,
      attempt P F st = .ok (done, ms, st₁) ∧
        ((done = true ∧ res = some ⟨F.value 24 4, ms⟩ ∧ st' = st₁) ∨
        (done = false ∧ res = none ∧ st' = rollbackMapped P ms st₁))) := by
  unfold load at h
  obtain ⟨b, hb, h₁⟩ := bind_eq_ok.mp h
  cases b with
  | false =>
      cases h₁
      exact .inl ⟨hb, rfl, rfl⟩
  | true =>
      rw [if_neg (by simp)] at h₁
      obtain ⟨phoff, hphoff, h₂⟩ := bind_eq_ok.mp h₁
      obtain ⟨phnum, hphnum, h₃⟩ := bind_eq_ok.mp h₂
      obtain ⟨phentsize, hphentsize, h₄⟩ := bind_eq_ok.mp h₃
      obtain ⟨low, hlow, h₅⟩ := bind_eq_ok.mp h₄
      obtain ⟨⟨done, ms, st₁⟩, hloop, h₆⟩ := bind_eq_ok.mp h₅
      obtain ⟨-, rfl⟩ := read_ok hphoff
      obtain ⟨-, rfl⟩ := read_ok hphnum
      obtain ⟨-, rfl⟩ := read_ok hphentsize
      refine .inr ⟨hb, done, ms, st₁, bind_eq_ok.mpr ⟨low, hlow, hloop⟩, ?_⟩
      cases done with
      | false =>
          cases h₆
          exact .inr ⟨rfl, rfl, rfl⟩
      | true =>
          obtain ⟨entry, hentry, h₇⟩ := bind_eq_ok.mp h₆
          obtain ⟨-, rfl⟩ := read_ok hentry
          cases h₇
          exact .inl ⟨rfl, rfl, rfl⟩

/-! ## what every call keeps -/

/-- `J` is kept by what the loop does for the pages in `R`: a page is mapped, or
cannot be, or a mapped page is written. -/
structure Keeps (P : Pages σ) (R : Nat → Prop) (J : List MappedPage → σ → Prop) : Prop where
  refuse : ∀ ms st st₁, J ms st → P.allocFrame st = (none, st₁) → J ms st₁
  map : ∀ ms st st₁ st₂ v phys, J ms st → R v → v ∉ ms.map (·.vaddr) →
    P.allocFrame st = (some phys, st₁) →
    P.mapPage st₁ v phys = (true, st₂) → J (ms ++ [⟨v, phys⟩]) st₂
  fail : ∀ ms st st₁ st₂ v phys, J ms st → R v → P.allocFrame st = (some phys, st₁) →
    P.mapPage st₁ v phys = (false, st₂) → J ms (P.freeFrame st₂ phys)
  store : ∀ ms st m off bs, J ms st → m ∈ ms → off + bs.length ≤ pageSize →
    J ms (P.store st (m.phys + off) bs)

variable {R : Nat → Prop} {J : List MappedPage → σ → Prop}

/-- A page that was mapped stays in the list. -/
theorem keeps_ne_nil : Keeps P (fun _ => True) fun ms _ => ms ≠ [] :=
  ⟨fun _ _ _ hJ _ => hJ,
    fun _ _ _ _ _ _ _ _ _ _ _ => by simp, fun _ _ _ _ _ _ hJ _ _ _ =>
    hJ, fun _ _ _ _ _ hJ _ _ => hJ⟩

/-- A page that gets no frame. -/
theorem framePage_none (hK : Keeps P R J) (hJ : J ms st) (hR : R v)
    (h : framePage P v ms st = (none, st')) : J ms st' := by
  unfold framePage at h
  split at h
  · simp at h
  · split at h
    · next st₁ halloc =>
        obtain rfl := (Prod.mk.inj h).2
        exact hK.refuse ms st _ hJ halloc
    · next p st₁ halloc =>
        split at h
        · next st₂ hmap =>
            obtain rfl := (Prod.mk.inj h).2
            exact hK.fail ms st st₁ st₂ v p hJ hR halloc hmap
        · simp at h

/-- A page that has a frame. -/
theorem framePage_some (hK : Keeps P R J) (hJ : J ms st) (hR : R v)
    (h : framePage P v ms st = (some (phys, ms'), st')) :
    J ms' st' ∧ ∃ m ∈ ms', m.vaddr = v ∧ m.phys = phys := by
  obtain ⟨rfl, rfl, hframe⟩ | ⟨hmem, st₁, st₂, halloc, hmap, rfl, rfl⟩ := framePage_cases h
  · exact ⟨hJ, hframe⟩
  · have hnew : (⟨v, phys⟩ : MappedPage) ∈ ms ++ [⟨v, phys⟩] := by simp
    have hJ' := hK.map ms st st₁ st₂ v phys hJ hR hmem halloc hmap
    exact ⟨hK.store _ st₂ ⟨v, phys⟩ 0 (List.replicate pageSize 0) hJ' hnew (by simp), _, hnew, rfl,
      rfl⟩

/-- A store that may be left out when there is nothing to write. -/
theorem Keeps.store_if {m : MappedPage} {off n : Nat} {bs : List (BitVec 8)} (hK : Keeps P R J)
    (hJ : J ms st) (hm : m ∈ ms)
    (hlen : off + bs.length ≤ pageSize)
    (hst : st' = if n ≠ 0 then P.store st (m.phys + off) bs else st) : J ms st' := by
  by_cases hn : n ≠ 0
  · rw [hst, if_pos hn]
    exact hK.store ms st m off bs hJ hm hlen
  · rw [hst, if_neg hn]
    exact hJ

/-- Filling a page. -/
theorem fillPage_keeps {m : MappedPage} (hK : Keeps P R J) (hJ : J ms st) (hm : m ∈ ms)
    (hv : m.vaddr + pageSize < 2 ^ 32)
    (h : fillPage P F o m.vaddr m.phys st = .ok st') : J ms st' := by
  obtain ⟨bs, st₁, hlen, -, hst₁, hst'⟩ := fillPage_stores h
  have hJ₁ : J ms st₁ := hK.store_if hJ hm (by rw [hlen]; exact pageRange_le hv) hst₁
  exact hK.store_if hJ₁ hm (by rw [List.length_replicate]; exact pageRange_le hv) hst'

/-- The loop over the pages. -/
theorem mapPages_keeps {vs : List Nat} (hK : Keeps P R J) (hJ : J ms st)
    (hvs : ∀ v ∈ vs, R v ∧ v + pageSize < 2 ^ 32)
    (h : mapPages P F o vs ms st = .ok (done, ms', st')) : J ms' st' := by
  induction vs generalizing ms st with
  | nil =>
      cases h
      exact hJ
  | cons v vs ih =>
      obtain ⟨hR, hlt⟩ := hvs v List.mem_cons_self
      simp only [mapPages] at h
      split at h
      · cases h
        exact hJ
      · split at h
        · next st₁ hframe =>
            cases h
            exact framePage_none hK hJ hR hframe
        · next phys ms₁ st₁ hframe =>
            obtain ⟨st₂, hfill, hrest⟩ := bind_eq_ok.mp h
            obtain ⟨hJ₁, m, hm, rfl, rfl⟩ := framePage_some hK hJ hR hframe
            exact ih (fillPage_keeps hK hJ₁ hm hlt hfill)
              (fun v hv => hvs v (List.mem_cons_of_mem _ hv)) hrest

/-- The pages of a valid segment are below the kernel. -/
theorem pages_lt (hvalid : validSegment (F.value (pVaddr o) 4) (F.value (pMemsz o) 4) = true)
    (hv : v ∈ F.pages o) :
    v + pageSize < 2 ^ 32 := by
  have hbelow := validSegment_below (value_lt F _ 4) (value_lt F _ 4) hvalid
  obtain ⟨-, hlt, -⟩ := (mem_segmentPages hbelow).mp hv
  unfold kernelVirtualBase at hbelow
  unfold pageSize
  omega

/-- The loop over the headers. -/
theorem loadSegments_keeps {os : List Nat} (hK : Keeps P R J) (hJ : J ms st)
    (hR : ∀ o ∈ F.loaded os, ∀ v ∈ F.pages o, R v)
    (h : loadSegments P F os ms st = .ok (done, ms', st')) : J ms' st' := by
  induction os generalizing ms st with
  | nil =>
      cases h
      exact hJ
  | cons o os ih =>
      have htail : ∀ o' ∈ F.loaded os, ∀ v ∈ F.pages o', R v := by
        intro o' ho'
        simp only [File.loaded, List.mem_filter] at ho'
        exact hR o'
          (by simp only [File.loaded, List.mem_filter]; exact ⟨List.mem_cons_of_mem _ ho'.1, ho'.2⟩)
      rcases loadSegments_cases h with ⟨-, h⟩ | ⟨-, -, -, rfl, rfl⟩ |
        ⟨hl, hvalid, ended, ms₁, st₁, hmap, hrest⟩
      · exact ih hJ htail h
      · exact hJ
      · have ho : o ∈ F.loaded (o :: os) := by
          simp only [File.loaded, List.mem_filter, List.mem_cons, true_or, true_and,
            decide_eq_true_eq]
          exact hl
        have hJ₁ := mapPages_keeps hK hJ (fun v hv => ⟨hR o ho v hv, pages_lt hvalid hv⟩) hmap
        rcases hrest with ⟨-, h⟩ | ⟨-, -, rfl, rfl⟩
        · exact ih hJ₁ htail h
        · exact hJ₁

/-- Only pages of segments are mapped. -/
theorem loadSegments_pages {os : List Nat} (hR : ∀ o ∈ F.loaded os, ∀ v ∈ F.pages o, R v)
    (h : loadSegments P F os [] st = .ok (done, ms', st')) : ∀ m ∈ ms', R m.vaddr := by
  have hkeep : Keeps P R fun ms _ => ∀ m ∈ ms, R m.vaddr := by
    refine ⟨fun _ _ _ hJ _ => hJ, fun ms _ _ _ v phys hJ hv _ _ _ => ?_,
      fun _ _ _ _ _ _ hJ _ _ _ => hJ,
      fun _ _ _ _ _ hJ _ _ => hJ⟩
    exact List.forall_mem_append.mpr ⟨hJ, by simpa using hv⟩
  exact loadSegments_keeps hkeep (by simp) hR h

/-- No page is mapped twice. -/
theorem loadSegments_nodup {os : List Nat} (h : loadSegments P F os [] st = .ok (done, ms', st')) :
    (ms'.map (·.vaddr)).Nodup := by
  have hkeep : Keeps P (fun _ => True) fun ms _ => (ms.map (·.vaddr)).Nodup := by
    refine ⟨fun _ _ _ hJ _ => hJ, fun ms _ _ _ v phys hJ _ hv _ _ => ?_,
      fun _ _ _ _ _ _ hJ _ _ _ => hJ,
      fun _ _ _ _ _ hJ _ _ => hJ⟩
    rw [List.map_append, List.nodup_append]
    refine ⟨hJ, by simp, ?_⟩
    rintro a ha b hb rfl
    simp only [List.map_cons, List.map_nil, List.mem_singleton] at hb
    exact hv (hb ▸ ha)
  exact loadSegments_keeps hkeep (by simp) (fun _ _ _ _ => trivial) h

/-- Pages that are mapped stay. -/
theorem mapPages_ne_nil {vs : List Nat} (hne : ms ≠ []) (hvs : ∀ v ∈ vs, v + pageSize < 2 ^ 32)
    (h : mapPages P F o vs ms st = .ok (done, ms', st')) : ms' ≠ [] :=
  mapPages_keeps (J := fun ms _ => ms ≠ []) keeps_ne_nil hne (fun v hv => ⟨trivial, hvs v hv⟩) h

/-- The list of pages does not shrink. -/
theorem loadSegments_ne_nil {os : List Nat} (hne : ms ≠ [])
    (h : loadSegments P F os ms st = .ok (done, ms', st')) : ms' ≠ [] :=
  loadSegments_keeps (J := fun ms _ => ms ≠ []) keeps_ne_nil hne (fun _ _ _ _ => trivial) h

end

/-! ## the loop on the kernel's paging code -/

section

variable {dir kernelDir a v i : Nat} {RI U : Nat → Prop} {ms : List MappedPage} {m : MappedPage}
  {T T' T₀ : Tables}
  {st st' st₀ : Phys} {mem : Nat → BitVec 8}

/-- The tables of a directory are in its memory. -/
theorem tables_unique (hI : Inv dir T st) (hS : Shows dir T mem) (hI' : Inv dir T' st')
    (hS' : Shows dir T' mem) : T = T' := by
  have htab : T.tab = T'.tab := by
    funext i
    by_cases hi : i < pteCount
    · refine Option.ext fun t => ?_
      rw [hS.tab i hi t, hS'.tab i hi t]
    · cases h : T.tab i with
      | some t => exact absurd (hS.tab_lt i t h) hi
      | none =>
          cases h' : T'.tab i with
          | some t => exact absurd (hS'.tab_lt i t h') hi
          | none => rfl
  have hmap : T.map = T'.map := by
    funext q
    obtain ⟨i, j⟩ := q
    cases h : T.tab i with
    | none => rw [hS.none i j h, hS'.none i j (htab ▸ h)]
    | some t =>
        by_cases hj : j < pteCount
        · refine Option.ext fun g => ?_
          rw [hS.map i t h j hj g, hS'.map i t (htab ▸ h) j hj g]
        · cases hm : T.map (i, j) with
          | some g => exact absurd (mem_slots.mp (hI.map_slot _ g hm)).2 hj
          | none =>
              cases hm' : T'.map (i, j) with
              | some g => exact absurd (mem_slots.mp (hI'.map_slot _ g hm')).2 hj
              | none => rfl
  cases T
  cases T'
  simp_all

/-- **The invariant of the loop** from the tables `T₀` on: the frames in use are in
`U`, each page has a frame of its own, the other slots are as they were, and so is
what is outside `U`, and every supervisor entry. -/
structure Loading (dir : Nat) (RI U : Nat → Prop) (T₀ : Tables) (st₀ : Phys) (ms : List MappedPage)
    (T : Tables)
    (st : Phys) : Prop where
  ok : PagesOk dir RI ms T st
  free : ∀ b ∈ st.free, U b ∧ b ≠ 0 ∧ st.Counted b
  tab : ∀ k t, T.tab k = some t → U t
  phys : ∀ m ∈ ms, U m.phys ∧ m.phys ≠ 0 ∧ st.Counted m.phys ∧
    st.refs (m.phys / Memory.pageSize) = 1
  rest : ∀ q, (∀ m ∈ ms, q ≠ slotOf m.vaddr) → T.map q = T₀.map q
  within : Within U st₀ st
  entries : ∀ k < pteCount, present (word st₀.mem (dir + 4 * k)) = true →
    ¬ user (word st₀.mem (dir + 4 * k)) = true →
    word st.mem (dir + 4 * k) = word st₀.mem (dir + 4 * k)

/-- The frames of the tables are the loader's. -/
theorem Loading.map_in {q : Nat × Nat} {g : Nat} (h : Loading dir RI U T₀ st₀ ms T st)
    (hT₀ : ∀ q g, T₀.map q = some g → U g)
    (hq : T.map q = some g) : U g := by
  by_cases hin : ∃ m ∈ ms, q = slotOf m.vaddr
  · obtain ⟨m, hm, rfl⟩ := hin
    have hslot := h.ok.slot m hm
    rw [hq] at hslot
    exact Option.some.inj hslot ▸ (h.phys m hm).1
  · refine hT₀ q g ?_
    rw [← h.rest q fun m hm hqm => hin ⟨m, hm, hqm⟩]
    exact hq

/-- Whether a frame is counted does not change. -/
theorem counted_congr (h : Within U st st') : st'.Counted a ↔ st.Counted a := by
  unfold Phys.Counted
  rw [h.max]

/-- Frames that are given back are in `U` too. -/
theorem Loading.free_of (h : Loading dir RI U T₀ st₀ ms T st) (hw : Within U st st') :
    ∀ b ∈ st'.free, U b ∧ b ≠ 0 ∧ st'.Counted b := by
  intro b hb
  rw [counted_congr hw]
  rcases hw.free b hb with hb | hb
  · exact h.free b hb
  · exact hb

/-- The frames of the pages are not touched. -/
theorem Loading.phys_of (h : Loading dir RI U T₀ st₀ ms T st)
    (hw : ∀ m ∈ ms, Within (· ≠ m.phys) st st') :
    ∀ m ∈ ms, U m.phys ∧ m.phys ≠ 0 ∧ st'.Counted m.phys ∧
      st'.refs (m.phys / Memory.pageSize) = 1 := by
  intro m hm
  obtain ⟨hU, hz, hc, hone⟩ := h.phys m hm
  refine ⟨hU, hz, (counted_congr (hw m hm)).mpr hc, ?_⟩
  rw [(hw m hm).refs m.phys (h.ok.frame_used hm).1 (not_not.mpr rfl)]
  exact hone

/-- One more page is mapped. -/
theorem Loading.map {st₁ st₂ : Phys} (h : Loading dir RI U T₀ st₀ ms T st) (hUd : U dir)
    (hT₀ : ∀ q g, T₀.map q = some g → U g) (hv : InEntries RI v) (hnot : v ∉ ms.map (·.vaddr))
    (halloc : st.allocFrame = (some a, st₁)) (hmap : st₁.mapPage dir v a userFlags = (true, st₂)) :
    ∃ T', Loading dir RI U T₀ st₀ (ms ++ [⟨v, a⟩]) T' st₂ := by
  obtain ⟨⟨T', hok'⟩, -⟩ := h.ok.map hv hnot halloc hmap
  obtain ⟨hal, hlt, hRI⟩ := hv
  have hi := pdeIdx_lt hlt
  obtain ⟨hI₁, hh, hfree, htouched, -⟩ := h.ok.inv.alloc halloc
  have hdir := htouched.same h.ok.inv.dir_aligned hh.aligned hh.ne_dir.symm
  have hS₁ : Shows dir T st₁.mem := h.ok.shows.frame hdir fun i t ht =>
    htouched.same (h.ok.inv.tab_used i t ht).1 hh.aligned fun hta => hh.not_tab i (hta ▸ ht)
  have hR : present (st₁.entry dir (pdeIdx v)) = true → T.tab (pdeIdx v) ≠ none :=
    fun hp => h.ok.entries _ hi hRI (by rw [← hdir.word hi]; exact hp)
  obtain ⟨T'', hM⟩ := mapPage_from hI₁ hS₁ hh hi hR hmap
  obtain rfl : T'' = T' := tables_unique hM.inv hM.shows hok'.inv hok'.shows
  have hfree₁ : ∀ b ∈ st₁.free, b ∈ st.free := by
    rw [(allocFrame_some halloc).1]
    exact fun b hb => List.mem_cons_of_mem _ hb
  obtain ⟨hUa, haz, hac⟩ := h.free a hfree
  -- the frames that are touched, for any set that has them
  have hW : ∀ V : Nat → Prop, V a → V dir → (∀ b ∈ st₁.free, V b) →
    (∀ t, T.tab (pdeIdx v) = some t → V t) →
      (∀ g, T.map (slotOf v) = some g → V g) → Within V st st₂ :=
    fun V hVa hVd hVf hVt hVg => (within_alloc halloc hh.aligned hVa).trans
      (hM.within V hVd hVf hVt hVg)
  have hWU := hW U hUa hUd (fun b hb => (h.free b (hfree₁ b hb)).1) (fun t ht => h.tab _ t ht)
    fun g hg => h.map_in hT₀ hg
  have hWm : ∀ m ∈ ms, Within (· ≠ m.phys) st st₂ := by
    intro m hm
    obtain ⟨-, hmf, hmd, hmt⟩ := h.ok.frame_used hm
    refine hW _ (fun ham => hmf (ham ▸ hfree)) hmd.symm (fun b hb hbm => hmf (hbm ▸ hfree₁ b hb))
      (fun t ht htm => hmt _ (htm ▸ ht))
      fun g hg hgm => ?_
    have hslot := h.ok.only m hm _ (hgm ▸ hg)
    exact hnot (slotOf_inj (h.ok.aligned m hm) hal hslot.symm ▸ List.mem_map_of_mem hm)
  refine ⟨T'', hok', h.free_of hWU, fun k t hk => ?_, ?_, fun q hq => ?_, h.within.trans hWU,
    fun k hk hp hu => ?_⟩
  · by_cases hkv : k = pdeIdx v
    · rcases hM.tab_from t (hkv ▸ hk) with ht | ht
      · exact h.tab _ t ht
      · exact (h.free t (hfree₁ t ht)).1
    · rw [(hM.rest k hkv (hM.shows.tab_lt k t hk)).2] at hk
      exact h.tab k t hk
  · refine List.forall_mem_append.mpr ⟨h.phys_of hWm, fun m hm => ?_⟩
    obtain rfl := List.mem_singleton.mp hm
    refine ⟨hUa, haz, (counted_congr hWU).mpr hac, ?_⟩
    have hwa : Within (· ≠ a) st₁ st₂ := by
      refine hM.within _ hh.ne_dir.symm (fun b hb hba => hh.not_free (hba ▸ hb))
        (fun t ht hta => hh.not_tab _ (hta ▸ ht)) ?_
      exact fun g hg hga => hh.not_map _ (hga ▸ hg)
    rw [hwa.refs a hh.aligned (not_not.mpr rfl), (allocFrame_some halloc).2.2.2.1 hac, if_pos rfl]
  · rw [hM.other q]
    · exact h.rest q fun m hm => hq m (List.mem_append_left _ hm)
    · exact hq ⟨v, a⟩ (by simp)
  · have hkeep := h.entries k hk hp hu
    have hkv : k ≠ pdeIdx v := by
      rintro rfl
      have htab := h.ok.entries _ hk hRI (by rw [hkeep]; exact hp)
      obtain ⟨t, ht⟩ := Option.ne_none_iff_exists'.mp htab
      have huser := ((h.ok.shows.tab _ hk t).mp ht).2.1
      exact hu (hkeep ▸ huser)
    rw [(hM.rest k hkv hk).1, hdir.word hk, hkeep]

/-- A frame that could not be mapped goes back. -/
theorem Loading.fail {st₁ st₂ : Phys} (h : Loading dir RI U T₀ st₀ ms T st)
    (halloc : st.allocFrame = (some a, st₁))
    (hmap : st₁.mapPage dir v a userFlags = (false, st₂)) :
    Loading dir RI U T₀ st₀ ms T (st₂.freeFrame a) := by
  obtain ⟨rfl, -, -⟩ := mapPage_false hmap
  obtain ⟨hI₁, hh, hfree, htouched, -⟩ := h.ok.inv.alloc halloc
  obtain ⟨hI₂, -⟩ := hI₁.freeFrame hh.aligned hh.lt hh.not_free hh.ne_dir hh.not_tab hh.not_map
  have hW : ∀ V : Nat → Prop, V a → Within V st (st₂.freeFrame a) :=
    fun V hVa => (within_alloc halloc hh.aligned hVa).trans (within_freeFrame hh.aligned hVa)
  have hsame : ∀ b, b % Memory.pageSize = 0 → b ≠ a → Same st.mem (st₂.freeFrame a).mem b :=
    fun b hb hba => (hW (· = a) rfl).same b hb hba
  have hWm : ∀ m ∈ ms, Within (· ≠ m.phys) st (st₂.freeFrame a) :=
    fun m hm => hW _ fun ham => (h.ok.frame_used hm).2.1 (ham ▸ hfree)
  have hdir := hsame dir h.ok.inv.dir_aligned hh.ne_dir.symm
  have hWU := hW U (h.free a hfree).1
  refine ⟨⟨hI₂, h.ok.shows.frame hdir fun k t ht => ?_, fun k hk hRI hp => ?_, h.ok.aligned,
      h.ok.slot, h.ok.only⟩,
    h.free_of hWU, h.tab, h.phys_of hWm, h.rest, h.within.trans hWU, fun k hk hp hu => ?_⟩
  · exact hsame t (h.ok.inv.tab_used k t ht).1 fun hta => hh.not_tab k (hta ▸ ht)
  · exact h.ok.entries k hk hRI (by rw [← hdir.word hk]; exact hp)
  · rw [hdir.word hk]
    exact h.entries k hk hp hu

/-- Bytes are stored in the frame of a page. -/
theorem Loading.store {off : Nat} {bs : List (BitVec 8)} (h : Loading dir RI U T₀ st₀ ms T st)
    (hm : m ∈ ms)
    (hlen : off + bs.length ≤ pageSize) :
    Loading dir RI U T₀ st₀ ms T { st with mem := setBytes st.mem (m.phys + off) bs } := by
  obtain ⟨-, -, hdir, -⟩ := h.ok.frame_used hm
  refine ⟨h.ok.store hm hlen, h.free, h.tab, h.phys, h.rest,
    h.within.trans ⟨fun b hb hU => ?_, fun _ _ _ => rfl,
    fun _ hb => .inl hb, rfl⟩, fun k hk hp hu => ?_⟩
  · exact h.ok.store_same hm hlen hb fun hbm => hU (hbm ▸ (h.phys m hm).1)
  · rw [(h.ok.store_same hm hlen h.ok.inv.dir_aligned hdir.symm).word hk]
    exact h.entries k hk hp hu

/-- **The loop keeps its invariant.** -/
theorem keeps_loading (hUd : U dir) (hT₀ : ∀ q g, T₀.map q = some g → U g) (kernelDir : Nat) :
    Keeps (pagesOf dir kernelDir) (InEntries RI) fun ms st =>
      ∃ T, Loading dir RI U T₀ st₀ ms T st where
  refuse ms st st₁ hJ halloc := by
    obtain ⟨rfl, -⟩ := allocFrame_none halloc
    exact hJ
  map ms st st₁ st₂ v phys hJ hv hnot halloc hmap := by
    obtain ⟨T, h⟩ := hJ
    exact h.map hUd hT₀ hv hnot halloc hmap
  fail ms st st₁ st₂ v phys hJ _ halloc hmap := by
    obtain ⟨T, h⟩ := hJ
    exact ⟨T, h.fail halloc hmap⟩
  store ms st m off bs hJ hm hlen := by
    obtain ⟨T, h⟩ := hJ
    exact ⟨T, h.store hm hlen⟩

end

/-! ## from the call on -/

/-- Entry `k` of the directory is absent or a user entry. -/
def UserEntry (dir : Nat) (st : Phys) (k : Nat) : Prop :=
  present (st.entry dir k) = true → user (st.entry dir k) = true

/-- The pages of the image, and the lowest of them, whose table is cleared before any
segment is checked, are in user tables or in none. -/
def PrivatePages (dir : Nat) (st : Phys) (F : File) : Prop :=
  (∀ low, computeElfRange F F.headers none = .ok (some low) →
    UserEntry dir st (pdeIdx (alignDown low))) ∧
    ∀ o ∈ F.loaded F.headers, UserEntries dir st F o

/-- The frames of the user half of a directory. -/
def Owns (dir : Nat) (T : Tables) (b : Nat) : Prop :=
  b = dir ∨ (∃ k, T.tab k = some b) ∨ ∃ q, T.map q = some b

/-- What the loader may touch. -/
def Loadable (dir : Nat) (T : Tables) (st : Phys) (b : Nat) : Prop := b ∈ st.free ∨ Owns dir T b

section

variable {dir kernelDir low : Nat} {F : File} {ms : List MappedPage} {done : Bool} {T : Tables}
  {st st₁ : Phys}

/-- The lowest page. -/
theorem alignDown_page (low : Nat) : alignDown low % Memory.pageSize = 0 := Nat.mul_mod_left ..

/-- The lowest page is in the address space. -/
theorem computeElfRange_lt (h : computeElfRange F F.headers none = .ok (some low)) :
    alignDown low < 2 ^ 32 := by
  obtain ⟨o, -, rfl⟩ := (computeElfRange_low h).resolve_left (by simp)
  have hlt := value_lt F (pVaddr o) 4
  exact Nat.lt_of_le_of_lt (Nat.div_mul_le_self ..) hlt

/-- The loop starts from the directory, or from the directory with the table of the
lowest page cleared. -/
theorem loading_start {low : Option Nat} (kernelDir : Nat) (hI : Inv dir T st)
    (hS : Shows dir T st.mem)
    (hpool : ∀ b ∈ st.free, b ≠ 0 ∧ st.Counted b)
    (hlow : ∀ l, low = some l → InEntries (UserEntry dir st) (alignDown l)) :
    ∃ T₁, Loading dir (UserEntry dir st) (Loadable dir T st) T₁ st [] T₁
      (start (pagesOf dir kernelDir) low st) ∧
      (∀ q g, T₁.map q = some g → T.map q = some g) ∧
      ((T₁ = T ∧ start (pagesOf dir kernelDir) low st = st ∧ ∀ l, low = some l → l = 0xFFFFFFFF) ∨
        ∃ l, low = some l ∧ ClearedFrom dir T (alignDown l) st T₁
          (start (pagesOf dir kernelDir) low st)) := by
  have hentries : ∀ i < pteCount, UserEntry dir st i → present (word st.mem (dir + 4 * i)) = true →
      T.tab i ≠ none := by
    intro i hi hu hp ht
    have htab := (hS.tab i hi (addr (word st.mem (dir + 4 * i)))).mpr ⟨hp, hu hp, rfl⟩
    rw [ht] at htab
    contradiction
  have hstay : Loading dir (UserEntry dir st) (Loadable dir T st) T st [] T st :=
    ⟨⟨hI, hS, hentries, by simp, by simp, by simp⟩, fun b hb => ⟨.inl hb, hpool b hb⟩,
      fun k t ht => .inr (.inr (.inl ⟨k, ht⟩)), by
        simp, fun _ _ => rfl, Within.refl _ st, fun _ _ _ _ => rfl⟩
  cases low with
  | none => exact ⟨T, hstay, fun _ _ => id, .inl ⟨rfl, rfl, by simp⟩⟩
  | some l =>
      by_cases hmax : l = 0xFFFFFFFF
      · have hstart : start (pagesOf dir kernelDir) (some l) st = st := if_neg (not_not.mpr hmax)
        rw [hstart]
        refine ⟨T, hstay, fun _ _ => id, .inl ⟨rfl, rfl, fun l' hl' => ?_⟩⟩
        rw [← Option.some.inj hl']
        exact hmax
      · have hstart : start (pagesOf dir kernelDir) (some l) st =
          st.clearPageTable dir (alignDown l) := if_pos hmax
        rw [hstart]
        obtain ⟨-, hlt, hu⟩ := hlow l rfl
        have hi := pdeIdx_lt hlt
        obtain ⟨T₁, hC⟩ := clearPageTable_from hI hS hi (hentries _ hi hu)
        have hw : Within (Loadable dir T st) st (st.clearPageTable dir (alignDown l)) :=
          hC.within _ (.inr (.inl rfl)) (fun b hb => .inl hb)
            (fun t ht => .inr (.inr (.inl ⟨_, ht⟩)))
            fun j g hg => .inr (.inr (.inr ⟨_, hg⟩))
        refine ⟨T₁,
          ⟨⟨hC.inv, hC.shows, fun i hi' hu' hp => ?_, by simp, by simp, by simp⟩, hstay.free_of hw,
          fun k t ht => ?_, by simp, fun _ _ => rfl, hw, fun k hk hp hns => ?_⟩, hC.sub,
            .inr ⟨l, rfl, hC⟩⟩
        · exact (hC.rest i hi').2 (hentries i hi' hu' ((hC.rest i hi').1 hp))
        · rcases hC.tab_from k t ht with ht | ht
          · exact .inr (.inr (.inl ⟨k, ht⟩))
          · exact .inl ht
        · refine hC.words k ?_ hk
          rintro rfl
          exact hns (hu hp)

/-- The table of the lowest page is one the loader may clear. -/
theorem lowest_inside {low : Option Nat} (hpriv : PrivatePages dir st F)
    (hlow : computeElfRange F F.headers none = .ok low) :
    ∀ l, low = some l → InEntries (UserEntry dir st) (alignDown l) := by
  rintro l rfl
  exact ⟨alignDown_page l, computeElfRange_lt hlow, hpriv.1 l hlow⟩

/-- **The loop of `load`**, whatever comes out of it. -/
theorem attempt_loading (hI : Inv dir T st) (hS : Shows dir T st.mem)
    (hpool : ∀ b ∈ st.free, b ≠ 0 ∧ st.Counted b)
    (hpriv : PrivatePages dir st F)
    (h : attempt (pagesOf dir kernelDir) F st = .ok (done, ms, st₁)) :
    ∃ low T₁ T', computeElfRange F F.headers none = .ok low ∧
      loadSegments (pagesOf dir kernelDir) F F.headers [] (start (pagesOf dir kernelDir) low st) =
        .ok (done, ms, st₁) ∧
      Loading dir (UserEntry dir st) (Loadable dir T st) T₁ st ms T' st₁ ∧
        (∀ q g, T₁.map q = some g → T.map q = some g) ∧
      (∀ m ∈ ms, InEntries (UserEntry dir st) m.vaddr) ∧
      ((T₁ = T ∧ start (pagesOf dir kernelDir) low st = st ∧ ∀ l, low = some l → l = 0xFFFFFFFF) ∨
        ∃ l, low = some l ∧ ClearedFrom dir T (alignDown l) st T₁
          (start (pagesOf dir kernelDir) low st)) := by
  obtain ⟨low, hlow, hloop⟩ := bind_eq_ok.mp h
  obtain ⟨T₁, hload, hsub, hcases⟩ := loading_start kernelDir hI hS hpool (lowest_inside hpriv hlow)
  have hpages : ∀ o ∈ F.loaded F.headers, ∀ v ∈ F.pages o, InEntries (UserEntry dir st) v := by
    intro o ho v hv
    obtain ⟨hal, hlt⟩ := segmentPages_lt hv
    exact ⟨hal, hlt, hpriv.2 o ho v hv⟩
  have hkeep : Keeps (pagesOf dir kernelDir) (InEntries (UserEntry dir st)) fun ms st' =>
      ∃ T', Loading dir (UserEntry dir st) (Loadable dir T st) T₁ st ms T' st' :=
    keeps_loading (.inr (.inl rfl)) (fun q g hg => .inr (.inr (.inr ⟨q, hsub q g hg⟩))) kernelDir
  obtain ⟨T', hload'⟩ := loadSegments_keeps hkeep ⟨T₁, hload⟩ hpages hloop
  exact ⟨low, T₁, T', hlow, hloop, hload', hsub, loadSegments_pages hpages hloop, hcases⟩

end

end Doors.Elf
