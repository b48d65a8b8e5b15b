import Doors.Heap.Blocks

/-!
# Doors.Heap.Operations

What `alloc` and `free` do to the row of blocks.

* `alloc_spec` — null when no free block is large enough; otherwise a smallest
  one that is becomes allocated, and what is left of it stays free;
* `coalesce_spec` — a free block absorbs the free block behind it;
* `free_spec` — a freed block is absorbed by its free neighbours or absorbs them.

Each of them keeps the invariant.
-/

namespace Doors.Alloc

open Chain

variable {h : Heap} {bs pre post : List Blk} {fl : List Nat} {b c d : Blk} {a x needed : Nat}

/-! ## the best fit -/

/-- What the search has found among the nodes `l`. -/
def Best (sz : Nat → Nat) (needed : Nat) (l : List Nat) (acc : Heap.Search) : Prop :=
  (acc.best = 0 ∧ ∀ c ∈ l, sz c < needed) ∨
    ∃ pre post, l = pre ++ acc.best :: post ∧ acc.bestPrev = pre.getLastD 0 ∧ needed ≤ sz acc.best ∧
      ∀ c ∈ l, needed ≤ sz c → sz acc.best ≤ sz c

/-- The size field of a free node. -/
def Heap.freeSize (h : Heap) (node : Nat) : Nat := rawSize (h.size node)

/-- One round of the search. -/
theorem bestStep_best {done : List Nat} {acc : Heap.Search} (hprev : acc.prev = done.getLastD 0)
    (hbest : Best h.freeSize needed done acc) (hne : ∀ c ∈ done, c ≠ 0) :
    Best h.freeSize needed (done ++ [a]) (h.bestStep needed acc a).1 ∧
      (h.bestStep needed acc a).1.prev = a ∧
      ((h.bestStep needed acc a).2 = true → (h.bestStep needed acc a).1.best = a ∧
        h.freeSize a = needed) := by
  unfold Heap.bestStep
  dsimp only
  split
  · next ht =>
      obtain ⟨hge, hlt⟩ := ht
      refine ⟨.inr ⟨done, [], rfl, hprev, hge, fun c hc hcn => ?_⟩, rfl,
        fun hstop => ⟨rfl, of_decide_eq_true hstop⟩⟩
      rcases List.mem_append.mp hc with hc | hc
      · rcases hbest with ⟨-, hnone⟩ | ⟨p₁, p₂, hl, -, -, hmin⟩
        · have := hnone c hc
          omega
        · have hb := hmin c hc hcn
          have hb0 := hne acc.best (by rw [hl]; simp)
          have := hlt.resolve_left hb0
          show h.freeSize a ≤ h.freeSize c
          unfold Heap.freeSize at *
          omega
      · rw [List.mem_singleton.mp hc]
  · next ht =>
      refine ⟨?_, rfl, fun hstop => by contradiction⟩
      rcases hbest with ⟨hzero, hnone⟩ | ⟨p₁, p₂, hl, hbp, hge, hmin⟩
      · refine .inl ⟨hzero, fun c hc => ?_⟩
        rcases List.mem_append.mp hc with hc | hc
        · exact hnone c hc
        · rw [List.mem_singleton.mp hc]
          by_contra hn
          exact ht ⟨not_lt.mp hn, .inl hzero⟩
      · refine .inr ⟨p₁, p₂ ++ [a], by simp [hl], hbp, hge, fun c hc hcn => ?_⟩
        rcases List.mem_append.mp hc with hc | hc
        · exact hmin c hc hcn
        · rw [List.mem_singleton.mp hc] at hcn ⊢
          by_contra hn
          exact ht ⟨hcn, .inr (not_le.mp hn)⟩

/-- The whole search, with its early exit. -/
theorem foldUntil_best (done : List Nat) {acc : Heap.Search} (l : List Nat)
    (hprev : acc.prev = done.getLastD 0)
    (hbest : Best h.freeSize needed done acc) (hne : ∀ c ∈ done ++ l, c ≠ 0) :
    Best h.freeSize needed (done ++ l) (foldUntil (h.bestStep needed) l acc) := by
  induction l generalizing done acc with
  | nil => simpa [foldUntil] using hbest
  | cons a l ih =>
      obtain ⟨hstep, hp, hstop⟩ := bestStep_best (a := a) hprev hbest fun c hc =>
        hne c (by simp [hc])
      rw [foldUntil]
      split
      · next acc' heq =>
          rw [heq] at hstep hstop
          obtain ⟨hba, hsz⟩ := hstop rfl
          -- an exact fit: no block that is large enough is smaller
          rcases hstep with ⟨hzero, -⟩ | ⟨p₁, p₂, hl, hbp, hge, -⟩
          · exact absurd (hba ▸ hzero) (hne a (by simp))
          · refine .inr ⟨p₁, p₂ ++ l, ?_, hbp, hge, fun c _ hcn => ?_⟩
            · rw [show done ++ a :: l = (done ++ [a]) ++ l by simp, hl]
              simp
            · show h.freeSize acc'.best ≤ _
              rw [show acc'.best = a from hba, hsz]
              exact hcn
      · next acc' heq =>
          rw [heq] at hstep hp
          have := ih (done ++ [a]) (by rw [show acc'.prev = a from hp]; simp) hstep
            (by simpa using hne)
          simpa using this

/-! ## taking a block -/

variable {f₁ f₂ : List Nat} {h₁ : Heap}

/-- A list with one more in the middle. -/
theorem mem_middle {α : Type} {l₁ l₂ : List α} {u v : α} (hv : v ∈ l₁ ++ l₂) :
    v ∈ l₁ ++ u :: l₂ := by
  simp only [List.mem_append, List.mem_cons] at hv ⊢
  tauto

/-- Both lists lose the same node. -/
theorem perm_drop_middle {l₁ l₂ g₁ g₂ : List Nat} (hp : (l₁ ++ a :: l₂).Perm (g₁ ++ a :: g₂)) :
    (l₁ ++ l₂).Perm (g₁ ++ g₂) :=
  (List.perm_cons a).mp (List.perm_middle.symm.trans (hp.trans List.perm_middle))

/-- Linking behind `f₁` leaves the headers alone. -/
theorem header_link (f₁ : List Nat) (hs : Shape h bs fl) (hf : ∀ a ∈ f₁, a ∈ fl) (hc : c ∈ bs)
    (hh : c.Header h₁.mem) :
    c.Header (h₁.link (f₁.getLastD 0) x).mem := by
  have hlast : f₁.getLastD 0 ≠ 0 → f₁.getLastD 0 ∈ fl := fun hne => hf _ (getLastD_mem hne)
  unfold Blk.Header at *
  rwa [link_mem _ _ _ _ fun hne => (hs.header_ne_link hc (hlast hne)).1,
    link_mem _ _ _ _ fun hne => (hs.header_ne_link hc (hlast hne)).2]

/-- A word of a block is not in the header of another one. -/
theorem header_store (hs : Shape h (pre ++ b :: post) fl) {v : Nat} (hc : c ∈ pre ++ post)
    (hle : b.addr ≤ x)
    (hlt : x < b.addr + b.size) (hh : c.Header h₁.mem) : c.Header (h₁.store x v).mem := by
  obtain ⟨hne₁, hne₂⟩ := hs.tiles.header_ne hc hle hlt
  unfold Blk.Header at *
  simp only [store_mem]
  rwa [if_neg hne₁, if_neg hne₂]

/-- The header of a block that is given out. -/
theorem header_setAlloc (hmod : needed % blockAlign = 0) :
    (Blk.mk a needed true).Header ((h₁.setSize a (setAlloc needed)).setMagic a heapMagic).mem := by
  unfold Blk.Header
  simp only [Heap.setSize, Heap.setMagic, store_mem]
  unfold setAlloc
  unfold blockAlign at hmod
  constructor
  · rw [if_neg (by omega), if_true, if_true]
    omega
  · rw [if_true, if_true]

/-- A block that is not split is handed over whole. -/
theorem take_whole (hs : Shape h (pre ++ b :: post) (f₁ ++ b.addr :: f₂)) (hlive : b.live = false)
    (hres : b.size < needed + minBlock) :
    Shape (h.take b.addr (f₁.getLastD 0) needed) (pre ++ ⟨b.addr, b.size, true⟩ :: post)
      (f₁ ++ f₂) := by
  have hb : b ∈ pre ++ b :: post := by simp
  obtain ⟨hpre, hpost, hmin, hmod⟩ := hs.tiles.split
  obtain ⟨hraw, -⟩ := hs.rawSize_eq hb
  have hnd := hs.fl_nodup
  have hrem := linked_remove hs.linked hnd
  unfold Heap.take
  unfold minBlock at *
  simp only [hraw]
  rw [if_neg (by omega)]
  refine hs.rebuild (link_heapStart ..) (link_heapEnd ..)
    (hpre.join (b := ⟨b.addr, b.size, true⟩) hpost hmin hmod) ?_ ?_ ?_
  · intro c hc
    simp only [List.mem_append, List.mem_cons] at hc
    rcases or_left_comm.mp hc with rfl | hc
    · exact header_setAlloc hmod
    · have hc' : c ∈ pre ++ b :: post := by
        simp only [List.mem_append, List.mem_cons]
        tauto
      have hcl := header_link (x := h.next b.addr) f₁ hs (by simp +contextual) hc' (hs.hdr c hc')
      have hcs := header_store (v := setAlloc b.size) hs (List.mem_append.mpr hc) le_rfl
        (by omega) hcl
      exact header_store hs (List.mem_append.mpr hc) (by omega) (by omega) hcs
  · have hne : ∀ a ∈ f₁ ++ f₂, a + 16 ≠ b.addr ∧ a + 16 ≠ b.addr + 4 := by
      intro a ha
      have ha' : a ∈ f₁ ++ b.addr :: f₂ := by
        simp only [List.mem_append, List.mem_cons] at ha ⊢
        tauto
      exact ⟨hs.link_ne hb ha' le_rfl (by omega) (.inr (by omega)),
        hs.link_ne hb ha' (by omega) (by omega) (.inr (by omega))⟩
    exact linked_store (linked_store hrem _ fun a ha => (hne a ha).1) _ fun a ha => (hne a ha).2
  · have hperm := hs.perm
    rw [frees_append, frees_cons_free hlive] at hperm
    rw [frees_append, frees_cons_live rfl]
    exact perm_drop_middle hperm

/-- A larger block is split; what is left of it takes its place in the free list. -/
theorem take_split (hs : Shape h (pre ++ b :: post) (f₁ ++ b.addr :: f₂)) (hlive : b.live = false)
    (hmod : needed % blockAlign = 0) (hmin : minBlock ≤ needed)
    (hres : needed + minBlock ≤ b.size) :
    Shape (h.take b.addr (f₁.getLastD 0) needed)
      (pre ++ ⟨b.addr, needed, true⟩ :: ⟨b.addr + needed, b.size - needed, false⟩ :: post)
      (f₁ ++ (b.addr + needed) :: f₂) := by
  have hb : b ∈ pre ++ b :: post := by simp
  obtain ⟨hpre, hpost, -, hbmod⟩ := hs.tiles.split
  obtain ⟨hraw, -⟩ := hs.rawSize_eq hb
  have hnd := hs.fl_nodup
  unfold Heap.take
  unfold minBlock at *
  simp only [hraw]
  rw [if_pos (by omega)]
  have hnext : ((h.setSize (b.addr + needed) (b.size - needed)).setMagic (b.addr + needed) 0).next
      b.addr = h.next b.addr := by
    simp only [Heap.next, Heap.setSize, Heap.setMagic, store_mem]
    rw [if_neg (by omega), if_neg (by omega)]
  rw [hnext]
  generalize hr : b.addr + needed = r
  -- the words that are written, those of the two headers and the link of the rest, are no links
  have hwords : ∀ a ∈ f₁ ++ b.addr :: f₂, ∀ x, b.addr ≤ x → x < b.addr + b.size → x ≠ b.addr + 16 →
      a + 16 ≠ x :=
    fun a ha x hle hlt hne => hs.link_ne hb ha hle hlt (.inr hne)
  have hl₁ := linked_store (x := r) hs.linked (b.size - needed) fun a ha =>
    hwords a ha r (by omega) (by omega) (by omega)
  have hl₂ := linked_store (x := r + 4) hl₁ 0 fun a ha =>
    hwords a ha (r + 4) (by omega) (by omega) (by omega)
  have hl₃ := linked_store (x := r + 16) hl₂ (h.next b.addr) fun a ha =>
    hwords a ha (r + 16) (by omega) (by omega) (by omega)
  have hl₄ := linked_replace (x := r) hl₃ hnd (by omega)
    (fun hin => hwords r (by simp [hin]) (r + 16) (by omega) (by omega) (by omega) rfl) (by
    simp only [Heap.next, store_mem]
    rw [if_true, if_neg (by omega), if_neg (by omega), if_neg (by omega)])
  refine hs.rebuild (link_heapStart ..) (link_heapEnd ..) ?_ ?_ ?_ ?_
  · refine hpre.join (b := ⟨b.addr, needed, true⟩) ⟨hr.symm, ?_, ?_, ?_⟩ hmin hmod
    · show 32 ≤ b.size - needed
      omega
    · show (b.size - needed) % blockAlign = 0
      unfold blockAlign at *
      omega
    · show Tiles (b.addr + needed + (b.size - needed)) post h.heapEnd
      rwa [show b.addr + needed + (b.size - needed) = b.addr + b.size by omega]
  · intro c hc
    simp only [List.mem_append, List.mem_cons] at hc
    have hcases : c = ⟨b.addr, needed, true⟩ ∨ c = ⟨r, b.size - needed, false⟩ ∨
        c ∈ pre ++ post := by
      simp only [List.mem_append]
      tauto
    rcases hcases with rfl | rfl | hc
    · exact header_setAlloc hmod
    · have hlast : f₁.getLastD 0 ≠ 0 → f₁.getLastD 0 ∈ f₁ ++ b.addr :: f₂ := fun hne =>
        List.mem_append_left _ (getLastD_mem hne)
      unfold Blk.Header
      have hne₁ : r ≠ b.addr := by omega
      have hne₂ : r ≠ b.addr + 4 := by omega
      have hne₃ : r + 4 ≠ b.addr := by omega
      simp only [Heap.setSize, Heap.setMagic, Heap.setNext, store_mem, Nat.add_right_cancel_iff,
        hne₁, hne₂, hne₃, if_false]
      rw [link_mem _ _ _ _ fun hne =>
        (hwords _ (hlast hne) r (by omega) (by omega) (by omega)).symm,
        link_mem _ _ _ _ fun hne =>
          (hwords _ (hlast hne) (r + 4) (by omega) (by omega) (by omega)).symm]
      simp only [store_mem]
      simp
    · have hc' : c ∈ pre ++ b :: post := mem_middle hc
      have hc₁ := header_store (x := r) (v := b.size - needed) hs hc (by omega) (by omega)
        (hs.hdr c hc')
      have hc₂ := header_store (x := r + 4) (v := 0) hs hc (by omega) (by omega) hc₁
      have hc₃ := header_store (x := r + 16) (v := h.next b.addr) hs hc (by omega) (by omega) hc₂
      have hc₄ := header_link (x := r) f₁ hs (by simp +contextual) hc' hc₃
      have hc₅ := header_store (v := setAlloc needed) hs hc le_rfl (by omega) hc₄
      exact header_store hs hc (by omega) (by omega) hc₅
  · have hne : ∀ a ∈ f₁ ++ r :: f₂, a + 16 ≠ b.addr ∧ a + 16 ≠ b.addr + 4 := by
      intro a ha
      simp only [List.mem_append, List.mem_cons] at ha
      rcases or_left_comm.mp ha with rfl | ha
      · omega
      · have ha' : a ∈ f₁ ++ b.addr :: f₂ := by
          simp only [List.mem_append, List.mem_cons]
          tauto
        exact ⟨hwords a ha' _ le_rfl (by omega) (by omega),
          hwords a ha' _ (by omega) (by omega) (by omega)⟩
    exact linked_store (linked_store hl₄ _ fun a ha => (hne a ha).1) _ fun a ha => (hne a ha).2
  · have hperm := hs.perm
    rw [frees_append, frees_cons_free hlive] at hperm
    rw [frees_append, frees_cons_live rfl, frees_cons_free rfl]
    exact List.perm_middle.trans
      (((List.perm_cons r).mpr (perm_drop_middle hperm)).trans List.perm_middle.symm)

/-! ## alloc -/

/-- The size of the block for a request of `n` bytes: a header, the bytes rounded
up to words, at least `minBlock`, and a multiple of `blockAlign`. -/
def need (n : Nat) : Nat :=
  (max (headerSize + (n + 3) / 4 * 4) minBlock + (blockAlign - 1)) / blockAlign * blockAlign

/-- What is needed is aligned. -/
theorem need_mod (n : Nat) : need n % blockAlign = 0 := Nat.mul_mod_left _ _

/-- What is needed has room for a node. -/
theorem minBlock_le_need (n : Nat) : minBlock ≤ need n := by
  unfold need minBlock blockAlign
  omega

/-- What `alloc` looks for, or more than there is. -/
theorem neededFor_eq {n : Nat} (hn : n < 2 ^ 32) :
    Heap.neededFor n = some (need n) ∨
      (2 ^ 32 ≤ need n ∧ ∀ k, Heap.neededFor n = some k → sizeMax ≤ k) := by
  unfold Heap.neededFor need alignUp sizeMax headerSize minBlock blockAlign
  by_cases hbig : n > 2 ^ 32 - 1 - (4 - 1)
  · rw [if_pos hbig, if_pos (.inl rfl)]
    exact .inr ⟨by omega, by simp⟩
  · rw [if_neg hbig]
    dsimp only
    split
    · right
      simp
      omega
    · split
      · right
        simp
        omega
      · left
        simp

/-- What the search finds in the free list. -/
theorem search_spec (hs : Shape h bs fl) (needed : Nat) :
    ∃ found, walk h.next (h.bestStep needed) h.fuel h.freeList {} = some found ∧
      ((found.best = 0 ∧ ∀ b ∈ bs, b.live = false → b.size < needed) ∨
        ∃ b ∈ bs, ∃ f₁ f₂, found.best = b.addr ∧ found.bestPrev = f₁.getLastD 0 ∧
          fl = f₁ ++ b.addr :: f₂ ∧
          b.live = false ∧ needed ≤ b.size ∧ ∀ c ∈ bs, c.live = false → needed ≤ c.size →
            b.size ≤ c.size) := by
  refine ⟨_, walk_eq _ hs.linked hs.length_lt.2, ?_⟩
  have hbest : Best h.freeSize needed ([] ++ fl) (foldUntil (h.bestStep needed) fl {}) :=
    foldUntil_best [] fl rfl (.inl ⟨rfl, by simp⟩) hs.linked.ne_zero
  rw [List.nil_append] at hbest
  generalize foldUntil (h.bestStep needed) fl {} = found at hbest ⊢
  -- the size field of a free block is its size
  have hsz : ∀ c ∈ bs, h.freeSize c.addr = c.size := fun c hc => (hs.rawSize_eq hc).1
  have hin : ∀ c ∈ bs, c.live = false → c.addr ∈ fl :=
    fun c hc hcl => hs.mem_fl.mpr ⟨c, hc, hcl, rfl⟩
  rcases hbest with ⟨hzero, hnone⟩ | ⟨f₁, f₂, hfl, hprev, hge, hmin⟩
  · exact .inl ⟨hzero, fun b hb hlive => hsz b hb ▸ hnone b.addr (hin b hb hlive)⟩
  · obtain ⟨b, hb, hlive, haddr⟩ := hs.mem_fl.mp (show found.best ∈ fl by simp [hfl])
    rw [← haddr, hsz b hb] at hge hmin
    rw [← haddr] at hfl
    refine .inr ⟨b, hb, f₁, f₂, haddr.symm, hprev, hfl, hlive, hge, fun c hc hcl hcn => ?_⟩
    have := hmin c.addr (hin c hc hcl)
    rw [hsz c hc] at this
    exact this hcn

/-- **`alloc`**: null when no free block is large enough; otherwise a smallest
block that is large enough is taken. -/
theorem alloc_fit {n : Nat} (hs : Shape h bs fl) (hn : 0 < n) (hmax : n < 2 ^ 32) :
    (h.alloc n = some (0, h) ∧ ∀ b ∈ bs, b.live = false → b.size < need n) ∨
      ∃ b ∈ bs, ∃ f₁ f₂, fl = f₁ ++ b.addr :: f₂ ∧ b.live = false ∧ need n ≤ b.size ∧
        (∀ c ∈ bs, c.live = false → need n ≤ c.size → b.size ≤ c.size) ∧
          h.alloc n = some (b.addr + headerSize, h.take b.addr (f₁.getLastD 0) (need n)) := by
  have hsize : ∀ b ∈ bs, b.size < sizeMax := by
    intro b hb
    obtain ⟨hlo, hhi, -⟩ := hs.tiles.bounds hb
    have := hs.top
    have := hs.pos
    unfold sizeMax
    omega
  unfold Heap.alloc
  rw [if_neg (by omega)]
  rcases neededFor_eq hmax with heq | ⟨hbig, hbig'⟩
  · obtain ⟨found, hwalk, hfound⟩ := search_spec hs (need n)
    rw [heq]
    simp only [hwalk]
    rcases hfound with ⟨hzero, hnone⟩ | ⟨b, hb, f₁, f₂, hbest, hprev, hfl, hlive, hge, hmin⟩
    · exact .inl ⟨if_pos hzero, hnone⟩
    · refine .inr ⟨b, hb, f₁, f₂, hfl, hlive, hge, hmin, ?_⟩
      rw [hbest, hprev, if_neg (hs.addr_ne_zero hb)]
  · -- the sum does not fit: no block is that large
    refine .inl ⟨?_, fun b hb _ => ?_⟩
    · cases hk : Heap.neededFor n with
      | none => rfl
      | some k =>
          have hle := hbig' k hk
          obtain ⟨found, hwalk, hfound⟩ := search_spec hs k
          simp only [hwalk]
          rcases hfound with ⟨hzero, -⟩ | ⟨b, hb, f₁, f₂, hbest, hprev, hfl, hlive, hge, -⟩
          · rw [if_pos hzero]
          · have := hsize b hb
            omega
    · have := hsize b hb
      unfold sizeMax at this
      omega

/-- Taking a block keeps the invariant: only the taken block, and what is left of
it, are new. -/
theorem take_inv (hi : Inv h (pre ++ b :: post) (f₁ ++ b.addr :: f₂)) (hlive : b.live = false)
    (hmod : needed % blockAlign = 0)
    (hmin : minBlock ≤ needed) (hge : needed ≤ b.size) :
    ∃ k rest fl', Inv (h.take b.addr (f₁.getLastD 0) needed)
      (pre ++ ⟨b.addr, k, true⟩ :: (rest ++ post)) fl' ∧
      needed ≤ k ∧ k ≤ b.size ∧ ∀ c ∈ rest, c.live = false := by
  obtain ⟨hpre, hpost, hnb⟩ := coalesced_middle.mp hi.coalesced
  have hnb := hnb.resolve_left (by simp [hlive])
  by_cases hres : needed + minBlock ≤ b.size
  · refine ⟨needed, [⟨b.addr + needed, b.size - needed, false⟩], _,
      ⟨take_split hi.shape hlive hmod hmin hres, ?_⟩, le_rfl, hge, by simp⟩
    refine coalesced_middle.mpr ⟨hpre, ?_, .inl rfl⟩
    exact coalesced_middle.mpr ⟨List.isChain_nil, hpost, .inr ⟨by simp, hnb.2⟩⟩
  · refine ⟨b.size, [], _, ⟨take_whole hi.shape hlive (by omega), ?_⟩, hge, le_rfl, by simp⟩
    exact coalesced_middle.mpr ⟨hpre, hpost, .inl rfl⟩

/-! ## coalesce -/

/-- The search finds a node that is in the list, with its predecessor. -/
theorem foldUntil_findStep {t : Nat} (hf : t ∉ f₁) (p : Nat) :
    foldUntil (Heap.findStep t) (f₁ ++ t :: f₂) (p, false) = (f₁.getLastD p, true) := by
  induction f₁ generalizing p with
  | nil => simp [foldUntil, Heap.findStep]
  | cons a f₁ ih =>
      simp only [List.mem_cons, not_or] at hf
      simp [foldUntil, Heap.findStep, Ne.symm hf.1, ih hf.2, List.getLast?_cons]

/-- No word gets the allocation flag. -/
def Flagless (h h' : Heap) : Prop := ∀ x, h.mem x % 2 = 0 → h'.mem x % 2 = 0

theorem Flagless.trans {h h₁ h₂ : Heap} (h₀₁ : Flagless h h₁) (h₁₂ : Flagless h₁ h₂) :
    Flagless h h₂ :=
  fun x hx => h₁₂ x (h₀₁ x hx)

/-- A word without the flag. -/
theorem flagless_store {v : Nat} (hv : v % 2 = 0) : Flagless h (h.store a v) := by
  intro x hx
  rw [store_mem]
  split
  · exact hv
  · exact hx

/-- A link has no flag. -/
theorem flagless_link (hx : x % 2 = 0) : Flagless h (h.link a x) := by
  unfold Heap.link
  split
  · exact flagless_store hx
  · exact fun _ h => h

/-- The pointers of the free list are addresses of blocks. -/
theorem Shape.even (hs : Shape h bs fl) (hx : x = 0 ∨ x ∈ fl) : x % 2 = 0 := by
  rcases hx with rfl | hx
  · rfl
  · obtain ⟨b, hb, -, rfl⟩ := hs.mem_fl.mp hx
    have hmod := (hs.tiles.bounds hb).2.2.2.2
    have hal := hs.aligned
    unfold blockAlign at *
    omega

/-- The row of blocks when a free block absorbs a free block behind it. -/
def absorb (b : Blk) : List Blk → List Blk
  | [] => [b]
  | c :: post => if c.live then b :: c :: post else ⟨b.addr, b.size + c.size, b.live⟩ :: post

/-- A free block absorbs the free block behind it, which leaves the free list. -/
theorem absorb_free (hs : Shape h (pre ++ b :: c :: post) (f₁ ++ c.addr :: f₂))
    (hlive : b.live = false) (hcl : c.live = false) :
    Shape ((h.removeFromFreeList c.addr (f₁.getLastD 0)).setSize b.addr (b.size + c.size))
      (pre ++ ⟨b.addr, b.size + c.size, false⟩ :: post) (f₁ ++ f₂) := by
  have hb : b ∈ pre ++ b :: c :: post := by simp
  obtain ⟨hpre, ⟨hca, hcmin, hcmod, hpost⟩, hmin, hmod⟩ := hs.tiles.split
  have hnd := hs.fl_nodup
  have hhdr : ∀ d ∈ pre ++ b :: c :: post, d.Header
      (h.removeFromFreeList c.addr (f₁.getLastD 0)).mem := fun d hd =>
    header_link f₁ hs (by simp +contextual) hd (hs.hdr d hd)
  unfold minBlock at *
  refine hs.rebuild (link_heapStart ..) (link_heapEnd ..) ?_ ?_ ?_ ?_
  · refine hpre.join (b := ⟨b.addr, b.size + c.size, false⟩) ?_ (Nat.le_add_right_of_le hmin) ?_
    · rwa [Nat.add_assoc] at hpost
    · show (b.size + c.size) % blockAlign = 0
      unfold blockAlign at *
      omega
  · intro d hd
    simp only [List.mem_append, List.mem_cons] at hd
    rcases or_left_comm.mp hd with rfl | hd
    · have hbm := (hhdr b hb).2
      unfold Blk.Header
      simp only [Heap.setSize, store_mem]
      rw [hlive] at hbm
      exact ⟨by simp, by simpa using hbm⟩
    · have hd' : d ∈ pre ++ c :: post := by
        simp only [List.mem_append, List.mem_cons]
        tauto
      exact header_store hs hd' le_rfl (by omega) (hhdr d (by
        simp only [List.mem_append, List.mem_cons] at hd' ⊢
        tauto))
  · refine linked_store (linked_remove hs.linked hnd) _ fun a ha =>
      hs.link_ne hb ?_ le_rfl (by omega) (.inr (by omega))
    simp only [List.mem_append, List.mem_cons] at ha ⊢
    tauto
  · have hperm := hs.perm
    rw [frees_append, frees_cons_free hlive, frees_cons_free hcl] at hperm
    rw [frees_append, frees_cons_free rfl]
    have hsplit : frees pre ++ b.addr :: c.addr :: frees post =
      (frees pre ++ [b.addr]) ++ c.addr :: frees post := by simp
    rw [hsplit] at hperm
    simpa using perm_drop_middle hperm

/-- **`coalesce`**. -/
theorem coalesce_spec (hs : Shape h (pre ++ b :: post) fl) (hlive : b.live = false) :
    ∃ h' fl', h.coalesce b.addr = some h' ∧ Shape h' (pre ++ absorb b post) fl' ∧
      Flagless h h' := by
  have hb : b ∈ pre ++ b :: post := by simp
  obtain ⟨hpre, hpost, hmin, hmod⟩ := hs.tiles.split
  have hsz : h.size b.addr = b.size := by simpa [hlive] using hs.size_eq hb
  unfold Heap.coalesce
  simp only [hsz]
  cases post with
  | nil =>
      have hend : b.addr + b.size = h.heapEnd := hpost
      rw [if_pos (by omega)]
      exact ⟨h, fl, rfl, hs, fun _ h => h⟩
  | cons c post =>
      obtain ⟨hca, hcmin, hcmod, hpost⟩ := hpost
      have hc : c ∈ pre ++ b :: c :: post := by simp
      have hcb := (hs.tiles.bounds hc).2.1
      have hhdr := hs.hdr c hc
      obtain ⟨hraw, halloc⟩ := hs.rawSize_eq hc
      unfold minBlock at *
      rw [if_neg (by omega), ← hca]
      cases hcl : c.live with
      | true =>
          rw [halloc, if_pos (.inr (.inl hcl))]
          exact ⟨h, fl, rfl, by simpa [absorb, hcl] using hs, fun _ h => h⟩
      | false =>
          obtain ⟨hsc, hmc⟩ := hhdr
          rw [hcl] at hsc hmc
          obtain ⟨f₁, f₂, rfl⟩ := List.append_of_mem (hs.mem_fl.mpr ⟨c, hc, hcl, rfl⟩)
          have hnd := hs.fl_nodup
          have hcf : c.addr ∉ f₁ := fun hin =>
            (List.nodup_append.mp hnd).2.2 _ hin c.addr (by simp) rfl
          have hcond :
              ¬ (h.size c.addr = 0 ∨ isAlloc (h.size c.addr) = true ∨ h.magic c.addr ≠ 0) := by
            rw [halloc, hcl, Heap.size, hsc, Heap.magic, hmc]
            simp
            omega
          rw [if_neg hcond, walk_eq _ hs.linked hs.length_lt.2, foldUntil_findStep hcf]
          have hhdr : ∀ d ∈ pre ++ b :: c :: post,
              (h.removeFromFreeList c.addr (f₁.getLastD 0)).size d.addr = h.size d.addr :=
            fun d hd => link_mem _ _ _ _ fun hne =>
              (hs.header_ne_link hd (List.mem_append_left _ (getLastD_mem hne))).1
          have habs := absorb_free hs hlive hcl
          dsimp only
          rw [hhdr b hb, hhdr c hc, hsz, hraw]
          refine ⟨_, _, rfl, by simpa [absorb, hcl, hlive] using habs, ?_⟩
          have hnext : h.next c.addr % 2 = 0 :=
            hs.even (hs.linked.drop.head_mem.imp id fun hin => by simp [hin])
          unfold blockAlign at *
          exact (flagless_link hnext).trans (flagless_store (by omega))

/-! ## free -/

/-- The backward search finds the free block that ends at `t`. -/
theorem foldUntil_endsStep (h : Heap) (t : Nat) (l : List Nat) :
    foldUntil (h.endsStep t) l none = l.find? fun c => c + h.freeSize c = t := by
  induction l with
  | nil => rfl
  | cons a l ih =>
      rw [foldUntil, Heap.endsStep, List.find?_cons]
      by_cases ha : a + rawSize (h.size a) = t
      · simp [ha, Heap.freeSize]
      · simp [ha, Heap.freeSize, ih]

/-- The allocated blocks. -/
def lives (bs : List Blk) : List Blk := bs.filter (·.live)

/-- The live blocks of both lists. -/
theorem lives_append (l₁ l₂ : List Blk) : lives (l₁ ++ l₂) = lives l₁ ++ lives l₂ :=
  List.filter_append ..

/-- A free block is not live. -/
theorem lives_absorb (hb : b.live = false) (post : List Blk) :
    lives (absorb b post) = lives post := by
  cases post with
  | nil => simp [absorb, lives, hb]
  | cons c post =>
      cases hc : c.live with
      | true => simp [absorb, lives, hb, hc]
      | false => simp [absorb, lives, hb, hc]

/-- A free block absorbs the one behind it. -/
theorem coalesced_absorb (b : Blk) (hpre : Coalesced pre) (hpost : Coalesced post)
    (hlast : ∀ c ∈ pre.getLast?, c.live) : Coalesced (pre ++ absorb b post) := by
  cases post with
  | nil => exact coalesced_middle.mpr ⟨hpre, hpost, .inr ⟨hlast, by simp⟩⟩
  | cons c post =>
      cases hc : c.live with
      | true =>
          rw [absorb, if_pos hc]
          exact coalesced_middle.mpr ⟨hpre, hpost, .inr ⟨hlast, by simp [hc]⟩⟩
      | false =>
          rw [absorb, if_neg (by simp [hc])]
          obtain ⟨-, hpost, hnb⟩ :=
            coalesced_middle.mp (show Coalesced ([] ++ c :: post) from hpost)
          exact coalesced_middle.mpr ⟨hpre, hpost,
            .inr ⟨hlast, (hnb.resolve_left (by simp [hc])).2⟩⟩

/-- The block that `free` makes of an allocated one. -/
def Blk.freed (b : Blk) : Blk := ⟨b.addr, b.size, false⟩

/-- A live block is not in the free list. -/
theorem Shape.ne_of_live (hs : Shape h bs fl) (hb : b ∈ bs) (hlive : b.live = true) :
    ∀ a ∈ fl, a ≠ b.addr := by
  rintro a ha rfl
  obtain ⟨c, hc, hcl, hca⟩ := hs.mem_fl.mp ha
  rw [hs.tiles.eq_of_addr hc hb hca, hlive] at hcl
  contradiction

/-- `free` clears the header first. -/
theorem clear_spec (hs : Shape h (pre ++ b :: post) fl) (hlive : b.live = true)
    (h₁eq : h₁ = (h.setSize b.addr b.size).setMagic b.addr 0) :
    (∀ c ∈ pre ++ post, c.Header h₁.mem) ∧ b.freed.Header h₁.mem ∧ Linked h₁.next h₁.freeList fl ∧
      Flagless h h₁ := by
  have hb : b ∈ pre ++ b :: post := by simp
  obtain ⟨-, -, hmin, hmod⟩ := hs.tiles.split
  unfold minBlock at hmin
  unfold blockAlign at hmod
  have hne := hs.ne_of_live hb hlive
  subst h₁eq
  refine ⟨fun c hc => ?_, ?_, ?_, ?_⟩
  · have hc' : c ∈ pre ++ b :: post := mem_middle hc
    have hcs := header_store (v := b.size) hs hc le_rfl (by omega) (hs.hdr c hc')
    exact header_store hs hc (by omega) (by omega) hcs
  · unfold Blk.Header
    simp [Heap.setSize, Heap.setMagic, store_mem, Blk.freed]
  · have hl₁ := linked_store (x := b.addr) hs.linked b.size fun a ha =>
      hs.link_ne hb ha le_rfl (by omega) (.inl (hne a ha))
    exact linked_store hl₁ 0 fun a ha => hs.link_ne hb ha (by omega) (by omega) (.inl (hne a ha))
  · exact (flagless_store (by omega)).trans (flagless_store rfl)

/-- The free block before it absorbs the freed block. -/
theorem absorb_freed (hs : Shape h (pre ++ c :: b :: post) fl) (hcl : c.live = false)
    (hlive : b.live = true)
    (h₁eq : h₁ = (h.setSize b.addr b.size).setMagic b.addr 0) :
    Shape (h₁.setSize c.addr (c.size + b.size))
      (pre ++ ⟨c.addr, c.size + b.size, false⟩ :: post) fl := by
  have hs' : Shape h ((pre ++ [c]) ++ b :: post) fl := by simpa using hs
  obtain ⟨hhdrs, -, hl₁, -⟩ := clear_spec hs' hlive h₁eq
  have hc : c ∈ pre ++ c :: b :: post := by simp
  obtain ⟨hpre, ⟨hba, hbmin, hbmod, hpost⟩, hmin, hmod⟩ := hs.tiles.split
  unfold minBlock at *
  refine hs.rebuild (by rw [h₁eq]; rfl) (by rw [h₁eq]; rfl) ?_ ?_ ?_ ?_
  · refine hpre.join (b := ⟨c.addr, c.size + b.size, false⟩) ?_ (Nat.le_add_right_of_le hmin) ?_
    · rwa [Nat.add_assoc] at hpost
    · show (c.size + b.size) % blockAlign = 0
      unfold blockAlign at *
      omega
  · intro d hd
    simp only [List.mem_append, List.mem_cons] at hd
    rcases or_left_comm.mp hd with rfl | hd
    · have hcm := (hhdrs c (by simp)).2
      unfold Blk.Header
      simp only [Heap.setSize, store_mem]
      rw [hcl] at hcm
      exact ⟨by simp, by simpa using hcm⟩
    · refine header_store hs ?_ le_rfl (by omega) (hhdrs d ?_)
      · simp only [List.mem_append, List.mem_cons]
        tauto
      · simp only [List.mem_append, List.mem_singleton]
        tauto
  · exact linked_store hl₁ _ fun a ha => hs.link_ne hc ha le_rfl (by omega) (.inr (by omega))
  · have hperm := hs.perm
    rw [frees_append, frees_cons_free hcl, frees_cons_live hlive] at hperm
    rwa [frees_append, frees_cons_free rfl]

/-- A freed block without a free block before it goes to the free list. -/
theorem add_freed (hs : Shape h (pre ++ b :: post) fl) (hlive : b.live = true)
    (h₁eq : h₁ = (h.setSize b.addr b.size).setMagic b.addr 0) :
    Shape (h₁.addToFreeList b.addr) (pre ++ b.freed :: post) (b.addr :: fl) := by
  obtain ⟨hhdrs, ⟨hbsz, hbm⟩, hl₁, -⟩ := clear_spec hs hlive h₁eq
  have hb : b ∈ pre ++ b :: post := by simp
  obtain ⟨hpre, hpost, hmin, hmod⟩ := hs.tiles.split
  have hne := hs.ne_of_live hb hlive
  unfold minBlock at hmin
  refine hs.rebuild (by rw [h₁eq]; rfl) (by rw [h₁eq]; rfl)
    (hpre.join (b := b.freed) hpost hmin hmod) ?_ ?_ ?_
  · intro d hd
    simp only [List.mem_append, List.mem_cons] at hd
    rcases or_left_comm.mp hd with rfl | hd
    · constructor
      · simpa [Heap.addToFreeList, Heap.setNext, Heap.setMagic, store_mem, Blk.freed] using hbsz
      · simp [Heap.addToFreeList, Heap.setNext, Heap.setMagic, store_mem, Blk.freed]
    · have hd' := List.mem_append.mpr hd
      have hdn := header_store (x := b.addr + 16) (v := h₁.freeList) hs hd' (by omega) (by omega)
        (hhdrs d hd')
      exact header_store (x := b.addr + 4) (v := 0) hs hd' (by omega) (by omega) hdn
  · refine ⟨rfl, hs.addr_ne_zero hb, ?_⟩
    have hnext : (h₁.addToFreeList b.addr).next b.addr = h₁.freeList := by
      simp [Heap.addToFreeList, Heap.next, Heap.setNext, Heap.setMagic, store_mem]
    rw [hnext]
    have hl₂ := linked_store (x := b.addr + 16) hl₁ h₁.freeList fun a ha => by
      have := hne a ha; omega
    exact linked_store hl₂ 0 fun a ha => hs.link_ne hb ha (by omega) (by omega) (.inl (hne a ha))
  · have hperm := hs.perm
    rw [frees_append, frees_cons_live hlive] at hperm
    rw [frees_append, frees_cons_free rfl]
    exact ((List.perm_cons _).mpr hperm).trans List.perm_middle.symm

/-- **`free`** of an allocated block: the block leaves the row, its bytes go to a
free block. -/
theorem free_spec (hi : Inv h (pre ++ b :: post) fl) (hlive : b.live = true) :
    ∃ h' bs' fl', h.free (b.addr + headerSize) = some h' ∧ Inv h' bs' fl' ∧
      lives bs' = lives (pre ++ post) ∧
      Flagless h h' ∧ h'.mem b.addr % 2 = 0 := by
  have hs := hi.shape
  have hb : b ∈ pre ++ b :: post := by simp
  obtain ⟨hpre, hpost, hmin, hmod⟩ := hs.tiles.split
  obtain ⟨hraw, halloc⟩ := hs.rawSize_eq hb
  have hmagic : h.magic b.addr = heapMagic := by simpa [hlive, Heap.magic] using (hs.hdr b hb).2
  obtain ⟨hcpre, hcpost, -⟩ := coalesced_middle.mp hi.coalesced
  have hhdr : (b.addr + headerSize + 2 ^ 32 - headerSize) % 2 ^ 32 = b.addr := by
    have := (hs.tiles.bounds hb).2.1
    have := hs.top
    unfold headerSize
    omega
  have hne : b.addr + headerSize ≠ 0 := by
    unfold headerSize
    omega
  unfold Heap.free
  rw [if_neg hne, hhdr]
  dsimp only
  rw [halloc, hlive, hmagic, hraw, if_neg (by simp)]
  obtain ⟨h₁, h₁eq⟩ : ∃ h₁, h₁ = (h.setSize b.addr b.size).setMagic b.addr 0 := ⟨_, rfl⟩
  obtain ⟨hhdrs, hbh, hl₁, hflag⟩ := clear_spec hs hlive h₁eq
  rw [← h₁eq]
  have hfuel : h₁.fuel = h.fuel := by
    rw [h₁eq]
    rfl
  have hsize : ∀ c ∈ pre ++ post, h₁.freeSize c.addr = c.size := by
    intro c hc
    have hc' : c ∈ pre ++ b :: post := mem_middle hc
    have hsame : h₁.size c.addr = h.size c.addr := (hhdrs c hc).1.trans (hs.hdr c hc').1.symm
    calc h₁.freeSize c.addr = rawSize (h.size c.addr) := congrArg rawSize hsame
      _ = c.size := (hs.rawSize_eq hc').1
  have hbsize : h₁.mem b.addr = b.size := by simpa [Blk.freed] using hbh.1
  have hbeven : h₁.mem b.addr % 2 = 0 := by
    unfold blockAlign at hmod
    omega
  rw [walk_eq _ hl₁ (hfuel ▸ hs.length_lt.2), foldUntil_endsStep]
  cases hfind : fl.find? fun c => c + h₁.freeSize c = b.addr with
  | some a =>
      obtain ⟨c, hc, hcl, rfl⟩ := hs.mem_fl.mp (List.mem_of_find?_eq_some hfind)
      have hends : c.addr + h₁.freeSize c.addr = b.addr := by simpa using List.find?_some hfind
      have hcpre' : c ∈ pre := by
        rcases List.mem_append.mp hc with hc | hc
        · exact hc
        · rcases List.mem_cons.mp hc with rfl | hc
          · rw [hlive] at hcl
            contradiction
          · have hlo := (hpost.bounds hc).1
            unfold minBlock at hmin
            omega
      rw [hsize c (by simp [hcpre'])] at hends
      -- it is the last one before the block
      obtain ⟨p₁, p₂, rfl⟩ := List.append_of_mem hcpre'
      obtain rfl : p₂ = [] := by
        have hle := hpre.split.2.1.le
        unfold minBlock at *
        refine List.length_eq_zero_iff.mp ?_
        omega
      have hs' : Shape h (p₁ ++ c :: b :: post) fl := by simpa using hs
      obtain ⟨h', fl', hco, hshape, hflag'⟩ := coalesce_spec (absorb_freed hs' hcl hlive h₁eq) rfl
      have hcsz : h₁.size c.addr = c.size := by simpa [hcl, Heap.size] using (hhdrs c (by simp)).1
      dsimp only
      rw [hcsz, Heap.size, hbsize]
      have hcmod := hpre.split.2.2.2
      have hflag₂ : Flagless h₁ (h₁.setSize c.addr (c.size + b.size)) := flagless_store (by
        unfold blockAlign at *
        omega)
      obtain ⟨hcp₁, -, hnb⟩ := coalesced_middle.mp hcpre
      refine ⟨h', _, fl', hco,
        ⟨hshape, coalesced_absorb _ hcp₁ hcpost (hnb.resolve_left (by simp [hcl])).1⟩, ?_,
        (hflag.trans hflag₂).trans hflag', hflag' _ (hflag₂ _ hbeven)⟩
      rw [lives_append, lives_append, lives_append, lives_absorb rfl]
      simp [hcl, lives]
  | none =>
      obtain ⟨h', fl', hco, hshape, hflag'⟩ := coalesce_spec (add_freed hs hlive h₁eq) rfl
      have hflag₂ : Flagless h₁ (h₁.addToFreeList b.addr) :=
        (flagless_store (hs.even (h₁eq ▸ hs.linked.head_mem))).trans (flagless_store rfl)
      refine ⟨h', _, fl', hco, ⟨hshape, coalesced_absorb _ hcpre hcpost ?_⟩, ?_,
        (hflag.trans hflag₂).trans hflag', hflag' _ (hflag₂ _ hbeven)⟩
      · intro c hc
        by_contra hcl
        obtain ⟨p₁, rfl⟩ := List.getLast?_eq_some_iff.mp hc
        have hends : c.addr + c.size = b.addr := hpre.split.2.1
        have hin : c.addr ∈ fl := hs.mem_fl.mpr ⟨c, by simp, by simpa using hcl, rfl⟩
        refine List.find?_eq_none.mp hfind c.addr hin ?_
        simpa [hsize c (by simp)] using hends
      · rw [lives_append, lives_append, lives_absorb rfl]

end Doors.Alloc
