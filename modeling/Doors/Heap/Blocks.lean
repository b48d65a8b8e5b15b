import Mathlib.Data.List.Chain
import Mathlib.Data.List.Perm.Basic
import Doors.Heap.Heap

/-!
# Doors.Heap.Blocks

The heap as a row of blocks.

* `Tiles` — blocks that follow each other without gaps;
* `Shape` — what memory holds for a row of blocks and the order of the free list;
* `Inv` — a shape in which no two neighbours are both free.

`Shape` determines the blocks: walking from header to header finds them
(`Shape.blocks_eq`).
-/

namespace Doors.Alloc

open Chain

/-- A block: its address, its size and whether it is allocated. -/
structure Blk where
  addr : Nat
  size : Nat
  live : Bool
  deriving Repr, DecidableEq

/-- The blocks `bs` fill `[a, e)` from left to right. -/
def Tiles : Nat → List Blk → Nat → Prop
  | a, [], e => a = e
  | a, b :: bs, e => b.addr = a ∧ minBlock ≤ b.size ∧ b.size % blockAlign = 0 ∧
      Tiles (a + b.size) bs e

/-- The header of a block. -/
def Blk.Header (b : Blk) (mem : Nat → Nat) : Prop :=
  mem b.addr = b.size + (if b.live then 1 else 0) ∧
    mem (b.addr + 4) = if b.live then heapMagic else 0

/-- The addresses of the free blocks. -/
def frees (bs : List Blk) : List Nat := (bs.filter fun b => !b.live).map (·.addr)

/-- Memory holds the blocks `bs`, and the free list goes through `fl`. -/
structure Shape (h : Heap) (bs : List Blk) (fl : List Nat) : Prop where
  pos : 0 < h.heapStart
  aligned : h.heapStart % blockAlign = 0
  top : h.heapEnd < 2 ^ 32
  tiles : Tiles h.heapStart bs h.heapEnd
  hdr : ∀ b ∈ bs, b.Header h.mem
  linked : Linked h.next h.freeList fl
  perm : fl.Perm (frees bs)

/-- Neighbours are not both free. -/
def Coalesced (bs : List Blk) : Prop := bs.IsChain fun b c => b.live ∨ c.live

/-- **The invariant of the heap**. -/
structure Inv (h : Heap) (bs : List Blk) (fl : List Nat) : Prop where
  shape : Shape h bs fl
  coalesced : Coalesced bs

/-- The blocks found by walking from header to header. -/
def Heap.blocksFrom (h : Heap) : Nat → Nat → List Blk
  | 0, _ => []
  | k + 1, a =>
      if a ≥ h.heapEnd then []
      else ⟨a, rawSize (h.size a), isAlloc (h.size a)⟩ :: h.blocksFrom k (a + rawSize (h.size a))

def Heap.blocks (h : Heap) : List Blk := h.blocksFrom h.fuel h.heapStart

variable {h : Heap} {bs bs' pre post : List Blk} {fl fl' : List Nat} {b c d : Blk} {a e m x : Nat}
  {mem mem' : Nat → Nat}

/-! ## tiles -/

/-- Two runs of blocks. -/
theorem tiles_append : Tiles a (bs ++ bs') e ↔ ∃ m, Tiles a bs m ∧ Tiles m bs' e := by
  induction bs generalizing a with
  | nil => simp [Tiles]
  | cons b bs ih =>
      simp only [List.cons_append, Tiles, ih]
      constructor
      · rintro ⟨h₁, h₂, h₃, m, h₄, h₅⟩
        exact ⟨m, ⟨h₁, h₂, h₃, h₄⟩, h₅⟩
      · rintro ⟨m, ⟨h₁, h₂, h₃, h₄⟩, h₅⟩
        exact ⟨h₁, h₂, h₃, m, h₄, h₅⟩

/-- Every block has room for a node. -/
theorem Tiles.le (h : Tiles a bs e) : a + minBlock * bs.length ≤ e := by
  induction bs generalizing a with
  | nil =>
      obtain rfl : a = e := h
      simp
  | cons b bs ih =>
      obtain ⟨-, hmin, -, h⟩ := h
      have := ih h
      simp only [List.length_cons]
      unfold minBlock at *
      omega

/-- Where a block lies. -/
theorem Tiles.bounds (h : Tiles a bs e) (hb : b ∈ bs) :
    a ≤ b.addr ∧ b.addr + b.size ≤ e ∧ minBlock ≤ b.size ∧ b.size % blockAlign = 0 ∧
      b.addr % blockAlign = a % blockAlign := by
  induction bs generalizing a with
  | nil => simp at hb
  | cons c bs ih =>
      obtain ⟨haddr, hmin, hmod, h⟩ := h
      have hle := h.le
      rcases List.mem_cons.mp hb with rfl | hb
      · refine ⟨by omega, by omega, hmin, hmod, by rw [haddr]⟩
      · obtain ⟨h₁, h₂, h₃, h₄, h₅⟩ := ih h hb
        refine ⟨by omega, h₂, h₃, h₄, ?_⟩
        rw [h₅]
        unfold blockAlign at *
        omega

/-- A block in the middle: those before it end before, those behind it start
behind. -/
theorem Tiles.split (h : Tiles a (pre ++ b :: post) e) :
    Tiles a pre b.addr ∧ Tiles (b.addr + b.size) post e ∧ minBlock ≤ b.size ∧
      b.size % blockAlign = 0 := by
  obtain ⟨m, hpre, hb⟩ := tiles_append.mp h
  obtain ⟨rfl, hmin, hmod, hpost⟩ := hb
  exact ⟨hpre, hpost, hmin, hmod⟩

/-- A block takes the place of others. -/
theorem Tiles.join (hpre : Tiles a pre b.addr) (hpost : Tiles (b.addr + b.size) post e)
    (hmin : minBlock ≤ b.size)
    (hmod : b.size % blockAlign = 0) : Tiles a (pre ++ b :: post) e :=
  tiles_append.mpr ⟨b.addr, hpre, rfl, hmin, hmod, hpost⟩

/-- Two blocks are the same or do not overlap. -/
theorem Tiles.apart (h : Tiles a bs e) (hb : b ∈ bs) (hc : c ∈ bs) :
    b = c ∨ b.addr + b.size ≤ c.addr ∨ c.addr + c.size ≤ b.addr := by
  obtain ⟨pre, post, rfl⟩ := List.append_of_mem hb
  obtain ⟨hpre, hpost, -⟩ := h.split
  rcases List.mem_append.mp hc with hc | hc
  · exact .inr (.inr (hpre.bounds hc).2.1)
  · rcases List.mem_cons.mp hc with rfl | hc
    · exact .inl rfl
    · exact .inr (.inl (hpost.bounds hc).1)

/-- A block is known by its address. -/
theorem Tiles.eq_of_addr (h : Tiles a bs e) (hb : b ∈ bs) (hc : c ∈ bs)
    (heq : b.addr = c.addr) : b = c := by
  have h₁ := (h.bounds hb).2.2.1
  have h₂ := (h.bounds hc).2.2.1
  unfold minBlock at *
  rcases h.apart hb hc with hbc | hbc | hbc
  · exact hbc
  · omega
  · omega

/-- The words of a block that the heap uses are not those of another one. -/
theorem Tiles.words (h : Tiles a bs e) (hb : b ∈ bs) (hc : c ∈ bs) :
    b = c ∨ b.addr + 32 ≤ c.addr ∨ c.addr + 32 ≤ b.addr := by
  have h₁ := (h.bounds hb).2.2.1
  have h₂ := (h.bounds hc).2.2.1
  unfold minBlock at *
  rcases h.apart hb hc with hbc | hbc | hbc
  · exact .inl hbc
  · exact .inr (.inl (by omega))
  · exact .inr (.inr (by omega))

/-- No word of a block is in the header of another one. -/
theorem Tiles.header_ne (h : Tiles a (pre ++ b :: post) e) (hc : c ∈ pre ++ post) (hle : b.addr ≤ x)
    (hlt : x < b.addr + b.size) : c.addr ≠ x ∧ c.addr + 4 ≠ x := by
  obtain ⟨hpre, hpost, -⟩ := h.split
  rcases List.mem_append.mp hc with hc | hc
  · obtain ⟨-, h₂, h₃, -⟩ := hpre.bounds hc
    unfold minBlock at h₃
    omega
  · have := (hpost.bounds hc).1
    omega

/-- No two blocks begin at one address. -/
theorem Tiles.nodup (h : Tiles a bs e) : (bs.map (·.addr)).Nodup := by
  induction bs generalizing a with
  | nil => simp
  | cons b bs ih =>
      obtain ⟨haddr, hmin, -, h⟩ := h
      rw [List.map_cons, List.nodup_cons]
      refine ⟨fun hin => ?_, ih h⟩
      obtain ⟨c, hc, hca⟩ := List.mem_map.mp hin
      have := (h.bounds hc).1
      unfold minBlock at hmin
      omega

/-! ## the free list -/

/-- The free blocks. -/
theorem mem_frees : x ∈ frees bs ↔ ∃ b ∈ bs, b.live = false ∧ b.addr = x := by
  unfold frees
  simp only [List.mem_map, List.mem_filter, Bool.not_eq_true', and_assoc]

/-- The free blocks of both lists. -/
theorem frees_append (l₁ l₂ : List Blk) : frees (l₁ ++ l₂) = frees l₁ ++ frees l₂ := by simp [frees]

/-- A free block in front. -/
theorem frees_cons_free (hb : b.live = false) (l : List Blk) :
    frees (b :: l) = b.addr :: frees l := by simp [frees, hb]

/-- A live block in front. -/
theorem frees_cons_live (hb : b.live = true) (l : List Blk) :
    frees (b :: l) = frees l := by simp [frees, hb]

/-! ## free neighbours -/

/-- A block in a coalesced row: it is allocated, or its neighbours are. -/
theorem coalesced_middle :
    Coalesced (pre ++ b :: post) ↔ Coalesced pre ∧ Coalesced post ∧
      (b.live ∨ ((∀ c ∈ pre.getLast?, c.live) ∧ ∀ c ∈ post.head?, c.live)) := by
  unfold Coalesced
  rw [List.isChain_append, List.isChain_cons]
  simp only [List.head?_cons, Option.mem_some_iff, forall_eq']
  cases hb : b.live with
  | true => simp
  | false =>
      simp
      tauto

namespace Shape

/-- What is in the free list. -/
theorem mem_fl (hs : Shape h bs fl) : x ∈ fl ↔ ∃ b ∈ bs, b.live = false ∧ b.addr = x := by
  rw [hs.perm.mem_iff, mem_frees]

/-- No block is in the free list twice. -/
theorem fl_nodup (hs : Shape h bs fl) : fl.Nodup := by
  rw [hs.perm.nodup_iff, frees]
  exact hs.tiles.nodup.sublist (List.filter_sublist.map _)

/-- The fuel suffices for the loops. -/
theorem length_lt (hs : Shape h bs fl) : bs.length < h.fuel ∧ fl.length < h.fuel := by
  have hle := hs.tiles.le
  have hfl : fl.length ≤ bs.length := by
    rw [hs.perm.length_eq, frees, List.length_map]
    exact List.length_filter_le _ _
  unfold Heap.fuel blockAlign
  unfold minBlock at hle
  omega

/-- The size field, with its flag. -/
theorem size_eq (hs : Shape h bs fl) (hb : b ∈ bs) :
    h.size b.addr = b.size + (if b.live then 1 else 0) := (hs.hdr b hb).1

/-- The size and the flag of a block. -/
theorem rawSize_eq (hs : Shape h bs fl) (hb : b ∈ bs) :
    rawSize (h.size b.addr) = b.size ∧ isAlloc (h.size b.addr) = b.live := by
  have hmod := (hs.tiles.bounds hb).2.2.2.1
  rw [hs.size_eq hb]
  unfold rawSize isAlloc
  unfold blockAlign at hmod
  cases b.live with
  | false =>
      simp only [Bool.false_eq_true, if_false, decide_eq_false_iff_not]
      omega
  | true =>
      simp only [if_true, decide_eq_true_eq]
      omega

/-- Walking from header to header finds the blocks. -/
theorem blocksFrom_eq (hs : Shape h bs fl) (pre : List Blk) {k : Nat} (hpre : bs = pre ++ post)
    (hk : post.length < k)
    (ht : Tiles a post h.heapEnd) : h.blocksFrom k a = post := by
  induction post generalizing a pre k with
  | nil =>
      obtain ⟨k, rfl⟩ : ∃ j, k = j + 1 := ⟨k - 1, by simp only [List.length_nil] at hk; omega⟩
      obtain rfl : a = h.heapEnd := ht
      rw [Heap.blocksFrom, if_pos le_rfl]
  | cons b post ih =>
      obtain ⟨k, rfl⟩ : ∃ j, k = j + 1 := ⟨k - 1, by omega⟩
      obtain ⟨rfl, hmin, -, ht⟩ := ht
      have hle := ht.le
      obtain ⟨hraw, halloc⟩ := hs.rawSize_eq (b := b) (by rw [hpre]; simp)
      unfold minBlock at hmin
      rw [Heap.blocksFrom, if_neg (by omega), hraw, halloc,
        ih (pre ++ [b]) (by rw [hpre, List.append_assoc]; rfl) (by simpa using hk) ht]

/-- The walk over the headers finds the blocks. -/
theorem blocks_eq (hs : Shape h bs fl) : h.blocks = bs :=
  hs.blocksFrom_eq [] rfl hs.length_lt.1 hs.tiles

/-- No block begins at the null pointer. -/
theorem addr_ne_zero (hs : Shape h bs fl) (hb : b ∈ bs) : b.addr ≠ 0 := by
  have := (hs.tiles.bounds hb).1
  have := hs.pos
  omega

/-- A word of a block is no link of the free list, unless it is its own one. -/
theorem link_ne (hs : Shape h bs fl) (hb : b ∈ bs) (ha : a ∈ fl) (hle : b.addr ≤ x)
    (hlt : x < b.addr + b.size)
    (hne : a ≠ b.addr ∨ x ≠ b.addr + 16) : a + 16 ≠ x := by
  obtain ⟨c, hc, -, rfl⟩ := hs.mem_fl.mp ha
  have h₂ := (hs.tiles.bounds hc).2.2.1
  unfold minBlock at h₂
  rcases hs.tiles.apart hb hc with rfl | hbc | hbc
  · omega
  · omega
  · omega

/-- A link of the free list is no word of a header. -/
theorem header_ne_link (hs : Shape h bs fl) (hc : c ∈ bs) (ha : a ∈ fl) :
    c.addr ≠ a + 16 ∧ c.addr + 4 ≠ a + 16 := by
  obtain ⟨b, hb, -, rfl⟩ := hs.mem_fl.mp ha
  have hw := hs.tiles.words hb hc
  rcases hw with rfl | hw | hw
  · omega
  · omega
  · omega

/-- Another row of blocks between the same bounds. -/
theorem rebuild {h' : Heap} (hs : Shape h bs fl) (hstart : h'.heapStart = h.heapStart)
    (hend : h'.heapEnd = h.heapEnd)
    (htiles : Tiles h.heapStart bs' h.heapEnd) (hhdr : ∀ b ∈ bs', b.Header h'.mem)
    (hlinked : Linked h'.next h'.freeList fl') (hperm : fl'.Perm (frees bs')) :
    Shape h' bs' fl' where
  pos := hstart ▸ hs.pos
  aligned := hstart ▸ hs.aligned
  top := hend ▸ hs.top
  tiles := hstart ▸ hend ▸ htiles
  hdr := hhdr
  linked := hlinked
  perm := hperm

end Shape

/-- The last node, if there is one. -/
theorem getLastD_mem {l : List Nat} (hne : l.getLastD 0 ≠ 0) : l.getLastD 0 ∈ l := by
  rcases List.eq_nil_or_concat l with rfl | ⟨q, z, rfl⟩
  · contradiction
  · simp

/-! ## links -/

/-- The list goes on with `new` behind `pre` once the last node of `pre`, or the
head, is linked to it. -/
theorem linked_link {p1 p2 new : List Nat} (hl : Linked h.next h.freeList (p1 ++ p2))
    (hnd : p1.Nodup)
    (hnew : Linked (h.link (p1.getLastD 0) x).next x new) :
    Linked (h.link (p1.getLastD 0) x).next (h.link (p1.getLastD 0) x).freeList (p1 ++ new) := by
  rcases List.eq_nil_or_concat p1 with rfl | ⟨q, z, rfl⟩
  · exact hnew
  · simp only [List.concat_eq_append, List.getLastD_concat] at *
    have hz : z ≠ 0 := hl.ne_zero z (by simp)
    have hlink : h.link z x = h.setNext z x := if_pos hz
    rw [hlink] at hnew ⊢
    have hsplice := hl.splice hnew (fun c hc => ?_) fun c hc => ?_
    · rwa [if_neg (by simp)] at hsplice
    · simp only [List.dropLast_concat] at hc
      have hcz : c ≠ z := by
        rintro rfl
        exact (List.nodup_append.mp hnd).2.2 c hc c (by simp) rfl
      exact Function.update_of_ne (by omega) _ _
    · simp only [List.getLast?_concat, Option.some.injEq] at hc
      subst hc
      exact Function.update_self ..

/-- Linking writes one word at most. -/
theorem link_mem (h : Heap) (prev target x : Nat) (hx : prev ≠ 0 → x ≠ prev + 16) :
    (h.link prev target).mem x = h.mem x := by
  unfold Heap.link
  split
  · next hp => exact Function.update_of_ne (hx hp) _ _
  · rfl

/-- Only the last node of the prefix changes its link. -/
theorem link_next {f₁ : List Nat} (ha : a ∉ f₁) : (h.link (f₁.getLastD 0) x).next a = h.next a :=
  link_mem _ _ _ _ fun hne heq => ha (by
    obtain rfl : a = f₁.getLastD 0 := by omega
    exact getLastD_mem hne)

/-- `removeFromFreeList` takes one node out. -/
theorem linked_remove {f₁ f₂ : List Nat} {t : Nat} (hl : Linked h.next h.freeList (f₁ ++ t :: f₂))
    (hnd : (f₁ ++ t :: f₂).Nodup) :
    Linked (h.removeFromFreeList t (f₁.getLastD 0)).next
      (h.removeFromFreeList t (f₁.getLastD 0)).freeList (f₁ ++ f₂) := by
  obtain ⟨hnd₁, -, hdisj⟩ := List.nodup_append.mp hnd
  refine linked_link hl hnd₁ (hl.drop.congr fun a ha => link_next fun ha₁ => ?_)
  exact hdisj a ha₁ a (by simp [ha]) rfl

/-- A node is replaced by one that goes on in the same way. -/
theorem linked_replace {f₁ f₂ : List Nat} {t : Nat} (hl : Linked h.next h.freeList (f₁ ++ t :: f₂))
    (hnd : (f₁ ++ t :: f₂).Nodup) (hx0 : x ≠ 0) (hx : x ∉ f₁) (hnext : h.next x = h.next t) :
    Linked (h.link (f₁.getLastD 0) x).next (h.link (f₁.getLastD 0) x).freeList (f₁ ++ x :: f₂) := by
  obtain ⟨hnd₁, -, hdisj⟩ := List.nodup_append.mp hnd
  refine linked_link hl hnd₁ ⟨rfl, hx0, ?_⟩
  rw [link_next hx, hnext]
  refine hl.drop.congr fun a ha => link_next fun ha₁ => ?_
  exact hdisj a ha₁ a (by simp [ha]) rfl

/-- The free list does not change with a word that is none of its links. -/
theorem linked_store (hl : Linked h.next h.freeList fl) (v : Nat) (hx : ∀ a ∈ fl, a + 16 ≠ x) :
    Linked (h.store x v).next (h.store x v).freeList fl :=
  hl.congr fun a ha => Function.update_of_ne (hx a ha) _ _

/-- A write changes its word only. -/
theorem store_mem (h : Heap) (a v x : Nat) : (h.store a v).mem x = if x = a then v else h.mem x :=
  Function.update_apply ..

@[simp] theorem store_heapStart (h : Heap) (a v : Nat) :
    (h.store a v).heapStart = h.heapStart := rfl

@[simp] theorem link_heapStart (h : Heap) (prev target : Nat) :
    (h.link prev target).heapStart = h.heapStart := by
  unfold Heap.link
  split <;> rfl

@[simp] theorem link_heapEnd (h : Heap) (prev target : Nat) :
    (h.link prev target).heapEnd = h.heapEnd := by
  unfold Heap.link
  split <;> rfl

end Doors.Alloc
