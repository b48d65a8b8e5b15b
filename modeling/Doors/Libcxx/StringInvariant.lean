import Mathlib.Data.Set.Insert
import Doors.Lib.Post
import Doors.Libcxx.String

/-!
# Doors.Libcxx.StringInvariant

Who owns which heap block.

`Shift A A' h h'` says what a piece of code that owns the blocks `A` of `h` may
do to the heap when it ends up with `A'` in `h'`: blocks of others stay as they
are, and no block is lost.  It composes (`Shift.trans`) and can be used with
further blocks in hand (`Shift.frame`).

`Good` is the invariant of one string, and `Done` what a member function makes
of it: a good string, a heap that has shifted from the old block of the string
to the new one, and the size it should have.
-/

namespace Doors.Libcxx

open Run

/-! ## the heap -/

/-- Numbers that were not given out are unused; a block was freed once, or not
at all while it is live. -/
structure Heap.WF (h : Heap) : Prop where
  fresh : ∀ b, h.next ≤ b → h.block b = none ∧ h.frees b = 0
  live : ∀ b blk, h.block b = some blk → h.frees b = 0
  freed : ∀ b, b < h.next → h.block b = none → h.frees b = 1

/-- From `A` to `A'`, with the blocks of others untouched. -/
structure Shift (A A' : Set Nat) (h h' : Heap) : Prop where
  same : ∀ b, b ∉ A → ∀ blk, h.block b = some blk → h'.block b = some blk
  live : ∀ b blk, h'.block b = some blk → b ∈ A' ∨ b ∉ A ∧ h.block b ≠ none
  new : ∀ b, b ∈ A' → b ∈ A ∨ h.block b = none
  wf : h.WF → h'.WF

variable {A A' A'' B : Set Nat} {h h' h'' : Heap}

theorem Shift.refl (A : Set Nat) (h : Heap) : Shift A A h h where
  same _ _ _ hb := hb
  live b blk hb := by
    by_cases hA : b ∈ A
    · exact .inl hA
    · exact .inr ⟨hA, by simp [hb]⟩
  new _ hb := .inl hb
  wf hw := hw

theorem Shift.trans (h₁ : Shift A A' h h') (h₂ : Shift A' A'' h' h'') : Shift A A'' h h'' where
  same b hA blk hb := by
    refine h₂.same b (fun hA' => ?_) blk (h₁.same b hA blk hb)
    rcases h₁.new b hA' with hA'' | hnone
    · exact hA hA''
    · simp [hb] at hnone
  live b blk hb := by
    rcases h₂.live b blk hb with hA'' | ⟨hA', hlive⟩
    · exact .inl hA''
    · obtain ⟨blk', hblk'⟩ := Option.ne_none_iff_exists'.mp hlive
      rcases h₁.live b blk' hblk' with hin | hout
      · exact absurd hin hA'
      · exact .inr hout
  new b hA'' := by
    rcases h₂.new b hA'' with hA' | hnone
    · exact h₁.new b hA'
    · by_contra hcon
      obtain ⟨hA, hlive⟩ := not_or.mp hcon
      obtain ⟨blk, hblk⟩ := Option.ne_none_iff_exists'.mp hlive
      simp [h₁.same b hA blk hblk] at hnone
  wf hw := h₂.wf (h₁.wf hw)

/-- Blocks that neither had are not touched. -/
theorem Shift.frame (hs : Shift A A' h h') (B : Set Nat) : Shift (A ∪ B) (A' ∪ B) h h' where
  same b hb := hs.same b fun hA => hb (.inl hA)
  live b blk hb := by
    by_cases hB : b ∈ B
    · exact .inl (.inr hB)
    · rcases hs.live b blk hb with hA' | ⟨hA, hlive⟩
      · exact .inl (.inl hA')
      · exact .inr ⟨by simp [hA, hB], hlive⟩
  new b hb := by
    rcases hb with hA' | hB
    · rcases hs.new b hA' with hA | hnone
      · exact .inl (.inl hA)
      · exact .inr hnone
    · exact .inl (.inr hB)
  wf := hs.wf

/-- A block `b` takes the place of the blocks `A`. -/
theorem Shift.exchange {h₁ h₂ h₃ : Heap} {b : Nat} (halloc : Shift ∅ {b} h h₁)
    (hfill : Shift {b} {b} h₁ h₂)
    (hfree : Shift A ∅ h₂ h₃) : Shift A {b} h h₃ := by
  have halloc' := halloc.frame A
  have hfill' := hfill.frame A
  have hfree' := hfree.frame {b}
  rw [Set.empty_union] at halloc' hfree'
  rw [Set.union_comm A] at hfree'
  exact (halloc'.trans hfill').trans hfree'

/-- An operation that may halt, and does nothing else that stops it. -/
abbrev Safe {α : Type} (x : Except Stop α) (Q : α → Prop) : Prop := Post (· = Stop.halt) x Q

section

variable {E : Env} {b n off : Nat} {bs : List (BitVec 8)} {blk : Block} {ok : Stop → Prop}

/-- A write inside a live block. -/
theorem Heap.write_safe (hb : h.block b = some blk) (hlen : off + bs.length ≤ blk.size) :
    Post ok (h.write b off bs) fun h' => Shift {b} {b} h h' ∧
      h'.block b = some ⟨blk.size, poke blk.byte off bs⟩ := by
  simp only [Heap.write, hb, if_pos hlen]
  have hother : ∀ c, c ≠ b → Function.update h.block b (some ⟨blk.size, poke blk.byte off bs⟩) c =
      h.block c :=
    fun c hc => Function.update_of_ne hc _ _
  refine Post.pure ⟨⟨?_, ?_, ?_, ?_⟩, by simp⟩
  · intro c hc blk' hblk'
    exact (hother c hc).trans hblk'
  · intro c blk' hblk'
    by_cases hc : c = b
    · exact .inl hc
    · exact .inr ⟨hc, fun hnone => nomatch hnone.symm.trans ((hother c hc).symm.trans hblk')⟩
  · exact fun c hc => .inl hc
  · intro hw
    refine ⟨fun c hc => ?_, fun c blk' hblk' => ?_, fun c hc hnone => ?_⟩
    · have hcb : c ≠ b := by
        rintro rfl
        simp [(hw.fresh c hc).1] at hb
      exact ⟨(hother c hcb).trans (hw.fresh c hc).1, (hw.fresh c hc).2⟩
    · by_cases hcb : c = b
      · exact hcb ▸ hw.live b blk hb
      · exact hw.live c blk' ((hother c hcb).symm.trans hblk')
    · by_cases hcb : c = b
      · simp [hcb] at hnone
      · exact hw.freed c hc ((hother c hcb).symm.trans hnone)

/-- A new block, for a capacity that a size can have. -/
theorem allocate_safe (hw : h.WF) (hn : n + 1 ≤ 2 ^ 32) :
    Safe (allocate E n h) fun r => h.block r.1 = none ∧ Shift ∅ {r.1} h r.2 ∧
      ∃ blk, r.2.block r.1 = some blk ∧ blk.size = n + 1 ∧ n + 1 < 2 ^ 32 := by
  unfold allocate
  split
  · exact Post.throw rfl
  · next hok =>
      have hlt : n + 1 < 2 ^ 32 := by
        unfold u32 at hok
        rcases Nat.lt_or_eq_of_le hn with h | h
        · exact h
        · exact absurd (.inl (h ▸ Nat.mod_self _)) hok
      have hnone := (hw.fresh h.next le_rfl).1
      refine Post.pure ⟨hnone, ⟨?_, ?_, ?_, ?_⟩, ⟨_, _⟩, Function.update_self ..,
        Nat.mod_eq_of_lt hlt, hlt⟩
      · intro c _ blk hblk
        have hc : c ≠ h.next := by
          rintro rfl
          simp [hnone] at hblk
        exact (Function.update_of_ne hc _ _).trans hblk
      · intro c blk hblk
        by_cases hc : c = h.next
        · exact .inl hc
        · exact .inr
            ⟨by simp, fun hnone => nomatch hnone.symm.trans
              ((Function.update_of_ne hc _ _).symm.trans hblk)⟩
      · rintro c rfl
        exact .inr hnone
      · intro _
        refine ⟨fun c hc => ?_, fun c blk hblk => ?_, fun c hc hnone => ?_⟩
        · have hc' : c ≠ h.next := by
            rintro rfl
            exact absurd hc (by simp)
          have hle : h.next ≤ c := Nat.le_of_succ_le hc
          exact ⟨(Function.update_of_ne hc' _ _).trans (hw.fresh c hle).1, (hw.fresh c hle).2⟩
        · by_cases hc : c = h.next
          · exact hc ▸ (hw.fresh h.next le_rfl).2
          · exact hw.live c blk ((Function.update_of_ne hc _ _).symm.trans hblk)
        · by_cases hc' : c = h.next
          · simp [hc'] at hnone
          · exact hw.freed c (by simp at hc; omega)
              ((Function.update_of_ne hc' _ _).symm.trans hnone)

/-- A live block is freed once. -/
theorem deallocate_safe (hb : h.block b = some blk) :
    Post ok (deallocate (.heap b) h) fun h' => Shift {b} ∅ h h' := by
  simp only [deallocate, hb]
  have hother : ∀ c, c ≠ b → Function.update h.block b none c = h.block c :=
    fun c hc => Function.update_of_ne hc _ _
  refine Post.pure ⟨?_, ?_, ?_, ?_⟩
  · intro c hc blk' hblk'
    exact (hother c hc).trans hblk'
  · intro c blk' hblk'
    have hc : c ≠ b := by
      rintro rfl
      simp at hblk'
    exact .inr ⟨hc, fun hnone => nomatch hnone.symm.trans ((hother c hc).symm.trans hblk')⟩
  · exact fun c hc => absurd hc (by simp)
  · intro hw
    refine ⟨fun c hc => ?_, fun c blk' hblk' => ?_, fun c hc hnone => ?_⟩
    · have hcb : c ≠ b := by
        rintro rfl
        simp [(hw.fresh c hc).1] at hb
      exact ⟨(hother c hcb).trans (hw.fresh c hc).1,
        (Function.update_of_ne hcb _ _).trans (hw.fresh c hc).2⟩
    · have hcb : c ≠ b := by
        rintro rfl
        simp at hblk'
      exact (Function.update_of_ne hcb _ _).trans (hw.live c blk' ((hother c hcb).symm.trans hblk'))
    · by_cases hcb : c = b
      · subst hcb
        simp [hw.live c blk hb]
      · exact (Function.update_of_ne hcb _ _).trans
          (hw.freed c hc ((hother c hcb).symm.trans hnone))

end

/-! ## buffers -/

/-- The byte that was written. -/
theorem poke_self (buf : Nat → BitVec 8) (off : Nat) (x : BitVec 8) : poke buf off [x] off = x := by
  simp [poke]

/-- The last of the bytes that were written. -/
theorem poke_append (buf : Nat → BitVec 8) (bs : List (BitVec 8)) (x : BitVec 8) :
    poke buf 0 (bs ++ [x]) bs.length = x := by
  simp [poke]

/-- The block of a string. -/
def own (s : Str) : Set Nat := {b | s.data = .heap b}

namespace Str

/-- `blk` is the buffer of the string, with place for `capacity()` characters and
the terminator. -/
def Room (i : Nat) (s : Str) (h : Heap) (blk : Block) : Prop :=
  s.buffer i h = some blk ∧ s.cap i + 1 ≤ blk.size

/-- **The invariant of a string**. -/
structure Good (i : Nat) (s : Str) (h : Heap) : Prop where
  room : ∃ blk, s.Room i h blk ∧ blk.byte s.size = 0
  size_le : s.size ≤ s.cap i
  cap_lt : s.cap i + 1 < 2 ^ 32
  small : s.size < maxSize

/-- What a write through `data_` leaves alone. -/
structure Kept (s s' : Str) : Prop where
  data : s'.data = s.data
  size : s'.size = s.size
  capacity : s'.capacity = s.capacity

/-- The result of an operation that owned `A`: a good string of size `n`. -/
structure Done (i : Nat) (A : Set Nat) (h : Heap) (n : Nat) (r : Str × Heap) : Prop where
  good : Good i r.1 r.2
  shift : Shift A (own r.1) h r.2
  size : r.1.size = n

variable {E : Env} {i j n c off b : Nat} {s s' t : Str} {bs : List (BitVec 8)} {blk : Block}
  {ok : Stop → Prop}

theorem Kept.refl (s : Str) : Kept s s := ⟨rfl, rfl, rfl⟩

/-- A write through `data_` keeps the capacity. -/
theorem Kept.cap (h : Kept s s') : s'.cap i = s.cap i := by
  simp [Str.cap, isSSO, h.data, h.capacity]

/-- A write through `data_` keeps the block. -/
theorem Kept.own (h : Kept s s') : own s' = own s := by
  simp only [Libcxx.own, h.data]

theorem Kept.trans {s'' : Str} (h₁ : Kept s s') (h₂ : Kept s' s'') : Kept s s'' :=
  ⟨h₂.data.trans h₁.data, h₂.size.trans h₁.size, h₂.capacity.trans h₁.capacity⟩

@[simp] theorem isSSO_iff : s.isSSO i = true ↔ s.data = .sso i := by
  simp [isSSO]

/-- A short string owns no block. -/
theorem own_sso (hd : s.data = .sso j) : own s = ∅ := by
  simp [own, hd]

/-- A long string owns its block. -/
theorem own_heap (hd : s.data = .heap b) : own s = {b} := by
  simp [own, hd]

/-- The buffer of a string that is not small is a live block. -/
theorem Room.heap (hr : s.Room i h blk) (hs : ¬ s.isSSO i = true) :
    ∃ b, s.data = .heap b ∧ h.block b = some blk ∧ s.capacity + 1 ≤ blk.size := by
  obtain ⟨hbuf, hcap⟩ := hr
  simp only [Str.cap, hs] at hcap
  unfold buffer at hbuf
  split at hbuf
  · next o ho =>
      split at hbuf
      · next hoi => exact absurd (by rw [isSSO_iff, ho, hoi]) hs
      · contradiction
  · next b hb => exact ⟨b, hb, hbuf, hcap⟩

/-- The buffer of a short string is in the object. -/
theorem Room.sso (hr : s.Room i h blk) (hs : s.data = .sso i) : blk = ⟨ssoCapacity + 1, s.sso⟩ := by
  have hbuf := hr.1
  simp only [buffer, hs, if_true] at hbuf
  exact (Option.some.inj hbuf).symm

/-- The block of a string is live. -/
theorem Room.live (hr : s.Room i h blk) (hd : s.data = .heap b) : h.block b ≠ none := by
  have hbuf := hr.1
  simp only [buffer, hd] at hbuf
  simp [hbuf]

/-- What others do to their blocks leaves the buffer alone. -/
theorem Room.shift (hr : s.Room i h blk) (hs : Shift A A' h h') (hA : ∀ b ∈ own s, b ∉ A) :
    s.Room i h' blk := by
  refine ⟨?_, hr.2⟩
  have hbuf := hr.1
  unfold buffer at hbuf ⊢
  split at hbuf
  · exact hbuf
  · next b hb => exact hs.same b (hA b hb) blk hbuf

/-- A string is not touched by what happens to other blocks. -/
theorem Good.shift (hg : s.Good i h) (hs : Shift A A' h h') (hA : ∀ b ∈ own s, b ∉ A) :
    s.Good i h' := by
  obtain ⟨blk, hroom, hnul⟩ := hg.room
  exact ⟨⟨blk, hroom.shift hs hA, hnul⟩, hg.size_le, hg.cap_lt, hg.small⟩

/-- A read of the buffer, terminator included. -/
theorem read_eq (hr : s.Room i h blk) (hlen : off + n ≤ s.cap i + 1) :
    s.read i h off n = .ok ((List.range n).map fun k => blk.byte (off + k)) := by
  simp only [read, hr.1]
  exact if_pos (hlen.trans hr.2)

/-- A write of the buffer, terminator included. -/
theorem write_safe (hr : s.Room i h blk) (hlen : off + bs.length ≤ s.cap i + 1) :
    Post ok (s.write i h off bs) fun r => Kept s r.1 ∧
      r.1.Room i r.2 ⟨blk.size, poke blk.byte off bs⟩ ∧
      Shift (own s) (own s) h r.2 := by
  by_cases hs : s.isSSO i = true
  · have hd := isSSO_iff.mp hs
    have hblk := hr.sso hd
    have hcap : s.cap i = ssoCapacity := if_pos hs
    rw [hcap] at hlen
    subst hblk
    simp only [write, hd, if_true, writeSSO, if_pos hlen]
    refine Post.pure ⟨⟨hd.symm ▸ rfl, rfl, rfl⟩, ⟨?_, ?_⟩, Shift.refl _ _⟩
    · simp [buffer]
    · simp [Str.cap, isSSO]
  · obtain ⟨b, hd, hb, hcap⟩ := hr.heap hs
    have hcap' : s.cap i = s.capacity := if_neg hs
    simp only [write, hd]
    rw [own_heap hd]
    refine Post.bind (Heap.write_safe hb (hlen.trans (hcap' ▸ hcap))) fun h' hh' => ?_
    refine Post.pure ⟨Kept.refl s, ⟨?_, hr.2⟩, hh'.1⟩
    simp only [buffer, hd]
    exact hh'.2

/-- The buffer is given up. -/
theorem release_safe (hr : s.Room i h blk) : Post ok (s.release i h) fun h' =>
    Shift (own s) ∅ h h' := by
  unfold release
  split
  · next hs =>
      rw [own_sso (isSSO_iff.mp hs)]
      exact Post.pure (Shift.refl _ _)
  · next hs =>
      obtain ⟨b, hd, hb, -⟩ := hr.heap hs
      rw [hd, own_heap hd]
      exact deallocate_safe hb

end Str

end Doors.Libcxx
