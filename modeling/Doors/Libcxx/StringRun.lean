import Mathlib.Data.Set.Lattice
import Doors.Libcxx.StringOps

/-!
# Doors.Libcxx.StringRun

Programs over any number of strings.

`Mach.Inv` puts the strings together: each is good, no two own one block, and
no live block is without an owner.  Every allowed operation keeps it or halts,
so it holds after every sequence of operations; when the last string is gone,
no block is left.
-/

namespace Doors.Libcxx

open Run

namespace Mach

/-! ## the invariant -/

/-- The block of string `i`. -/
def ownAt (m : Mach) (i : Nat) : Set Nat := {b | ∃ s, m.strs i = some s ∧ b ∈ own s}

/-- **The invariant of a set of strings**. -/
structure Inv (m : Mach) : Prop where
  wf : m.heap.WF
  good : ∀ i s, m.strs i = some s → s.Good i m.heap
  unique : ∀ i j b, b ∈ m.ownAt i → b ∈ m.ownAt j → i = j
  owned : ∀ b blk, m.heap.block b = some blk → ∃ i, b ∈ m.ownAt i

variable {E : Env} {m m' : Mach} {i j k : Nat} {s t : Str}

/-- The block of a live string. -/
theorem ownAt_some (h : m.strs i = some s) : m.ownAt i = own s := by
  simp [ownAt, h]

/-- No string, no block. -/
theorem ownAt_none (h : m.strs i = none) : m.ownAt i = ∅ := by
  simp [ownAt, h]

/-- Without strings and blocks. -/
theorem Inv.empty : Inv Mach.empty where
  wf := ⟨fun _ _ => ⟨rfl, rfl⟩, (fun _ _ h => nomatch h), fun _ h => absurd h (Nat.not_lt_zero _)⟩
  good _ _ h := nomatch h
  unique _ _ _ h := by simp [ownAt, Mach.empty] at h
  owned _ _ h := nomatch h

/-- The blocks of a good string are live. -/
theorem live_of_good {b : Nat} (hg : ∀ s, m.strs i = some s → s.Good i m.heap)
    (hb : b ∈ m.ownAt i) : m.heap.block b ≠ none := by
  obtain ⟨s, hs, hd⟩ := hb
  obtain ⟨blk, hroom, -⟩ := (hg s hs).room
  exact hroom.live hd

/-- Two strings have no block in common. -/
theorem Inv.disjoint (hI : m.Inv) (hs : m.strs i = some s) (ht : m.strs j = some t) (hij : i ≠ j) :
    ∀ b ∈ own t, b ∉ own s :=
  fun b hbt hbs =>
    hij (hI.unique i j b (by rw [ownAt_some hs]; exact hbs) (by rw [ownAt_some ht]; exact hbt))

/-- Who owns what, whatever the strings are. -/
structure Apart (m : Mach) : Prop where
  live : ∀ i b, b ∈ m.ownAt i → m.heap.block b ≠ none
  unique : ∀ i j b, b ∈ m.ownAt i → b ∈ m.ownAt j → i = j
  owned : ∀ b blk, m.heap.block b = some blk → ∃ i, b ∈ m.ownAt i

/-- Two strings do not share a block. -/
theorem Inv.apart (hI : m.Inv) : m.Apart :=
  ⟨fun i _ hb => live_of_good (hI.good i) hb, hI.unique, hI.owned⟩

/-- The blocks of the strings `K` belong to no other. -/
theorem Apart.outside {b : Nat} (hA : m.Apart) {K : Set Nat} (hk : k ∉ K) (hb : b ∈ m.ownAt k) :
    b ∉ ⋃ k ∈ K, m.ownAt k := by
  intro hin
  obtain ⟨l, hl, hbl⟩ := Set.mem_iUnion₂.mp hin
  exact hk (hA.unique k l b hb hbl ▸ hl)

/-- An operation on the strings `K` that shifts their blocks leaves all blocks with one owner. -/
theorem Apart.change (hA : m.Apart) (K : Set Nat) (hout : ∀ k, k ∉ K → m'.strs k = m.strs k)
    (hlive : ∀ k b, k ∈ K → b ∈ m'.ownAt k → m'.heap.block b ≠ none)
    (hunique : ∀ k l b, k ∈ K → l ∈ K → b ∈ m'.ownAt k → b ∈ m'.ownAt l → k = l)
    (hshift : Shift (⋃ k ∈ K, m.ownAt k) (⋃ k ∈ K, m'.ownAt k) m.heap m'.heap) : m'.Apart := by
  have hframe : ∀ k, k ∉ K → m'.ownAt k = m.ownAt k := fun k hk => by simp only [ownAt, hout k hk]
  -- a block of a changed string cannot be one of the others
  have hcross : ∀ k l b, k ∈ K → l ∉ K → b ∈ m'.ownAt k → b ∉ m.ownAt l := by
    intro k l b hk hl hbk hbl
    rcases hshift.new b (Set.mem_iUnion₂.mpr ⟨k, hk, hbk⟩) with hin | hnone
    · exact hA.outside hl hbl hin
    · exact hA.live l b hbl hnone
  refine ⟨fun k b hb => ?_, fun k l b hbk hbl => ?_, fun b blk hb => ?_⟩
  · by_cases hk : k ∈ K
    · exact hlive k b hk hb
    · rw [hframe k hk] at hb
      obtain ⟨blk, hblk⟩ := Option.ne_none_iff_exists'.mp (hA.live k b hb)
      simp [hshift.same b (hA.outside hk hb) blk hblk]
  · by_cases hk : k ∈ K <;> by_cases hl : l ∈ K
    · exact hunique k l b hk hl hbk hbl
    · exact absurd (hframe l hl ▸ hbl) (hcross k l b hk hl hbk)
    · exact absurd (hframe k hk ▸ hbk) (hcross l k b hl hk hbl)
    · exact hA.unique k l b (hframe k hk ▸ hbk) (hframe l hl ▸ hbl)
  · rcases hshift.live b blk hb with hin | ⟨hnot, hlive⟩
    · obtain ⟨k, -, hbk⟩ := Set.mem_iUnion₂.mp hin
      exact ⟨k, hbk⟩
    · obtain ⟨blk', hblk'⟩ := Option.ne_none_iff_exists'.mp hlive
      obtain ⟨k, hbk⟩ := hA.owned b blk' hblk'
      have hk : k ∉ K := fun hk => hnot (Set.mem_iUnion₂.mpr ⟨k, hk, hbk⟩)
      exact ⟨k, hframe k hk ▸ hbk⟩

/-- **Frame**: an operation on the strings `K` that shifts their blocks keeps
the invariant. -/
theorem Inv.change (hI : m.Inv) (K : Set Nat) (hout : ∀ k, k ∉ K → m'.strs k = m.strs k)
    (hgood : ∀ k s, k ∈ K → m'.strs k = some s → s.Good k m'.heap)
    (hunique : ∀ k l b, k ∈ K → l ∈ K → b ∈ m'.ownAt k → b ∈ m'.ownAt l → k = l)
    (hshift : Shift (⋃ k ∈ K, m.ownAt k) (⋃ k ∈ K, m'.ownAt k) m.heap m'.heap) : m'.Inv := by
  have hA :=
    hI.apart.change K hout (fun k b hk => live_of_good fun s hs => hgood k s hk hs) hunique hshift
  refine ⟨hshift.wf hI.wf, fun k s hk => ?_, hA.unique, hA.owned⟩
  by_cases hK : k ∈ K
  · exact hgood k s hK hk
  · rw [hout k hK] at hk
    refine (hI.good k s hk).shift hshift fun b hb => hI.apart.outside hK ?_
    rw [ownAt_some hk]
    exact hb

/-- The case of one string. -/
theorem Inv.change_one {os : Option Str} {h : Heap} (hI : m.Inv)
    (hgood : ∀ s, os = some s → s.Good i h)
    (hshift : Shift (m.ownAt i) {b | ∃ s, os = some s ∧ b ∈ own s} m.heap h) :
    Inv ⟨Function.update m.strs i os, h⟩ := by
  refine hI.change {i} (fun k hk => Function.update_of_ne hk _ _) ?_ ?_ ?_
  · rintro k s rfl hk
    exact hgood s (by simpa using hk)
  · rintro k l b rfl rfl - -
    rfl
  · simpa [ownAt] using hshift

/-- What an operation on string `i` comes to. -/
structure Put (m : Mach) (i n : Nat) (m' : Mach) : Prop where
  inv : m'.Inv
  size : ∃ s, m'.strs i = some s ∧ s.size = n
  other : ∀ k, k ≠ i → m'.strs k = m.strs k

/-- A string that owns what it may takes its place among the others. -/
theorem put_inv {n : Nat} {r : Str × Heap} (hI : m.Inv) (hr : Str.Done i (m.ownAt i) m.heap n r) :
    Put m i n (m.put i r) := by
  refine ⟨hI.change_one ?_ ?_, ⟨r.1, by simp [put], hr.size⟩,
    fun k hk => Function.update_of_ne hk _ _⟩
  · rintro s hs
    exact Option.some.inj hs ▸ hr.good
  · simpa using hr.shift

/-- A constructor makes one more string. -/
theorem make_safe {n : Nat} {f : Heap → Except Stop (Str × Heap)} (hI : m.Inv)
    (hi : m.strs i = none)
    (hf : Safe (f m.heap) (Str.Done i ∅ m.heap n)) : Safe (m.make i f) (Put m i n) :=
  Post.bind hf fun r hr => Post.pure (put_inv hI (by rw [ownAt_none hi]; exact hr))

/-- A live string is found. -/
theorem get_eq (hs : m.strs i = some s) : m.get i = .ok s := by
  simp [get, hs]

/-- A member works on one string. -/
theorem apply_safe {n : Nat} {f : Str → Heap → Except Stop (Str × Heap)} (hI : m.Inv)
    (hs : m.strs i = some s)
    (hf : Safe (f s m.heap) (Str.Done i (own s) m.heap n)) : Safe (m.apply i f) (Put m i n) := by
  simp only [apply, get_eq hs]
  exact Post.pure_bind
    (Post.bind hf fun r hr => Post.pure (put_inv hI (by rw [ownAt_some hs]; exact hr)))

/-! ## destruction and moves -/

/-- A destructor gives the block up, and the others keep theirs. -/
theorem dtor_safe (hI : m.Inv) (hs : m.strs i = some s) :
    Safe (m.dtor i) fun m' => m'.Inv ∧ m'.strs i = none ∧ ∀ k, k ≠ i → m'.strs k = m.strs k := by
  obtain ⟨blk, hroom, -⟩ := (hI.good i s hs).room
  simp only [dtor, get_eq hs]
  refine Post.pure_bind (Post.bind (Str.release_safe hroom) fun h hfree => Post.pure ⟨?_, ?_, ?_⟩)
  · refine hI.change_one nofun ?_
    rw [ownAt_some hs]
    simpa using hfree
  · simp
  · exact fun k hk => Function.update_of_ne hk _ _

/-- The case of a string that takes over what it owns from another. -/
theorem Inv.change_two {s' t' : Str} {h : Heap} (hI : m.Inv) (hij : i ≠ j) (hs' : s'.Good i h)
    (ht' : t'.Good j h)
    (hempty : own t' = ∅) (hshift : Shift (m.ownAt i ∪ m.ownAt j) (own s') m.heap h) :
    Inv ⟨Function.update (Function.update m.strs i (some s')) j (some t'), h⟩ := by
  have hi : Function.update (Function.update m.strs i (some s')) j (some t') i = some s' := by
    simp [Function.update_of_ne hij]
  have hj : Function.update (Function.update m.strs i (some s')) j (some t') j = some t' := by
    simp
  have howni : ownAt ⟨Function.update (Function.update m.strs i (some s')) j (some t'), h⟩ i =
    own s' := ownAt_some hi
  have hownj : ownAt ⟨Function.update (Function.update m.strs i (some s')) j (some t'), h⟩ j = ∅ :=
    (ownAt_some hj).trans hempty
  refine hI.change {i, j} ?_ ?_ ?_ ?_
  · intro k hk
    simp only [Set.mem_insert_iff, Set.mem_singleton_iff, not_or] at hk
    exact (Function.update_of_ne hk.2 _ _).trans (Function.update_of_ne hk.1 _ _)
  · rintro k s (rfl | rfl) hk
    · exact Option.some.inj (hi.symm.trans hk) ▸ hs'
    · exact Option.some.inj (hj.symm.trans hk) ▸ ht'
  · rintro k l b (rfl | rfl) (rfl | rfl) hbk hbl
    · rfl
    · rw [hownj] at hbl
      contradiction
    · rw [hownj] at hbk
      contradiction
    · rfl
  · rw [Set.biUnion_pair, Set.biUnion_pair, howni, hownj, Set.union_empty]
    exact hshift

/-- What a move comes to. -/
structure Moved (m : Mach) (i j : Nat) (m' : Mach) : Prop where
  inv : m'.Inv
  target : ∃ s, m'.strs i = some s
  source : ∃ t, m'.strs j = some t
  other : ∀ k, k ≠ i → k ≠ j → m'.strs k = m.strs k

/-- Two strings after a move between them. -/
theorem moved {s' t' : Str} {h : Heap} (hij : i ≠ j)
    (hI : Inv ⟨Function.update (Function.update m.strs i (some s')) j (some t'), h⟩) :
    Moved m i j ⟨Function.update (Function.update m.strs i (some s')) j (some t'), h⟩ where
  inv := hI
  target := ⟨s', by simp [Function.update_of_ne hij]⟩
  source := ⟨t', by simp⟩
  other _ hi hj := (Function.update_of_ne hj _ _).trans (Function.update_of_ne hi _ _)

/-- The moved string hands over its block and is empty. -/
theorem moveCtor_safe (hI : m.Inv) (hi : m.strs i = none) (ht : m.strs j = some t) :
    Safe (m.moveCtor E i j) (Moved m i j) := by
  have hij : i ≠ j := by
    rintro rfl
    simp [hi] at ht
  simp only [moveCtor, get_eq ht]
  refine Post.pure_bind
    (Post.bind (Str.moveFrom_safe (hI.good j t ht)) fun r hr => Post.pure (moved hij ?_))
  obtain ⟨hs', hown, -, ht', hempty⟩ := hr
  refine hI.change_two hij hs' ht' hempty ?_
  rw [ownAt_none hi, ownAt_some ht, hown, Set.empty_union]
  exact Shift.refl _ _

/-- The target gives its block up and takes that of the source, or both are one string. -/
theorem moveAssign_safe (hI : m.Inv) (hs : m.strs i = some s) (ht : m.strs j = some t) :
    Safe (m.moveAssign i j) (Moved m i j) := by
  unfold moveAssign
  split
  · next hij =>
      subst hij
      exact Post.pure ⟨hI, ⟨s, hs⟩, ⟨s, hs⟩, fun _ _ _ => rfl⟩
  · next hij =>
      obtain ⟨blk, hroom, -⟩ := (hI.good i s hs).room
      rw [get_eq hs, get_eq ht]
      refine Post.pure_bind (Post.pure_bind (Post.bind (Str.release_safe hroom) fun h hfree => ?_))
      have ht₁ := (hI.good j t ht).shift hfree (hI.disjoint hs ht hij)
      refine Post.bind (Str.moveFrom_safe ht₁) fun r hr => Post.pure (moved hij ?_)
      obtain ⟨hs', hown, -, ht', hempty⟩ := hr
      refine hI.change_two hij hs' ht' hempty ?_
      have hshift := hfree.frame (own t)
      rw [Set.empty_union] at hshift
      rw [ownAt_some hs, ownAt_some ht, hown]
      exact hshift

/-! ## operations through other strings -/

/-- Assignment, self-assignment included. -/
theorem copyAssign_safe (hI : m.Inv) (hs : m.strs i = some s) (ht : m.strs j = some t) :
    Safe (m.copyAssign E i j) Inv := by
  unfold copyAssign
  split
  · exact Post.pure hI
  · next hij =>
      rw [get_eq ht]
      have hdone := Str.copyAssign_safe (E := E) hI.wf (hI.good i s hs) (hI.good j t ht)
        (hI.disjoint hs ht hij)
      exact Post.pure_bind (Post.mono (apply_safe hI hs hdone) fun m' hm' => hm'.inv)

/-- `insert` of another string of the program. -/
theorem insertStr_safe {pos : Nat} (hI : m.Inv) (hij : i ≠ j) (hs : m.strs i = some s)
    (ht : m.strs j = some t)
    (hmax : s.size + t.size < maxSize) :
    Safe (m.insertStr E i pos j) (Put m i (s.size + t.size)) := by
  simp only [insertStr, get_eq ht]
  exact Post.pure_bind (apply_safe hI hs
    (Str.insertStr_safe hI.wf (hI.good i s hs) (hI.good j t ht) (hI.disjoint hs ht hij) hmax))

/-- A temporary is made from a C string. -/
theorem ctorCstr_safe {cs : Option (List (BitVec 8))} (hI : m.Inv) (hi : m.strs i = none)
    (hmax : (Str.text cs).length < maxSize) :
    Safe (m.ctorCstr E i cs) (Put m i (Str.text cs).length) :=
  make_safe hI hi (Str.ctorCstr_safe hI.wf hmax)

/-- `erase` on a string of the program. -/
theorem erase_safe {pos count : Nat} (hI : m.Inv) (hs : m.strs i = some s)
    (hcount : count = npos ∨ pos + count < 2 ^ 32) :
    Safe (m.erase i pos count) (Put m i (s.erased pos count)) :=
  apply_safe hI hs (Str.erase_safe (hI.good i s hs) hcount)

/-- `insert` of a C string goes through a temporary, which is destroyed. -/
theorem insertCstr_safe {pos : Nat} {cs : Option (List (BitVec 8))} (hI : m.Inv)
    (hk : m.strs k = none)
    (hs : m.strs i = some s) (hmax : s.size + (Str.text cs).length < maxSize) :
    Safe (m.insertCstr E i pos cs k) Inv := by
  have hik : i ≠ k := by
    rintro rfl
    simp [hk] at hs
  unfold insertCstr
  refine Post.bind (ctorCstr_safe hI hk (by omega)) fun m₁ h₁ => ?_
  obtain ⟨t, ht, hsize⟩ := h₁.size
  refine Post.bind (insertStr_safe h₁.inv hik ((h₁.other i hik).trans hs) ht (by omega))
    fun m₂ h₂ => ?_
  exact Post.mono (dtor_safe h₂.inv ((h₂.other k hik.symm).trans ht)) fun m₃ h₃ => h₃.1

/-- `replace` by another string of the program. -/
theorem replaceStr_safe {pos count : Nat} (hI : m.Inv) (hij : i ≠ j) (hs : m.strs i = some s)
    (ht : m.strs j = some t)
    (hcount : count = npos ∨ pos + count < 2 ^ 32) (hmax : s.erased pos count + t.size < maxSize) :
    Safe (m.replaceStr E i pos count j) (Put m i (s.erased pos count + t.size)) := by
  unfold replaceStr
  refine Post.bind (erase_safe hI hs hcount) fun m₁ h₁ => ?_
  obtain ⟨s₁, hs₁, hsize⟩ := h₁.size
  have ht₁ := (h₁.other j hij.symm).trans ht
  refine Post.mono (insertStr_safe h₁.inv hij hs₁ ht₁ (by omega)) fun m₂ h₂ => ⟨h₂.inv, ?_, ?_⟩
  · rw [← hsize]
    exact h₂.size
  · exact fun k hk => (h₂.other k hk).trans (h₁.other k hk)

/-! ## runs -/

/-- A position and a count whose sum does not wrap. -/
def NoWrap (pos count : Nat) : Prop := count = npos ∨ pos + count < 2 ^ 32

/-- The operations that a program may do: on live strings, with arguments outside
the target, and with a result that is shorter than `max_size()`. -/
def Allowed (m : Mach) : Op → Prop
  | .ctor i => m.strs i = none
  | .ctorCstr i cs => m.strs i = none ∧ (Str.text cs).length < maxSize
  | .ctorBuf i bs => m.strs i = none ∧ (bs.getD []).length < maxSize
  | .ctorFill i n _ => m.strs i = none ∧ n < maxSize
  | .copyCtor i j | .moveCtor i j => m.strs i = none ∧ ∃ t, m.strs j = some t
  | .dtor i | .shrinkToFit i | .clear i | .popBack i => ∃ s, m.strs i = some s
  | .copyAssign i j | .moveAssign i j => ∃ s t, m.strs i = some s ∧ m.strs j = some t
  | .assignCstr i cs => (∃ s, m.strs i = some s) ∧ (Str.text cs).length < maxSize
  | .reserve i newCap => (∃ s, m.strs i = some s) ∧ newCap ≤ npos
  | .insertStr i _ j | .append i j =>
      i ≠ j ∧ ∃ s t, m.strs i = some s ∧ m.strs j = some t ∧ s.size + t.size < maxSize
  | .insertCstr i _ cs tmp | .appendCstr i cs tmp =>
      m.strs tmp = none ∧ ∃ s, m.strs i = some s ∧ s.size + (Str.text cs).length < maxSize
  | .insertFill i _ n _ => ∃ s, m.strs i = some s ∧ s.size + n < maxSize
  | .erase i pos count => (∃ s, m.strs i = some s) ∧ NoWrap pos count
  | .pushBack i _ => ∃ s, m.strs i = some s ∧ s.size + 1 < maxSize
  | .resize i n _ => (∃ s, m.strs i = some s) ∧ n < maxSize
  | .swap i j tmp => m.strs tmp = none ∧ ∃ s t, m.strs i = some s ∧ m.strs j = some t
  | .replaceStr i pos count j =>
      i ≠ j ∧ NoWrap pos count ∧ ∃ s t, m.strs i = some s ∧ m.strs j = some t ∧
        s.erased pos count + t.size < maxSize
  | .replaceCstr i pos count cs tmp =>
      m.strs tmp = none ∧ NoWrap pos count ∧
        ∃ s, m.strs i = some s ∧ s.erased pos count + (Str.text cs).length < maxSize
  | .replaceBuf i pos count bs =>
      NoWrap pos count ∧
        ∃ s, m.strs i = some s ∧ s.size - s.cut (min pos s.size) count +
          (bs.getD []).length < maxSize

/-- `swap` is three moves through a temporary. -/
theorem swap_safe (hI : m.Inv) (hk : m.strs k = none) (hs : m.strs i = some s)
    (ht : m.strs j = some t) :
    Safe (m.exec E (.swap i j k)) Inv := by
  have hik : i ≠ k := by
    rintro rfl
    simp [hk] at hs
  have hjk : j ≠ k := by
    rintro rfl
    simp [hk] at ht
  simp only [exec]
  refine Post.bind (moveCtor_safe hI hk hs) fun m₁ h₁ => ?_
  obtain ⟨s₁, hs₁⟩ := h₁.source
  obtain ⟨t₁, ht₁⟩ : ∃ t₁, m₁.strs j = some t₁ := by
    by_cases hij : j = i
    · exact hij ▸ h₁.source
    · exact ⟨t, (h₁.other j hjk hij).trans ht⟩
  refine Post.bind (moveAssign_safe h₁.inv hs₁ ht₁) fun m₂ h₂ => ?_
  obtain ⟨t₂, ht₂⟩ := h₂.source
  obtain ⟨u, hu⟩ := h₁.target
  have hu₂ := (h₂.other k hik.symm hjk.symm).trans hu
  refine Post.bind (moveAssign_safe h₂.inv ht₂ hu₂) fun m₃ h₃ => ?_
  obtain ⟨u₃, hu₃⟩ := h₃.source
  exact Post.mono (dtor_safe h₃.inv hu₃) fun m₄ h₄ => h₄.1

/-- `replace` by a C string goes through a temporary, which is destroyed. -/
theorem replaceCstr_safe {pos count : Nat} {cs : Option (List (BitVec 8))} (hI : m.Inv)
    (hk : m.strs k = none)
    (hs : m.strs i = some s) (hcount : NoWrap pos count)
    (hmax : s.erased pos count + (Str.text cs).length < maxSize) :
    Safe (m.exec E (.replaceCstr i pos count cs k)) Inv := by
  have hik : i ≠ k := by
    rintro rfl
    simp [hk] at hs
  simp only [exec]
  refine Post.bind (ctorCstr_safe hI hk (by omega)) fun m₁ h₁ => ?_
  obtain ⟨t, ht, hsize⟩ := h₁.size
  have hs₁ := (h₁.other i hik).trans hs
  refine Post.bind (replaceStr_safe h₁.inv hik hs₁ ht hcount (by omega)) fun m₂ h₂ => ?_
  exact Post.mono (dtor_safe h₂.inv ((h₂.other k hik.symm).trans ht)) fun m₃ h₃ => h₃.1

/-- Every allowed operation keeps the invariant, or halts. -/
theorem exec_safe {op : Op} (hI : m.Inv) (hop : m.Allowed op) : Safe (m.exec E op) Inv := by
  have hput : ∀ {i n} {x : Except Stop Mach}, Safe x (Put m i n) → Safe x Inv :=
    fun hx => Post.mono hx fun _ h => h.inv
  cases op with
  | ctor i =>
      have hdone := Str.ctor_safe (E := E) (i := i) m.heap
      simp only [exec]
      exact hput (make_safe hI hop hdone)
  | ctorCstr i cs => exact hput (ctorCstr_safe hI hop.1 hop.2)
  | ctorBuf i bs =>
      have hdone := Str.ctorBuf_safe (E := E) (i := i) hI.wf hop.2
      simp only [exec]
      exact hput (make_safe hI hop.1 hdone)
  | ctorFill i n ch =>
      have hdone := Str.ctorFill_safe (E := E) (i := i) hI.wf hop.2 ch
      simp only [exec]
      exact hput (make_safe hI hop.1 hdone)
  | copyCtor i j =>
      obtain ⟨hi, t, ht⟩ := hop
      simp only [exec, get_eq ht]
      exact Post.pure_bind (hput (make_safe hI hi (Str.copyCtor_safe hI.wf (hI.good j t ht))))
  | moveCtor i j =>
      obtain ⟨hi, t, ht⟩ := hop
      exact Post.mono (moveCtor_safe hI hi ht) fun _ h => h.inv
  | dtor i =>
      obtain ⟨s, hs⟩ := hop
      exact Post.mono (dtor_safe hI hs) fun _ h => h.1
  | copyAssign i j =>
      obtain ⟨s, t, hs, ht⟩ := hop
      exact copyAssign_safe hI hs ht
  | moveAssign i j =>
      obtain ⟨s, t, hs, ht⟩ := hop
      exact Post.mono (moveAssign_safe hI hs ht) fun _ h => h.inv
  | assignCstr i cs =>
      obtain ⟨⟨s, hs⟩, hmax⟩ := hop
      have hdone := Str.assignCstr_safe (E := E) hI.wf (hI.good i s hs) hmax
      simp only [exec]
      exact hput (apply_safe hI hs hdone)
  | reserve i newCap =>
      obtain ⟨⟨s, hs⟩, hcap⟩ := hop
      have hdone := Str.reserve_safe (E := E) hI.wf (hI.good i s hs) (Nat.lt_succ_of_le hcap)
      simp only [exec]
      exact hput (apply_safe hI hs hdone)
  | shrinkToFit i =>
      obtain ⟨s, hs⟩ := hop
      have hdone := Str.shrinkToFit_safe (E := E) hI.wf (hI.good i s hs)
      simp only [exec]
      exact hput (apply_safe hI hs hdone)
  | clear i =>
      obtain ⟨s, hs⟩ := hop
      have hdone := Str.clear_safe (hI.good i s hs)
      simp only [exec]
      exact hput (apply_safe hI hs hdone)
  | popBack i =>
      obtain ⟨s, hs⟩ := hop
      have hdone := Str.popBack_safe (hI.good i s hs)
      simp only [exec]
      exact hput (apply_safe hI hs hdone)
  | insertStr i pos j =>
      obtain ⟨hij, s, t, hs, ht, hmax⟩ := hop
      exact hput (insertStr_safe hI hij hs ht hmax)
  | insertCstr i pos cs tmp =>
      obtain ⟨hk, s, hs, hmax⟩ := hop
      exact insertCstr_safe hI hk hs hmax
  | insertFill i pos n ch =>
      obtain ⟨s, hs, hmax⟩ := hop
      have hdone := Str.insertFill_safe (E := E) hI.wf (hI.good i s hs) hmax pos ch
      simp only [exec]
      exact hput (apply_safe hI hs hdone)
  | erase i pos count =>
      obtain ⟨⟨s, hs⟩, hcount⟩ := hop
      exact hput (erase_safe hI hs hcount)
  | pushBack i ch =>
      obtain ⟨s, hs, hmax⟩ := hop
      have hdone := Str.pushBack_safe (E := E) hI.wf (hI.good i s hs) hmax ch
      simp only [exec]
      exact hput (apply_safe hI hs hdone)
  | append i j =>
      obtain ⟨hij, s, t, hs, ht, hmax⟩ := hop
      simp only [exec, get_eq hs]
      exact Post.pure_bind (hput (insertStr_safe hI hij hs ht hmax))
  | appendCstr i cs tmp =>
      obtain ⟨hk, s, hs, hmax⟩ := hop
      simp only [exec, get_eq hs]
      exact Post.pure_bind (insertCstr_safe hI hk hs hmax)
  | resize i n ch =>
      obtain ⟨⟨s, hs⟩, hmax⟩ := hop
      have hdone := Str.resize_safe (E := E) hI.wf (hI.good i s hs) hmax ch
      simp only [exec]
      exact hput (apply_safe hI hs hdone)
  | swap i j tmp =>
      obtain ⟨hk, s, t, hs, ht⟩ := hop
      exact swap_safe hI hk hs ht
  | replaceStr i pos count j =>
      obtain ⟨hij, hcount, s, t, hs, ht, hmax⟩ := hop
      exact hput (replaceStr_safe hI hij hs ht hcount hmax)
  | replaceCstr i pos count cs tmp =>
      obtain ⟨hk, hcount, s, hs, hmax⟩ := hop
      exact replaceCstr_safe hI hk hs hcount hmax
  | replaceBuf i pos count bs =>
      obtain ⟨hcount, s, hs, hmax⟩ := hop
      have hdone := Str.replaceBuf_safe (E := E) hI.wf (hI.good i s hs) hcount hmax
      simp only [exec]
      exact hput (apply_safe hI hs hdone)

/-- Every run keeps the invariant. -/
theorem Inv.reach {tr : List Op} (hrun : Reach (Mach.exec E) Allowed Mach.empty tr m) : m.Inv :=
  hrun.inv Inv.empty fun _ _ _ hI hop hx => (exec_safe hI hop).of_eq hx

/-- No block is freed twice. -/
theorem Inv.frees_le (hI : m.Inv) (b : Nat) : m.heap.frees b ≤ 1 := by
  rcases Nat.lt_or_ge b m.heap.next with hlt | hge
  · cases hb : m.heap.block b with
    | none => exact (hI.wf.freed b hlt hb).le
    | some blk => exact (hI.wf.live b blk hb).le.trans (Nat.zero_le 1)
  · exact (hI.wf.fresh b hge).2.le.trans (Nat.zero_le 1)

/-- Without strings there is no live block. -/
theorem Inv.all_freed (hI : m.Inv) (hnone : ∀ i, m.strs i = none) (b : Nat) (hb : b < m.heap.next) :
    m.heap.frees b = 1 := by
  refine hI.wf.freed b hb ?_
  by_contra hlive
  obtain ⟨blk, hblk⟩ := Option.ne_none_iff_exists'.mp hlive
  obtain ⟨i, hi⟩ := hI.owned b blk hblk
  rw [ownAt_none (hnone i)] at hi
  contradiction

end Mach

/-- **Strings keep their representation**: after every sequence of operations
each string is in its own small buffer or in a block of its own that is large
enough, with a terminator behind its last character; no further operation
writes outside a buffer or frees what is not live; no block is freed twice; and
when all strings are destroyed every block has been freed. -/
theorem string_invariant (E : Env) (tr : List Op) (m : Mach)
    (hrun : Reach (Mach.exec E) Mach.Allowed Mach.empty tr m) :
    (∀ i s, m.strs i = some s → s.size ≤ s.cap i ∧
      (∃ blk, s.buffer i m.heap = some blk ∧ s.cap i + 1 ≤ blk.size ∧ blk.byte s.size = 0) ∧
      (s.data = .sso i ∨ ∃ b, s.data = .heap b ∧ ∀ j t, m.strs j = some t →
        t.data = .heap b → j = i)) ∧
    (∀ op, m.Allowed op → m.exec E op ≠ .error .overrun ∧ m.exec E op ≠ .error .badFree) ∧
    (∀ b, m.heap.frees b ≤ 1) ∧
    ((∀ i, m.strs i = none) → ∀ b < m.heap.next, m.heap.frees b = 1) := by
  have hI := Mach.Inv.reach hrun
  refine ⟨fun i s hs => ?_, fun op hop => ?_, hI.frees_le, hI.all_freed⟩
  · have hg := hI.good i s hs
    obtain ⟨blk, ⟨hbuf, hcap⟩, hnul⟩ := hg.room
    refine ⟨hg.size_le, ⟨blk, hbuf, hcap, hnul⟩, ?_⟩
    by_cases hsso : s.isSSO i = true
    · exact .inl (Str.isSSO_iff.mp hsso)
    · obtain ⟨b, hb, -⟩ := Str.Room.heap ⟨hbuf, hcap⟩ hsso
      exact .inr ⟨b, hb, fun j t ht htb => hI.unique j i b ⟨t, ht, htb⟩ ⟨s, hs, hb⟩⟩
  · have hsafe := Mach.exec_safe (E := E) hI hop
    constructor
    · intro herr
      rw [herr] at hsafe
      nomatch hsafe
    · intro herr
      rw [herr] at hsafe
      nomatch hsafe

/-- An allocator that never fails, with garbage in new memory. -/
def grants : Env := ⟨fun _ => false, fun _ _ => 0xCC, fun _ _ => 0xCC⟩

/-- A long string is made and destroyed. -/
theorem string_invariant_fill :
    ∃ m, Reach (Mach.exec grants) Mach.Allowed Mach.empty [.ctorFill 0 30 65, .dtor 0] m ∧
      m.heap.next = 1 ∧ m.heap.frees 0 = 1 := by
  have hrun : Reach (Mach.exec grants) Mach.Allowed Mach.empty [.ctorFill 0 30 65, .dtor 0] _ :=
    .snoc (.snoc .nil ⟨rfl, by decide⟩ rfl) ⟨_, rfl⟩ rfl
  refine ⟨_, hrun, rfl, (string_invariant grants _ _ hrun).2.2.2 (fun i => ?_) 0 (by decide)⟩
  by_cases hi : i = 0
  · subst hi
    rfl
  · simp [hi, Mach.put, Mach.empty]

end Doors.Libcxx
