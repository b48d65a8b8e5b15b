import Mathlib.Data.List.Basic

/-!
# Doors.Lib.Words

The words of a list: its longest stretches without a separator.

`IsWord sep l i n` says that the `n` cells from `i` on are one; `words sep l` lists the
words by place and length.

* `mem_words`, `words_sorted` — the list has all words, in order;
* `wordsFrom_skip`, `wordsFrom_word` — how a scan from left to right comes to them.
-/

namespace Words

variable {α : Type} {p sep : α → Bool} {l : List α} {i j k n : Nat} {x : α}

/-- How often `while (i < l.size() && p(l[i])) ++i` counts. -/
def stretch (p : α → Bool) (l : List α) (i : Nat) : Nat := ((l.drop i).takeWhile p).length

/-- **A word**: cells without a separator, between two separators or ends. -/
structure IsWord (sep : α → Bool) (l : List α) (i n : Nat) : Prop where
  pos : 0 < n
  inside : ∀ k, k < n → ∃ x, l[i + k]? = some x ∧ sep x = false
  left : ∀ k x, k + 1 = i → l[k]? = some x → sep x = true
  right : ∀ x, l[i + n]? = some x → sep x = true

/-- Whether a word begins at `i`. -/
def starts (sep : α → Bool) (l : List α) (i : Nat) : Bool :=
  l[i]?.any (fun x => !sep x) && (i = 0 || l[i - 1]?.all sep)

/-- The words that begin at `i` or later. -/
def wordsFrom (sep : α → Bool) (l : List α) (i : Nat) : List (Nat × Nat) :=
  ((List.range' i (l.length - i)).filter (starts sep l)).map fun k =>
    (k, stretch (fun x => !sep x) l k)

/-- All words, each with its place and its length. -/
def words (sep : α → Bool) (l : List α) : List (Nat × Nat) := wordsFrom sep l 0

/-! ## stretches -/

/-- Where `takeWhile` ends. -/
theorem takeWhile_spec (p : α → Bool) (m : List α) :
    (∀ k, k < (m.takeWhile p).length → ∃ x, m[k]? = some x ∧ p x = true) ∧ ∀ x,
      m[(m.takeWhile p).length]? = some x → p x = false := by
  induction m with
  | nil => exact ⟨fun k hk => absurd hk (Nat.not_lt_zero k), fun x hx => by simp at hx⟩
  | cons y m ih =>
    rw [List.takeWhile_cons]
    split
    · next hy =>
      refine ⟨fun k hk => ?_, fun x hx => ih.2 x hx⟩
      cases k with
      | zero => exact ⟨y, rfl, hy⟩
      | succ k => exact ih.1 k (Nat.lt_of_succ_lt_succ hk)
    · next hy =>
      refine ⟨fun k hk => absurd hk (Nat.not_lt_zero k), fun x hx => ?_⟩
      obtain rfl := Option.some.inj hx
      exact Bool.eq_false_iff.mpr hy

/-- Inside a stretch the test holds. -/
theorem stretch_mem (hk : k < stretch p l i) : ∃ x, l[i + k]? = some x ∧ p x = true := by
  obtain ⟨x, hx, hp⟩ := (takeWhile_spec p (l.drop i)).1 k hk
  rw [List.getElem?_drop] at hx
  exact ⟨x, hx, hp⟩

/-- Behind a stretch it does not. -/
theorem stretch_end (hx : l[i + stretch p l i]? = some x) : p x = false :=
  (takeWhile_spec p (l.drop i)).2 x (by rw [List.getElem?_drop]; exact hx)

/-- There is one length with these ends. -/
theorem stretch_unique (hin : ∀ k, k < n → ∃ x, l[i + k]? = some x ∧ p x = true)
    (hend : ∀ x, l[i + n]? = some x → p x = false) :
    stretch p l i = n := by
  rcases Nat.lt_trichotomy (stretch p l i) n with hlt | heq | hgt
  · obtain ⟨x, hx, hp⟩ := hin _ hlt
    exact absurd hp (by simp [stretch_end hx])
  · exact heq
  · obtain ⟨x, hx, hp⟩ := stretch_mem hgt
    exact absurd hp (by simp [hend x hx])

/-! ## where words begin -/

/-- A word begins at a cell that is no separator, at the start or behind one. -/
theorem starts_iff : starts sep l i = true ↔ (∃ x, l[i]? = some x ∧ sep x = false) ∧ ∀ k x,
    k + 1 = i → l[k]? = some x → sep x = true := by
  unfold starts
  rw [Bool.and_eq_true, Bool.or_eq_true, Option.any_eq_true, Option.all_eq_true]
  simp only [decide_eq_true_eq, Bool.not_eq_true']
  refine and_congr Iff.rfl ?_
  cases i with
  | zero => exact ⟨fun _ k x hk _ => absurd hk (Nat.succ_ne_zero k), fun _ => .inl rfl⟩
  | succ i =>
    refine ⟨fun h k x hk hx => ?_, fun h => .inr fun x hx => h i x rfl hx⟩
    obtain rfl := Nat.succ.inj hk
    exact h.resolve_left (Nat.succ_ne_zero k) x hx

/-- A word begins where it is. -/
theorem IsWord.starts (h : IsWord sep l i n) : starts sep l i = true :=
  starts_iff.mpr ⟨h.inside 0 h.pos, h.left⟩

/-- A word is as long as the stretch. -/
theorem IsWord.length_eq (h : IsWord sep l i n) : stretch (fun x => !sep x) l i = n := by
  refine stretch_unique (fun k hk => ?_) fun x hx => ?_
  · obtain ⟨x, hx, hsep⟩ := h.inside k hk
    exact ⟨x, hx, by simp [hsep]⟩
  · simp [h.right x hx]

/-- Where a word begins, there is one. -/
theorem isWord_of_starts (h : Words.starts sep l i = true) :
    IsWord sep l i (stretch (fun x => !sep x) l i) := by
  obtain ⟨⟨x, hx, hsep⟩, hleft⟩ := starts_iff.mp h
  refine ⟨Nat.pos_of_ne_zero fun hzero => ?_, fun k hk => ?_, hleft, fun y hy => ?_⟩
  · have hend := stretch_end (p := fun x => !sep x) (l := l) (i := i) (x := x)
      (by rw [hzero]; exact hx)
    simp [hsep] at hend
  · obtain ⟨y, hy, hnot⟩ := stretch_mem hk
    exact ⟨y, hy, by simpa using hnot⟩
  · simpa using stretch_end hy

/-! ## the list of words -/

/-- The words from a place on. -/
theorem mem_wordsFrom : (k, n) ∈ wordsFrom sep l i ↔ i ≤ k ∧ IsWord sep l k n := by
  unfold wordsFrom
  simp only [List.mem_map, List.mem_filter, List.mem_range'_1, Prod.mk.injEq]
  constructor
  · rintro ⟨_, ⟨⟨hle, -⟩, hstarts⟩, rfl, rfl⟩
    exact ⟨hle, isWord_of_starts hstarts⟩
  · rintro ⟨hle, hword⟩
    obtain ⟨x, hx, -⟩ := hword.inside 0 hword.pos
    have hlt := (List.getElem?_eq_some_iff.mp hx).1
    exact ⟨k, ⟨⟨hle, by omega⟩, hword.starts⟩, rfl, hword.length_eq⟩

/-- All words are found, and only words. -/
theorem mem_words : (k, n) ∈ words sep l ↔ IsWord sep l k n :=
  mem_wordsFrom.trans (and_iff_right (Nat.zero_le k))

/-- The words come in order. -/
theorem words_sorted : (words sep l).Pairwise fun v w => v.1 < w.1 := by
  unfold words wordsFrom
  rw [List.pairwise_map]
  exact List.Pairwise.filter _ List.pairwise_lt_range'

/-! ## scanning -/

/-- No word begins behind the end. -/
theorem wordsFrom_end (h : l.length ≤ i) : wordsFrom sep l i = [] := by
  unfold wordsFrom
  rw [Nat.sub_eq_zero_of_le h]
  rfl

/-- One cell on. -/
theorem wordsFrom_step (h : i < l.length) :
    wordsFrom sep l i = if starts sep l i then (i, stretch (fun x => !sep x) l i) :: wordsFrom sep l
      (i + 1) else wordsFrom sep l (i + 1) := by
  unfold wordsFrom
  rw [show l.length - i = l.length - (i + 1) + 1 by omega, List.range'_succ, List.filter_cons]
  split <;> rfl

/-- Where no word begins. -/
theorem wordsFrom_add (h : ∀ k, k < n → starts sep l (i + k) = false) :
    wordsFrom sep l i = wordsFrom sep l (i + n) := by
  induction n with
  | zero => rfl
  | succ n ih =>
    rw [ih fun k hk => h k (by omega)]
    by_cases hlt : i + n < l.length
    · rw [wordsFrom_step hlt, h n (Nat.lt_succ_self n)]
      rfl
    · rw [wordsFrom_end (by omega), wordsFrom_end (by omega)]

/-- Separators are skipped. -/
theorem wordsFrom_skip : wordsFrom sep l i = wordsFrom sep l (i + stretch sep l i) := by
  refine wordsFrom_add fun k hk => Bool.eq_false_iff.mpr fun hstarts => ?_
  obtain ⟨x, hx, hsep⟩ := stretch_mem hk
  obtain ⟨⟨y, hy, hnot⟩, -⟩ := starts_iff.mp hstarts
  rw [hx] at hy
  obtain rfl := Option.some.inj hy
  simp [hsep] at hnot

/-- The word at `i`, and those behind it. -/
theorem wordsFrom_word (h : starts sep l i = true) :
    wordsFrom sep l i = (i, stretch (fun x => !sep x) l i) :: wordsFrom sep l
      (i + stretch (fun x => !sep x) l i) := by
  have hword := isWord_of_starts h
  obtain ⟨x, hx, -⟩ := hword.inside 0 hword.pos
  have hpos := hword.pos
  have hlt : i < l.length := (List.getElem?_eq_some_iff.mp hx).1
  rw [wordsFrom_step hlt, if_pos h]
  refine congrArg _ ?_
  obtain ⟨m, hm⟩ : ∃ m, stretch (fun x => !sep x) l i = m + 1 :=
    ⟨_, (Nat.succ_pred_eq_of_pos hpos).symm⟩
  rw [hm, show i + (m + 1) = i + 1 + m by omega]
  -- no word begins inside of a word
  refine wordsFrom_add fun k hk => Bool.eq_false_iff.mpr fun hstarts => ?_
  obtain ⟨y, hy, hnot⟩ := hword.inside k (by omega)
  have hsep := (starts_iff.mp hstarts).2 (i + k) y (by omega) hy
  simp [hsep] at hnot

end Words
