import Mathlib.Tactic.Common
import Doors.Lib.Run

/-!
# Doors.Lib.Cells

Fixed-capacity arrays with checked accesses.

An array of capacity `n` is its cell function `Nat → α`; `read` and `write`
fail with a caller-chosen error when the index is not below `n`, so that an
out-of-bounds access of the program is an outcome of the model and not a
silent default.  Over them stand the two loops that hand-written queues are
made of:

* `shiftDown` — `for (j = i; j < m; ++j) a[j] = a[j + 1]`, which deletes cell
  `i` of a prefix of length `m + 1`;
* `insertFrom` — walk down from `pos`, moving every larger element one cell
  up, which makes room for an insertion.

`toList a m` is the list of the first `m` cells.  `shiftDown_spec` and
`insert_spec` say that neither loop leaves the array and what each does to
that list.
-/

namespace Cells

open Run

variable {α ε : Type}

/-! ## checked accesses -/

/-- Overwrite one cell. -/
def set (a : Nat → α) (i : Nat) (x : α) : Nat → α := fun j => if j = i then x else a j

@[simp] theorem set_self (a : Nat → α) (i : Nat) (x : α) : set a i x i = x := by
  simp [set]

/-- The other cells stay. -/
theorem set_of_ne (a : Nat → α) {i j : Nat} (x : α) (h : j ≠ i) : set a i x j = a j := by
  simp [set, h]

/-- A write of what is there. -/
theorem set_eq_self {a : Nat → α} {i : Nat} {x : α} (h : a i = x) : set a i x = a := by
  funext j
  by_cases hj : j = i
  · rw [hj, set_self, h]
  · rw [set_of_ne _ _ hj]

/-- Checked read of cell `i` of an array of capacity `n`. -/
def read (oob : ε) (n : Nat) (a : Nat → α) (i : Nat) : Except ε α :=
  if i < n then .ok (a i) else .error oob

/-- Checked write of cell `i` of an array of capacity `n`. -/
def write (oob : ε) (n : Nat) (a : Nat → α) (i : Nat) (x : α) : Except ε (Nat → α) :=
  if i < n then .ok (set a i x) else .error oob

variable {oob : ε} {n : Nat} {a : Nat → α} {i : Nat} {x : α}

/-- A read inside. -/
theorem read_of_lt (h : i < n) : read oob n a i = .ok (a i) := if_pos h

/-- A write inside. -/
theorem write_of_lt (h : i < n) : write oob n a i x = .ok (set a i x) := if_pos h

/-! ## the prefix as a list -/

/-- The first `m` cells. -/
def toList (a : Nat → α) (m : Nat) : List α := (List.range m).map a

@[simp] theorem length_toList (a : Nat → α) (m : Nat) : (toList a m).length = m := by
  simp [toList]

@[simp] theorem getElem_toList (a : Nat → α) (m i : Nat) (h : i < (toList a m).length) :
    (toList a m)[i] = a i := by
  simp [toList]

/-- The cells of the list. -/
theorem mem_toList {m : Nat} : x ∈ toList a m ↔ ∃ i < m, a i = x := by
  simp [toList]

/-! ## deleting a cell -/

/-- `k` rounds of `a[i] = a[i + 1]; ++i`. -/
def shiftDown (oob : ε) (n : Nat) : Nat → Nat → (Nat → α) → Except ε (Nat → α)
  | 0, _, a => .ok a
  | k + 1, i, a => do
      let x ← read oob n a (i + 1)
      let a ← write oob n a i x
      shiftDown oob n k (i + 1) a

/-- The loop moves the cells `i + 1 .. i + k` down by one and stays inside an
array that has cell `i + k`. -/
theorem shiftDown_eq (k i : Nat) (a : Nat → α) (h : i + k < n) :
    shiftDown oob n k i a = .ok (fun j => if i ≤ j ∧ j < i + k then a (j + 1) else a j) := by
  induction k generalizing i a with
  | zero =>
      simp only [shiftDown]
      congr 1
      funext j
      rw [if_neg (by omega)]
  | succ k ih =>
      simp only [shiftDown, read_of_lt (show i + 1 < n by omega),
        write_of_lt (show i < n by omega), bind, Except.bind]
      rw [ih (i + 1) _ (by omega)]
      congr 1
      funext j
      simp only [set]
      grind

/-- **Deletion**: shifting the rest of a prefix of length `m + 1` down over
cell `i` deletes that cell from the list, and every access is in bounds. -/
theorem shiftDown_spec (oob : ε) (a : Nat → α) {m : Nat} (hi : i ≤ m) (hm : m < n) :
    ∃ b, shiftDown oob n (m - i) i a = .ok b ∧ toList b m = (toList a (m + 1)).eraseIdx i := by
  refine ⟨_, shiftDown_eq (m - i) i a (by omega), ?_⟩
  apply List.ext_getElem
  · rw [List.length_eraseIdx]
    simp
    omega
  · intro j h1 h2
    rw [List.getElem_eraseIdx]
    simp only [getElem_toList, length_toList] at h1 ⊢
    split
    · rw [dif_neg (by omega)]
    · rw [dif_pos (by omega)]

/-! ## failures -/

/-- A read fails by its bound only. -/
theorem read_error {e : ε} (h : read oob n a i = .error e) : e = oob := by
  unfold read at h
  split at h
  · contradiction
  · exact (Except.error.inj h).symm

/-- A write fails by its bound only. -/
theorem write_error {e : ε} (h : write oob n a i x = .error e) : e = oob := by
  unfold write at h
  split at h
  · contradiction
  · exact (Except.error.inj h).symm

/-- The loop fails with the caller's error only. -/
theorem shiftDown_error {e : ε} (k i : Nat) (a : Nat → α) (h : shiftDown oob n k i a = .error e) :
    e = oob := by
  induction k generalizing i a with
  | zero => contradiction
  | succ k ih =>
      simp only [shiftDown, bind_eq_error] at h
      rcases h with h | ⟨x, _, h | ⟨b, _, h⟩⟩
      · exact read_error h
      · exact write_error h
      · exact ih _ _ h

/-! ## making room for an insertion -/

/-- Walk down from `pos` while the cell below is `big`, moving it one cell
up.  Returns the position the walk stopped at. -/
def insertFrom (oob : ε) (n : Nat) (big : α → Bool) : Nat → (Nat → α) →
    Except ε (Nat × (Nat → α))
  | 0, a => .ok (0, a)
  | pos + 1, a => do
      let x ← read oob n a pos
      if big x then do
        let a ← write oob n a (pos + 1) x
        insertFrom oob n big pos a
      else .ok (pos + 1, a)

/-- The walk fails with the caller's error only. -/
theorem insertFrom_error {e : ε} (big : α → Bool) (pos : Nat) (a : Nat → α)
    (h : insertFrom oob n big pos a = .error e) : e = oob := by
  induction pos generalizing a with
  | zero => contradiction
  | succ pos ih =>
      simp only [insertFrom, bind_eq_error] at h
      rcases h with h | ⟨x, _, h⟩
      · exact read_error h
      · split at h
        · rw [bind_eq_error] at h
          rcases h with h | ⟨b, _, h⟩
          · exact write_error h
          · exact ih b h
        · contradiction

/-- **Room**: the walk stays inside an array that has cell `m`, stops at a
position `p` right above a cell that is not `big`, and has moved exactly the
cells `p .. m - 1`, all of them `big`, up by one. -/
theorem insertFrom_spec (oob : ε) (big : α → Bool) (m : Nat) (a : Nat → α) (hm : m < n) :
    ∃ p b, insertFrom oob n big m a = .ok (p, b) ∧ p ≤ m ∧
      (∀ j, p ≤ j → j < m → big (a j) = true) ∧
      (0 < p → big (a (p - 1)) = false) ∧
      (∀ j < p, b j = a j) ∧ (∀ j, p ≤ j → j < m → b (j + 1) = a j) ∧
      (∀ j, m < j → b j = a j) := by
  induction m generalizing a with
  | zero => exact ⟨0, a, rfl, by omega, by omega, by omega, by omega, by omega, by simp⟩
  | succ m ih =>
      simp only [insertFrom, read_of_lt (show m < n by omega), bind, Except.bind]
      by_cases hb : big (a m) = true
      · simp only [hb, if_true, write_of_lt hm]
        obtain ⟨p, b, hrun, hp, hbig, hstop, hlow, hmid, hhigh⟩ :=
          ih (set a (m + 1) (a m)) (by omega)
        have hsame : ∀ j, j ≠ m + 1 → set a (m + 1) (a m) j = a j := fun j hj => set_of_ne a _ hj
        refine ⟨p, b, hrun, by omega, ?_, ?_, ?_, ?_, ?_⟩
        · intro j h1 h2
          by_cases hj : j = m
          · exact hj ▸ hb
          · have := hbig j h1 (by omega)
            rwa [hsame j (by omega)] at this
        · intro h0
          have := hstop h0
          rwa [hsame _ (by omega)] at this
        · intro j hj
          rw [hlow j hj, hsame j (by omega)]
        · intro j h1 h2
          by_cases hj : j = m
          · subst hj
            rw [hhigh (j + 1) (by omega), set_self]
          · rw [hmid j h1 (by omega), hsame j (by omega)]
        · intro j hj
          rw [hhigh j (by omega), hsame j (by omega)]
      · simp only [hb]
        refine ⟨m + 1, a, rfl, by omega, by omega, ?_, by simp, by omega, by simp⟩
        intro _
        simpa using hb

/-- **Insertion**: the walk and the write that follows it put `x` at a
position `p` of the list, in front of `big` elements only and right behind an
element that is not `big`. -/
theorem insert_spec (oob : ε) (big : α → Bool) (m : Nat) (a : Nat → α) (x : α) (hm : m < n) :
    ∃ p b c, insertFrom oob n big m a = .ok (p, b) ∧ write oob n b p x = .ok c ∧ p ≤ m ∧
      toList c (m + 1) = (toList a m).take p ++ x :: (toList a m).drop p ∧
      (∀ j, p ≤ j → j < m → big (a j) = true) ∧ (0 < p → big (a (p - 1)) = false) := by
  obtain ⟨p, b, hrun, hp, hbig, hstop, hlow, hmid, _⟩ := insertFrom_spec oob big m a hm
  refine ⟨p, b, set b p x, hrun, write_of_lt (by omega), hp, ?_, hbig, hstop⟩
  apply List.ext_getElem
  · simp
    omega
  · intro j h1 h2
    rw [getElem_toList, List.getElem_append]
    simp only [List.length_take, length_toList, Nat.min_eq_left hp] at h1 ⊢
    rcases Nat.lt_trichotomy j p with hj | hj | hj
    · rw [dif_pos hj, set_of_ne _ _ (by omega), hlow j hj]
      simp
    · subst hj
      rw [dif_neg (by omega)]
      simp
    · rw [dif_neg (by omega), set_of_ne _ _ (by omega)]
      obtain ⟨k, rfl⟩ : ∃ k, j = p + k + 1 := ⟨j - p - 1, by omega⟩
      rw [hmid (p + k) (by omega) (by omega)]
      simp [show p + k + 1 - p = k + 1 by omega]

/-- Such an insertion keeps a list sorted by a transitive relation. -/
theorem pairwise_insert {R : α → α → Prop} (trans : ∀ a b c, R a b → R b c → R a c) {l : List α}
    (hl : l.Pairwise R) {p : Nat} {x : α} (hp : p ≤ l.length)
    (hlast : ∀ (_ : 0 < p) (hlt : p - 1 < l.length), R (l.get ⟨p - 1, hlt⟩) x)
    (hdrop : ∀ y ∈ l.drop p, R x y) : (l.take p ++ x :: l.drop p).Pairwise R := by
  have hsplit := hl
  rw [← List.take_append_drop p l, List.pairwise_append] at hsplit
  obtain ⟨htake, hrest, hcross⟩ := hsplit
  have hbefore : ∀ y ∈ l.take p, R y x := by
    intro y hy
    obtain ⟨j, hj, rfl⟩ := List.getElem_of_mem hy
    rw [List.length_take] at hj
    rw [List.getElem_take]
    have hlt : p - 1 < l.length := by omega
    have hend := hlast (by omega) hlt
    by_cases he : j = p - 1
    · subst he
      exact hend
    · exact trans _ _ _ (List.pairwise_iff_getElem.mp hl j (p - 1) (by omega) hlt (by omega)) hend
  rw [List.pairwise_append, List.pairwise_cons]
  refine ⟨htake, ⟨hdrop, hrest⟩, ?_⟩
  intro y hy z hz
  rcases List.mem_cons.mp hz with rfl | hz
  · exact hbefore y hy
  · exact hcross y hy z hz

end Cells
