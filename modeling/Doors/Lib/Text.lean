import Mathlib.Tactic.Common
import Doors.Lib.Cells

/-!
# Doors.Lib.Text

Terminated text in arrays of fixed capacity.

An array is its cell function, as in `Doors.Lib.Cells`, and `nul` ends a text.
`Holds nul a off cs` says that the text at cell `off` is `cs`.

* `writeAll_eq` — writing a list cell by cell succeeds exactly when it fits;
* `reverseLoop_eq` — exchanging cells from both ends turns a stretch round;
* `readText_eq` — reading up to the terminator gives the text.
-/

namespace Text

open Run Cells

variable {α ε : Type} {oob : ε} {nul : α} {n i j k off : Nat} {a b : Nat → α} {xs ys cs : List α}

/-- `a` with the list `xs` from cell `i` on. -/
def put (a : Nat → α) (i : Nat) (xs : List α) (k : Nat) : α :=
  if i ≤ k then (xs[k - i]?).getD (a k) else a k

/-- No text. -/
theorem put_nil (a : Nat → α) (i : Nat) : put a i [] = a := by
  funext k
  simp [put]

/-- The cells before the text. -/
theorem put_of_lt (a : Nat → α) (xs : List α) (h : k < i) : put a i xs k = a k := if_neg (by omega)

/-- The cells behind the text. -/
theorem put_of_le (a : Nat → α) (xs : List α) (h : i + xs.length ≤ k) : put a i xs k = a k := by
  unfold put
  rw [if_pos (by omega), List.getElem?_eq_none (by omega)]
  rfl

/-- A cell in the list. -/
theorem put_at (a : Nat → α) (i : Nat) (h : j < xs.length) : put a i xs (i + j) = xs[j] := by
  unfold put
  rw [if_pos (by omega), Nat.add_sub_cancel_left, List.getElem?_eq_getElem h]
  rfl

/-- One more cell. -/
theorem put_cons (a : Nat → α) (i : Nat) (x : α) (xs : List α) :
    put (set a i x) (i + 1) xs = put a i (x :: xs) := by
  funext k
  unfold put
  by_cases hk : k = i
  · subst hk
    rw [if_neg (by omega), if_pos (Nat.le_refl k), set_self, Nat.sub_self]
    rfl
  · by_cases hlt : i + 1 ≤ k
    · rw [if_pos hlt, if_pos (by omega), set_of_ne _ _ hk,
        show k - i = k - (i + 1) + 1 by omega, List.getElem?_cons_succ]
    · rw [if_neg hlt, if_neg (by omega), set_of_ne _ _ hk]

/-! ## writing -/

/-- `for (x : xs) a[i++] = x`. -/
def writeAll (oob : ε) (n : Nat) : List α → Nat → (Nat → α) → Except ε (Nat → α)
  | [], _, a => .ok a
  | x :: xs, i, a => do
      let a ← write oob n a i x
      writeAll oob n xs (i + 1) a

/-- **Writing** succeeds exactly when the list fits. -/
theorem writeAll_eq (hxs : xs ≠ []) : writeAll oob n xs i a = if i + xs.length ≤ n
    then .ok (put a i xs) else .error oob := by
  induction xs generalizing i a with
  | nil => contradiction
  | cons x xs ih =>
      rw [writeAll, List.length_cons]
      by_cases hi : i < n
      · rw [write_of_lt hi]
        show writeAll oob n xs (i + 1) (set a i x) = _
        by_cases hnil : xs = []
        · subst hnil
          rw [writeAll, ← put_cons, put_nil, if_pos (by rw [List.length_nil]; omega)]
        · rw [ih hnil, put_cons]
          congr 1
          rw [eq_iff_iff]
          omega
      · rw [if_neg (by omega), write, if_neg hi]
        rfl

/-- Two texts, one behind the other. -/
theorem writeAll_append : writeAll oob n (xs ++ ys) i a = writeAll oob n xs i a >>= fun a =>
    writeAll oob n ys (i + xs.length) a := by
  induction xs generalizing i a with
  | nil => rfl
  | cons x xs ih =>
      rw [List.cons_append, writeAll, writeAll, List.length_cons]
      cases write oob n a i x with
      | error e => rfl
      | ok b =>
          show writeAll oob n (xs ++ ys) (i + 1) b = _
          rw [ih, show i + 1 + xs.length = i + (xs.length + 1) by omega]
          rfl

/-! ## reversing in place -/

/-- `while (j < i) { swap(a[off + i], a[off + j]); j++; i--; }`. -/
def reverseLoop (oob : ε) (n off i j : Nat) (a : Nat → α) : Except ε (Nat → α) :=
  if j < i then do
    let x ← read oob n a (off + i)
    let y ← read oob n a (off + j)
    let a ← write oob n a (off + i) y
    let a ← write oob n a (off + j) x
    reverseLoop oob n off (i - 1) (j + 1) a
  else .ok a
termination_by i - j

/-- **Reversal** of the cells `off + j` to `off + i`. -/
theorem reverseLoop_eq (h : off + i < n) :
    reverseLoop oob n off i j a = .ok fun k =>
      if off + j ≤ k ∧ k ≤ off + i then a (2 * off + i + j - k) else a k := by
  -- a stretch of at most one cell stays
  have hdone : ∀ {i j : Nat} {a : Nat → α}, ¬ j < i →
      a = fun k => if off + j ≤ k ∧ k ≤ off + i then a (2 * off + i + j - k) else a k := by
    intro i j a hle
    funext k
    split
    · congr 1
      omega
    · rfl
  induction i generalizing j a with
  | zero =>
      rw [reverseLoop, if_neg (Nat.not_lt_zero j)]
      exact congrArg _ (hdone (Nat.not_lt_zero j))
  | succ i ih =>
      rw [reverseLoop]
      by_cases hlt : j < i + 1
      · have hj : off + j < n := by omega
        simp only [if_pos hlt, read_of_lt h, read_of_lt hj, write_of_lt h, write_of_lt hj, bind,
          Except.bind, Nat.add_sub_cancel]
        rw [ih (by omega)]
        congr 1
        funext k
        by_cases hin : off + (j + 1) ≤ k ∧ k ≤ off + i
        · rw [if_pos hin, if_pos (by omega), set_of_ne _ _ (by omega), set_of_ne _ _ (by omega)]
          congr 1
          omega
        · rw [if_neg hin]
          by_cases hfirst : k = off + j
          · rw [if_pos (by omega), hfirst, set_self]
            congr 1
            omega
          · rw [set_of_ne _ _ hfirst]
            by_cases hlast : k = off + (i + 1)
            · rw [if_pos (by omega), hlast, set_self]
              congr 1
              omega
            · rw [if_neg (by omega), set_of_ne _ _ hlast]
      · rw [if_neg hlt]
        exact congrArg _ (hdone hlt)

/-- A list written and turned round. -/
theorem reverse_put (hxs : xs ≠ []) :
    (fun k => if off + 0 ≤ k ∧ k ≤ off + (xs.length - 1)
      then put a off (xs ++ ys) (2 * off + (xs.length - 1) + 0 - k) else put a off (xs ++ ys) k) =
      put a off (xs.reverse ++ ys) := by
  have hpos := List.length_pos_iff.mpr hxs
  funext k
  by_cases hin : off + 0 ≤ k ∧ k ≤ off + (xs.length - 1)
  · obtain ⟨m, rfl⟩ : ∃ m, k = off + m := ⟨k - off, by omega⟩
    rw [if_pos hin, show 2 * off + (xs.length - 1) + 0 - (off + m) =
      off + (xs.length - 1 - m) by omega,
      put_at _ _ (by rw [List.length_append]; omega),
        put_at _ _ (by rw [List.length_append, List.length_reverse]; omega),
      List.getElem_append_left (by omega), List.getElem_append_left
        (by rw [List.length_reverse]; omega), List.getElem_reverse]
  · rw [if_neg hin]
    by_cases hlow : off ≤ k
    · unfold put
      rw [if_pos hlow, if_pos hlow, List.getElem?_append_right (by omega),
        List.getElem?_append_right (by rw [List.length_reverse]; omega),
        List.length_reverse]
    · rw [put_of_lt _ _ (by omega), put_of_lt _ _ (by omega)]

/-! ## reading -/

/-- The text at cell `off` is `cs`. -/
structure Holds (nul : α) (a : Nat → α) (off : Nat) (cs : List α) : Prop where
  cells : ∀ m (h : m < cs.length), a (off + m) = cs[m]
  stop : a (off + cs.length) = nul
  plain : nul ∉ cs

/-- A text with its terminator is held. -/
theorem holds_put (nul : α) (a : Nat → α) (off : Nat) (h : nul ∉ cs) :
    Holds nul (put a off (cs ++ [nul])) off cs where
  cells m hm := by
    rw [put_at _ _ (by rw [List.length_append]; omega), List.getElem_append_left hm]
  stop := by
    rw [put_at _ _ (by simp), List.getElem_append_right (Nat.le_refl _)]
    simp
  plain := h

/-- `for (p = a + off; *p; p++)`: the cells up to the terminator. -/
def readText [DecidableEq α] (oob : ε) (nul : α) (n : Nat) (a : Nat → α) (off : Nat) :
    Except ε (List α) :=
  if off < n then
    if a off = nul then .ok []
    else do
      let cs ← readText oob nul n a (off + 1)
      .ok (a off :: cs)
  else .error oob
termination_by n - off

/-- **Reading** a text that is there. -/
theorem readText_eq [DecidableEq α] (h : Holds nul a off cs) (hn : off + cs.length < n) :
    readText oob nul n a off = .ok cs := by
  induction cs generalizing off with
  | nil =>
      have hstop : a off = nul := h.stop
      rw [readText, if_pos (by simpa using hn), if_pos hstop]
  | cons c cs ih =>
      rw [List.length_cons] at hn
      have hc : a off = c := h.cells 0 (by simp)
      have hne : c ≠ nul := fun heq => h.plain (heq ▸ List.mem_cons_self)
      have htail : Holds nul a (off + 1) cs := by
        refine ⟨fun m hm => ?_, ?_, fun hin => h.plain (List.mem_cons_of_mem _ hin)⟩
        · have := h.cells (m + 1) (by simpa using hm)
          rwa [show off + (m + 1) = off + 1 + m by omega, List.getElem_cons_succ] at this
        · have := h.stop
          rwa [List.length_cons, show off + (cs.length + 1) = off + 1 + cs.length by omega] at this
      rw [readText, if_pos (by omega), hc, if_neg hne, ih htail (by omega)]
      rfl

end Text
