import Doors.Tty

/-!
# Doors.Tty.Rows

What the row and column helpers of the terminal do (`Tty::advRow`, `advCol`, `decCol`
and `rawPuts`), row by row, and what they leave alone.
-/

namespace Doors.Screen

open Cells Tty

variable {s : Screen} {ch : BitVec 8} {i k : Nat}

/-- A blank cell in the default colour. -/
def blank : BitVec 16 := vgaEntry space defaultColor

theorem swapRows_vga (s : Screen) (r r' i : Nat) :
    (s.swapRows r r').vga i =
      if i / 80 = r then s.vga (r' * 80 + i % 80) else if i / 80 = r' then s.vga (r * 80 + i % 80)
        else s.vga i := rfl

/-- A cleared row is blank, and the other rows stay. -/
theorem clearRow_vga (s : Screen) (r i : Nat) :
    (s.clearRow r).vga i = if r * 80 ≤ i ∧ i < r * 80 + 80 then blank else s.vga i := by
  rw [clearRow, fill, blank, vgaWidth]

/-- `k` exchanges carry row 0 down to row `k` and the rows above it up by one. -/
theorem foldl_swapRows_vga (s : Screen) (k i : Nat) :
    ((List.range k).foldl (fun s r => s.swapRows r (r + 1)) s).vga i =
      if i / 80 < k then s.vga (i + 80) else if i / 80 = k then s.vga (i % 80) else s.vga i := by
  induction k generalizing i with
  | zero =>
      simp only [List.range_zero, List.foldl_nil, Nat.not_lt_zero, if_false]
      split
      · next h => rw [Nat.mod_eq_of_lt (by omega)]
      · rfl
  | succ k ih =>
      rw [List.range_succ, List.foldl_append, List.foldl_cons, List.foldl_nil, swapRows_vga]
      by_cases hk : i / 80 = k
      · rw [if_pos hk, ih, if_neg (by omega), if_neg (by omega), if_pos (by omega)]
        congr 1
        omega
      · rw [if_neg hk]
        by_cases hk' : i / 80 = k + 1
        · rw [if_pos hk', ih, if_neg (by omega), if_pos (by omega), if_neg (by omega), if_pos hk']
          congr 1
          omega
        · rw [if_neg hk', ih]
          by_cases hlt : i / 80 < k
          · rw [if_pos hlt, if_pos (by omega)]
          · rw [if_neg hlt, if_neg hk, if_neg (by omega), if_neg hk']

/-- **Scrolling**: every row moves up by one, the last one is blank, and what lies
below the scrollable rows stays. -/
theorem scroll_vga (s : Screen) (i : Nat) :
    s.scroll.vga i = if i < 1840 then s.vga (i + 80) else if i < 1920 then blank else s.vga i := by
  unfold scroll rows
  dsimp only
  rw [foldl_swapRows_vga]
  simp only [clearRow_vga]
  by_cases h₁ : i / 80 < 24 - 1
  · rw [if_pos h₁, if_neg (by omega), if_pos (by omega)]
  · rw [if_neg h₁]
    by_cases h₂ : i / 80 = 24 - 1
    · rw [if_pos h₂, if_pos (by omega), if_neg (by omega), if_pos (by omega)]
    · rw [if_neg h₂, if_neg (by omega), if_neg (by omega), if_neg (by omega)]

/-! ## the cursor -/

/-- A row above the last scrollable one. -/
theorem advRow_of_lt (h : s.termRow < 23) : s.advRow = { s with termRow := s.termRow + 1 } := by
  have hnext : uint8 (s.termRow + 1) = s.termRow + 1 := Nat.mod_eq_of_lt (by omega)
  simp [advRow, hnext, rows, show s.termRow + 1 ≠ 24 by omega]

/-- The last scrollable row. -/
theorem advRow_last (h : s.termRow = 23) :
    s.advRow = if s.scrolling then { s with termRow := 24 }.scroll
      else { s with termRow := 0 } := by
  simp [advRow, h, uint8, rows]

theorem advCol_of_lt (h : s.termCol < 79) : s.advCol = { s with termCol := s.termCol + 1 } := by
  have hnext : uint8 (s.termCol + 1) = s.termCol + 1 := Nat.mod_eq_of_lt (by omega)
  simp [advCol, hnext, vgaWidth, show s.termCol + 1 ≠ 80 by omega]

theorem advCol_last (h : s.termCol = 79) : s.advCol = { s with termCol := 0 }.advRow := by
  simp [advCol, h, uint8, vgaWidth]

end Doors.Screen
