import Doors.Tty.Rows

/-!
# Doors.Tty.Tape

A line that is echoed on the terminal, seen as a tape.

The tape starts in column 0 of a row and goes on through the rows below; printing
writes at the head and moves it on, wrapping and scrolling as it has to, and a
backspace moves it back.  `Tape row₀` says where the tape of a line begun on row
`row₀` lies by now, since scrolling carries it up.
-/

namespace Doors

open Cells Tty

/-- The tape `text` with `chs` written from position `c` on. -/
def overlay {α : Type} (text : List α) (c : Nat) (chs : List α) : List α :=
  text.take c ++ chs ++ text.drop (c + chs.length)

section Overlay

variable {α : Type} {text : List α} {c : Nat}

@[simp] theorem overlay_nil : overlay text c [] = text := by simp [overlay]

/-- The tape gets longer when the text reaches past its end. -/
theorem overlay_length (h : c ≤ text.length) (chs : List α) :
    (overlay text c chs).length = max text.length (c + chs.length) := by
  simp [overlay]
  omega

/-- The characters of the tape. -/
theorem overlay_getElem? (h : c ≤ text.length) (chs : List α) (i : Nat) :
    (overlay text c chs)[i]? = if c ≤ i ∧ i < c + chs.length then chs[i - c]? else text[i]? := by
  have htake : (text.take c).length = c := List.length_take_of_le h
  unfold overlay
  by_cases hlt : i < c
  · rw [if_neg (by omega), List.getElem?_append_left (by simp; omega),
      List.getElem?_append_left (by omega), List.getElem?_take_of_lt hlt]
  by_cases hin : i < c + chs.length
  · rw [if_pos ⟨by omega, hin⟩, List.getElem?_append_left (by simp; omega),
      List.getElem?_append_right (by omega), htake]
  · rw [if_neg (by omega), List.getElem?_append_right (by simp; omega), List.getElem?_drop,
      List.length_append, htake]
    congr 1
    omega

/-- Writing on. -/
theorem overlay_overlay (h : c ≤ text.length) (chs chs' : List α) :
    overlay (overlay text c chs) (c + chs.length) chs' = overlay text c (chs ++ chs') := by
  have hlen := overlay_length h chs
  refine List.ext_getElem? fun i => ?_
  rw [overlay_getElem? (by omega), overlay_getElem? h, overlay_getElem? h, List.length_append]
  by_cases hlt : i < c + chs.length
  · rw [if_neg (by omega)]
    by_cases hc : c ≤ i
    · rw [if_pos ⟨hc, hlt⟩, if_pos ⟨hc, by omega⟩, List.getElem?_append_left (by omega)]
    · rw [if_neg (by omega), if_neg (by omega)]
  · rw [if_neg (show ¬ (c ≤ i ∧ i < c + chs.length) by omega),
      List.getElem?_append_right (by omega), ← Nat.sub_sub]
    by_cases hend : i < c + chs.length + chs'.length
    · rw [if_pos ⟨by omega, hend⟩, if_pos ⟨by omega, by omega⟩]
    · rw [if_neg (by omega), if_neg (by omega)]

end Overlay

namespace Screen

/-- The row that the tape of a line begun on row `row₀` starts in when `n` cells of it
are printed: scrolling keeps the cell behind them on the screen. -/
def top (row₀ n : Nat) : Nat := if row₀ = rows then rows else min row₀ (rows - 1 - n / vgaWidth)

/-- The cells there are for a line begun on row `row₀`. -/
def room (scrolling : Bool) (row₀ : Nat) : Nat :=
  if row₀ = rows then vgaWidth else if scrolling then rows * vgaWidth else (rows - row₀) * vgaWidth

/-- The character that a cell shows. -/
def glyph (v : BitVec 16) : BitVec 8 := v.setWidth 8

/-- **The tape** of a line begun on row `row₀` with `n` cells to go: from its start on
the cells show `text`, and the cursor is at position `c` of it. -/
structure Tape (row₀ n : Nat) (s : Screen) (text : List (BitVec 8)) (c : Nat) : Prop where
  row₀_lt : row₀ ≤ rows
  col : s.termCol < vgaWidth
  cursor : s.termRow * vgaWidth + s.termCol = top row₀ text.length * vgaWidth + c
  le : c ≤ text.length
  cells : ∀ i ch, text[i]? = some ch → glyph (s.vga (top row₀ text.length * vgaWidth + i)) = ch
  room_eq : room s.scrolling row₀ = n
  lt_room : text.length < n

/-- Characters that print as a glyph. -/
def Plain (ch : BitVec 8) : Prop := ch ≠ 0 ∧ ch ≠ newline ∧ ch ≠ carriageReturn ∧ ch ≠ backspace

instance (ch : BitVec 8) : Decidable (Plain ch) := inferInstanceAs (Decidable (_ ∧ _ ∧ _ ∧ _))

variable {s : Screen} {row₀ c k n : Nat} {text chs : List (BitVec 8)} {ch : BitVec 8}

/-- The character of a cell. -/
theorem glyph_vgaEntry (ch color : BitVec 8) : glyph (vgaEntry ch color) = ch := by
  unfold glyph vgaEntry
  ext i hi
  rw [BitVec.getElem_setWidth, BitVec.getLsbD_or, BitVec.getLsbD_signExtend]
  simp [hi, show i < 16 by omega]

/-- Exchanging rows keeps the switch. -/
theorem foldl_swapRows_scrolling (s : Screen) (l : List Nat) :
    (l.foldl (fun s r => s.swapRows r (r + 1)) s).scrolling = s.scrolling := by
  induction l generalizing s with
  | nil => rfl
  | cons r l ih => exact ih _

/-- Scrolling keeps the switch. -/
theorem scroll_scrolling (s : Screen) : s.scroll.scrolling = s.scrolling := by
  simp [scroll, foldl_swapRows_scrolling, clearRow, fill]

/-- Scrolling makes room for one more cell when the tape has none left on the screen. -/
theorem top_succ (hrow : row₀ ≤ rows) (hn : room s.scrolling row₀ = n) (h : k + 1 < n) :
    (row₀ = rows ∧ k + 1 < vgaWidth ∨ top row₀ k * vgaWidth + k + 1 < rows * vgaWidth) ∧
      top row₀ (k + 1) = top row₀ k ∨
      row₀ < rows ∧ s.scrolling = true ∧ top row₀ k * vgaWidth + k + 1 = rows * vgaWidth ∧
        top row₀ k = top row₀ (k + 1) + 1 := by
  subst hn
  unfold top room rows vgaWidth at *
  by_cases hbar : row₀ = 24
  · rw [if_pos hbar] at h
    simp [hbar, h]
  rw [if_neg hbar] at h
  simp only [if_neg hbar]
  cases hscroll : s.scrolling with
  | false =>
      rw [hscroll] at h
      simp at h
      left
      omega
  | true =>
      rw [hscroll] at h
      simp only [if_true] at h
      by_cases hfull : min row₀ (24 - 1 - k / 80) * 80 + k + 1 = 24 * 80
      · right
        refine ⟨by omega, rfl, hfull, ?_⟩
        omega
      · left
        omega

/-- The last cell that the tape has reached is on the screen. -/
theorem top_add_lt (hrow : row₀ ≤ rows) (hn : room s.scrolling row₀ = n) (h : k < n) :
    row₀ = rows ∧ top row₀ k = rows ∧ k < vgaWidth ∨ row₀ < rows ∧
      top row₀ k * vgaWidth + k < rows * vgaWidth := by
  subst hn
  unfold top room rows vgaWidth at *
  by_cases hbar : row₀ = 24
  · rw [if_pos hbar] at h
    simp [hbar, h]
  · rw [if_neg hbar] at h
    right
    have hk : k < 24 * 80 := by
      split at h
      · exact h
      · omega
    rw [if_neg hbar]
    omega

/-- The next cell, where there is one. -/
theorem advCol_inside (hcol : s.termCol < vgaWidth)
    (h : s.termRow = rows ∧ s.termCol + 1 < vgaWidth ∨
    s.termRow * vgaWidth + s.termCol + 1 < rows * vgaWidth) :
    s.advCol = { s with
      termRow := (s.termRow * vgaWidth + s.termCol + 1) / vgaWidth
      termCol := (s.termRow * vgaWidth + s.termCol + 1) % vgaWidth } := by
  unfold vgaWidth rows at *
  by_cases hlast : s.termCol = 79
  · rw [advCol_last hlast, advRow_of_lt (by dsimp only; omega)]
    simp only [Screen.mk.injEq, true_and, and_true]
    omega
  · rw [advCol_of_lt (by omega)]
    simp only [Screen.mk.injEq, true_and, and_true]
    omega

/-- Behind the last scrollable cell the rows scroll. -/
theorem advCol_end (hrow : s.termRow = rows - 1) (hcol : s.termCol = vgaWidth - 1)
    (hscroll : s.scrolling = true) :
    s.advCol = { s with termRow := rows, termCol := 0 }.scroll := by
  have hlast := advRow_last (s := { s with termCol := 0 }) hrow
  rw [advCol_last hcol, hlast]
  exact if_pos hscroll

/-- Printing at the head. -/
theorem Tape.put (h : Tape row₀ n s text c) (hch : Plain ch) (hroom : c + 1 < n) :
    Tape row₀ n (s.rawPutc ch) (overlay text c [ch]) (c + 1) := by
  obtain ⟨-, hnl, hcr, hbs⟩ := hch
  have hcol := h.col
  have hcursor := h.cursor
  have hle := h.le
  have hlen := overlay_length hle [ch]
  have hend := top_add_lt h.row₀_lt h.room_eq h.lt_room
  have hnext := top_succ h.row₀_lt h.room_eq hroom
  have hcells : ∀ i x, (overlay text c [ch])[i]? = some x →
      glyph (set s.vga (s.termRow * vgaWidth + s.termCol) (vgaEntry ch s.termColor)
        (top row₀ text.length * vgaWidth + i)) = x := by
    intro i x hx
    rw [overlay_getElem? hle] at hx
    rw [hcursor]
    by_cases hi : i = c
    · subst hi
      rw [set_self, glyph_vgaEntry]
      simpa using hx
    · rw [set_of_ne _ _ (by omega)]
      refine h.cells i x ?_
      rwa [if_neg (by simp; omega)] at hx
  -- either the head stays on the screen, or the last cell has been written
  have hcases : (s.termRow = rows ∧ s.termCol + 1 < vgaWidth ∨
    s.termRow * vgaWidth + s.termCol + 1 < rows * vgaWidth) ∧
        top row₀ (overlay text c [ch]).length = top row₀ text.length ∨
      s.scrolling = true ∧ s.termRow = rows - 1 ∧ s.termCol = vgaWidth - 1 ∧ c = text.length ∧
        top row₀ text.length = top row₀ (overlay text c [ch]).length + 1 := by
    rw [hlen, List.length_singleton]
    by_cases hc : c = text.length
    · rw [Nat.max_eq_right (by omega), ← hc]
      rw [← hc] at hcursor hend
      rcases hnext with ⟨hin, htop⟩ | ⟨hr, hscroll, hfull, htop⟩
      · left
        unfold rows vgaWidth at *
        omega
      · right
        unfold rows vgaWidth at *
        exact ⟨hscroll, by omega, by omega, rfl, htop⟩
    · rw [Nat.max_eq_left (by omega)]
      unfold rows vgaWidth at *
      omega
  have hbound : (overlay text c [ch]).length < n := by
    rw [hlen]
    exact Nat.max_lt.mpr ⟨h.lt_room, hroom⟩
  rw [rawPutc, if_neg hnl, if_neg hcr, if_neg hbs]
  generalize set s.vga (s.termRow * vgaWidth + s.termCol) (vgaEntry ch s.termColor) =
    vga at hcells ⊢
  rcases hcases with ⟨hin, htop⟩ | ⟨hscroll, hr, hl, hc, htop⟩
  · have hadv := advCol_inside (s := { s with vga }) hcol hin
    rw [hadv]
    refine { row₀_lt := h.row₀_lt, col := Nat.mod_lt _ (by decide), cursor := ?_, le := ?_,
             cells := ?_, room_eq := h.room_eq, lt_room := hbound }
    · rw [htop, Nat.div_add_mod', hcursor]
      rfl
    · simp only [hlen, List.length_singleton]
      omega
    · rw [htop]
      exact hcells
  · have hadv := advCol_end (s := { s with vga }) hr hl hscroll
    rw [hadv]
    refine { row₀_lt := h.row₀_lt, col := by simp [scroll, vgaWidth], cursor := ?_, le := ?_,
             cells := ?_, room_eq := ?_, lt_room := hbound }
    · simp only [scroll]
      unfold rows vgaWidth at *
      omega
    · simp only [hlen, List.length_singleton]
      omega
    · intro i x hx
      have hi := (List.getElem?_eq_some_iff.mp hx).1
      have hx := hcells i x hx
      rw [hlen, List.length_singleton] at hi
      rw [scroll_vga, if_pos (by unfold rows vgaWidth at *; omega)]
      rw [htop] at hx
      unfold vgaWidth at *
      rwa [show (top row₀ (overlay text c [ch]).length + 1) * 80 + i =
        top row₀ (overlay text c [ch]).length * 80 + i + 80 by omega] at hx
    · rw [scroll_scrolling]
      exact h.room_eq

/-- Two texts, one after the other. -/
theorem rawPuts_append (s : Screen) (chs chs' : List (BitVec 8)) :
    s.rawPuts (chs ++ chs') = (s.rawPuts chs).rawPuts chs' :=
  List.foldl_append

/-- **Printing** a text from the head on. -/
theorem Tape.puts (h : Tape row₀ n s text c) (hplain : ∀ ch ∈ chs, Plain ch)
    (hroom : c + chs.length < n) :
    Tape row₀ n (s.rawPuts chs) (overlay text c chs) (c + chs.length) := by
  induction chs generalizing s text c with
  | nil =>
      rw [overlay_nil]
      exact h
  | cons ch chs ih =>
      rw [List.length_cons] at hroom
      have hput := h.put (hplain ch List.mem_cons_self) (by omega)
      have hputs := ih hput (fun x hx => hplain x (List.mem_cons_of_mem ch hx)) (by omega)
      have happend := overlay_overlay h.le [ch] chs
      rw [List.length_singleton, List.singleton_append] at happend
      rw [happend] at hputs
      rw [List.length_cons, show c + (chs.length + 1) = c + 1 + chs.length by omega]
      exact hputs

/-- One column back, in one formula. -/
theorem decCol_eq (s : Screen) :
    s.decCol = { s with termRow := s.decCol.termRow, termCol := s.decCol.termCol } := by
  unfold decCol
  split
  · rfl
  · split
    · rfl
    · rfl

/-- A backspace goes one column back. -/
theorem rawPutc_backspace (s : Screen) : s.rawPutc backspace = s.decCol := by
  simp [rawPutc, newline, carriageReturn, backspace]

/-- One cell back. -/
theorem Tape.back_one (h : Tape row₀ n s text (c + 1)) : Tape row₀ n s.decCol text c := by
  have hcol := h.col
  have hcursor := h.cursor
  have hle := h.le
  have hdec : s.decCol.termCol < vgaWidth ∧ s.decCol.termRow * vgaWidth + s.decCol.termCol + 1 =
      s.termRow * vgaWidth + s.termCol := by
    unfold decCol vgaWidth at *
    split
    · dsimp only
      omega
    · rw [if_pos (by omega)]
      dsimp only
      omega
  rw [decCol_eq]
  exact { h with col := hdec.1, cursor := by dsimp only; omega, le := by omega }

/-- **Backspaces**. -/
theorem Tape.back (k : Nat) (h : Tape row₀ n s text (c + k)) :
    Tape row₀ n (s.rawPuts (List.replicate k backspace)) text c := by
  induction k generalizing s with
  | zero => exact h
  | succ k ih =>
      have hback := Tape.back_one (c := c + k) h
      rw [← rawPutc_backspace] at hback
      exact ih hback

/-- **A carriage return** goes to the start of the tape from its first row. -/
theorem Tape.return (h : Tape row₀ n s text c) (hfirst : c < vgaWidth) :
    Tape row₀ n (s.rawPutc carriageReturn) text 0 := by
  have hstep : s.rawPutc carriageReturn = { s with termCol := 0 } := by
    simp [rawPutc, newline, carriageReturn]
  have hcol := h.col
  have hcursor := h.cursor
  rw [hstep]
  refine { h with col := show 0 < vgaWidth by decide, cursor := ?_, le := Nat.zero_le _ }
  unfold vgaWidth at *
  dsimp only
  omega

/-- There is room for a row. -/
theorem width_le_room (hrow : row₀ ≤ rows) (scrolling : Bool) : vgaWidth ≤ room scrolling row₀ := by
  unfold room rows vgaWidth at *
  split
  · exact Nat.le_refl _
  · split
    · omega
    · omega

/-- A line that is begun. -/
theorem tape_start (hrow : s.termRow ≤ rows) (hcol : s.termCol = 0) :
    Tape s.termRow (room s.scrolling s.termRow) s [] 0 where
  row₀_lt := hrow
  col := by
    rw [hcol]
    decide
  cursor := by
    unfold top rows vgaWidth at *
    simp only [List.length_nil]
    split
    · omega
    · omega
  le := Nat.le_refl _
  cells := by simp
  room_eq := rfl
  lt_room := Nat.lt_of_lt_of_le (by decide) (width_le_room hrow s.scrolling)

end Screen

end Doors
