import Doors.Tty.Rows

/-!
# Doors.Tty.Bounds

The terminal and the size of video memory.

The helpers test for equality with the last scrollable row, so on the taskbar row,
behind it, a new row is row 25; and `putLine` leaves the cursor behind the last
column when the line is full.  `tty_inBounds` says that nothing else leaves video
memory.
-/

namespace Doors

open Cells Run Tty

namespace Tty

def vgaHeight : Nat := 25

/-- The text keeps to the taskbar row from column `col` on, or goes back to the row
above it. -/
def keepsRow : Nat → List (BitVec 8) → Bool
  | _, [] => true
  | col, ch :: str =>
      if ch = newline then false
      else if ch = carriageReturn then keepsRow 0 str
      else if ch = backspace then if col = 0 then true else keepsRow (col - 1) str
      else decide (col + 1 < vgaWidth) && keepsRow (col + 1) str

/-- The row and column arguments of an operation are on the screen. -/
def OnScreenArgs : TtyOp → Prop
  | .putcAt _ row col | .putsAt _ row col | .cursorSetPos row col =>
      row.toNat < vgaHeight ∧ col.toNat < vgaWidth
  | .putLine _ row => row.toNat < vgaHeight
  | _ => True

/-- Output on the taskbar row keeps to it, and the lines of `putLine` are shorter
than a row. -/
def Fits (t : Tty) (op : TtyOp) : Prop :=
  OnScreenArgs op ∧
    match op with
    | .putc ch => t.screen.termRow = rows → keepsRow t.screen.termCol [ch] = true
    | .puts str => t.screen.termRow = rows → keepsRow t.screen.termCol str = true
    | .putsAt str row col => row.toNat = rows → keepsRow col.toNat str = true
    | .putLine str _ => str.length < vgaWidth
    | _ => True

instance (op : TtyOp) : Decidable (OnScreenArgs op) := by
  apply @TtyOp.casesOn _ op <;> intros <;> unfold OnScreenArgs <;> infer_instance

instance (t : Tty) (op : TtyOp) : Decidable (Fits t op) := by
  apply @TtyOp.casesOn _ op <;> intros <;> unfold Fits <;> infer_instance

/-- **In bounds**: the cursor is on the screen, and the cells behind video memory are
those of `mem`. -/
structure InBounds (mem : Nat → BitVec 16) (s : Screen) : Prop where
  row : s.termRow < vgaHeight
  col : s.termCol < vgaWidth
  vga : ∀ i, vgaWidth * vgaHeight ≤ i → s.vga i = mem i

end Tty

namespace Screen

variable {s : Screen} {mem : Nat → BitVec 16} {ch : BitVec 8} {str : List (BitVec 8)}

theorem width_pos : 0 < vgaWidth := by decide

theorem height_pos : 0 < vgaHeight := by decide

theorem rows_pos : 0 < rows := by decide

theorem rows_lt_height : rows < vgaHeight := by decide

theorem last_lt_width : vgaWidth - 1 < vgaWidth := by decide

/-- Scrolling stays on the screen. -/
theorem scroll_inBounds (h : InBounds mem s) : InBounds mem s.scroll where
  row := by simp [scroll, rows, vgaHeight]
  col := by simp [scroll, vgaWidth]
  vga := by
    intro i hi
    unfold vgaWidth vgaHeight at hi
    rw [scroll_vga, if_neg (by omega), if_neg (by omega)]
    exact h.vga i hi

/-- A new row, from a scrollable one, is a scrollable one. -/
theorem advRow_inBounds (h : InBounds mem s) (hrow : s.termRow < rows) :
    InBounds mem s.advRow ∧ s.advRow.termRow < rows := by
  unfold rows at *
  by_cases hlast : s.termRow = 23
  · rw [advRow_last hlast]
    split
    · refine ⟨scroll_inBounds { h with row := rows_lt_height }, ?_⟩
      simp [scroll, rows]
    · exact ⟨{ h with row := height_pos }, rows_pos⟩
  · rw [advRow_of_lt (by omega)]
    exact ⟨{ h with row := by unfold vgaHeight; dsimp only; omega }, by dsimp only; omega⟩

/-- A write to a cell of the screen. -/
theorem set_inBounds {i : Nat} {v : BitVec 16} (h : InBounds mem s)
    (hi : i < vgaWidth * vgaHeight) :
    InBounds mem { s with vga := set s.vga i v } where
  row := h.row
  col := h.col
  vga := by
    intro j hj
    show set s.vga i v j = _
    rw [set_of_ne _ _ (by omega)]
    exact h.vga j hj

/-- The cell at the cursor is on the screen. -/
theorem cell_lt (h : InBounds mem s) : s.termRow * vgaWidth + s.termCol < vgaWidth * vgaHeight := by
  have hrow := h.row
  have hcol := h.col
  unfold vgaWidth vgaHeight at *
  omega

/-- One column back. -/
theorem decCol_inBounds (h : InBounds mem s) : InBounds mem s.decCol := by
  have hrow := h.row
  have hcol := h.col
  unfold decCol
  split
  · exact { h with col := by dsimp only; omega }
  · split
    · exact { h with row := by dsimp only; omega, col := last_lt_width }
    · exact h

/-- One column back is not one row down. -/
theorem decCol_row (s : Screen) : s.decCol.termRow ≤ s.termRow := by
  unfold decCol
  split
  · exact Nat.le_refl _
  · split
    · exact Nat.sub_le _ _
    · exact Nat.le_refl _

/-- One column on, from a scrollable row. -/
theorem advCol_inBounds (h : InBounds mem s) (hrow : s.termRow < rows) :
    InBounds mem s.advCol ∧ s.advCol.termRow < rows := by
  have hcol := h.col
  unfold vgaWidth at hcol
  by_cases hlast : s.termCol = 79
  · rw [advCol_last hlast]
    exact advRow_inBounds { h with col := width_pos } hrow
  · rw [advCol_of_lt (by omega)]
    exact ⟨{ h with col := by unfold vgaWidth; dsimp only; omega }, hrow⟩

/-- A character on a scrollable row. -/
theorem rawPutc_inBounds (h : InBounds mem s) (hrow : s.termRow < rows) (ch : BitVec 8) :
    InBounds mem (s.rawPutc ch) ∧ (s.rawPutc ch).termRow < rows := by
  unfold rawPutc
  split
  · obtain ⟨h', hrow'⟩ := advRow_inBounds h hrow
    exact ⟨{ h' with col := width_pos }, hrow'⟩
  split
  · exact ⟨{ h with col := width_pos }, hrow⟩
  split
  · exact ⟨decCol_inBounds h, Nat.lt_of_le_of_lt (decCol_row s) hrow⟩
  · exact advCol_inBounds (set_inBounds h (cell_lt h)) hrow

/-- A text on a scrollable row. -/
theorem rawPuts_inBounds (h : InBounds mem s) (hrow : s.termRow < rows) (str : List (BitVec 8)) :
    InBounds mem (s.rawPuts str) := by
  induction str generalizing s with
  | nil => exact h
  | cons ch str ih =>
      obtain ⟨h', hrow'⟩ := rawPutc_inBounds h hrow ch
      exact ih h' hrow'

/-- A text that keeps to the taskbar row. -/
theorem rawPuts_taskbar (h : InBounds mem s) (hrow : s.termRow = rows)
    (hkeep : keepsRow s.termCol str = true) :
    InBounds mem (s.rawPuts str) := by
  induction str generalizing s with
  | nil => exact h
  | cons ch str ih =>
      rw [keepsRow] at hkeep
      show InBounds mem ((s.rawPutc ch).rawPuts str)
      by_cases hnl : ch = newline
      · simp [hnl] at hkeep
      rw [if_neg hnl] at hkeep
      by_cases hcr : ch = carriageReturn
      · rw [if_pos hcr] at hkeep
        have hstep : s.rawPutc ch = { s with termCol := 0 } := by
          simp [rawPutc, hcr, newline, carriageReturn]
        rw [hstep]
        exact ih { h with col := width_pos } hrow hkeep
      rw [if_neg hcr] at hkeep
      by_cases hbs : ch = backspace
      · rw [if_pos hbs] at hkeep
        have hstep : s.rawPutc ch = s.decCol := by
          simp [rawPutc, hbs, newline, carriageReturn, backspace]
        rw [hstep]
        by_cases hcol : s.termCol = 0
        · -- back to the row above, and from there on in the scrollable rows
          refine rawPuts_inBounds (decCol_inBounds h) ?_ str
          simp [decCol, hcol, hrow, rows]
        · rw [if_neg hcol] at hkeep
          have hdec : s.decCol = { s with termCol := s.termCol - 1 } :=
            if_pos (Nat.pos_of_ne_zero hcol)
          have hin := decCol_inBounds h
          rw [hdec] at hin ⊢
          exact ih hin hrow hkeep
      · rw [if_neg hbs, Bool.and_eq_true, decide_eq_true_eq] at hkeep
        obtain ⟨hlt, hkeep⟩ := hkeep
        have hset := set_inBounds (v := vgaEntry ch s.termColor) h (cell_lt h)
        have hstep : s.rawPutc ch =
            { s with
              vga := set s.vga (s.termRow * vgaWidth + s.termCol) (vgaEntry ch s.termColor),
              termCol := s.termCol + 1 } := by
          rw [rawPutc, if_neg hnl, if_neg hcr, if_neg hbs,
            advCol_of_lt (by unfold vgaWidth at hlt; dsimp only; omega)]
        rw [hstep]
        exact ih { hset with col := hlt } hrow hkeep

/-- A text on any row. -/
theorem rawPuts_fits (h : InBounds mem s)
    (hkeep : s.termRow = rows → keepsRow s.termCol str = true) : InBounds mem (s.rawPuts str) := by
  by_cases hrow : s.termRow = rows
  · exact rawPuts_taskbar h hrow (hkeep hrow)
  · have hlt := h.row
    exact rawPuts_inBounds h (by unfold vgaHeight rows at *; omega) str

/-- A line shorter than a row stays in its row. -/
theorem putLine_inBounds (h : InBounds mem s) {row : Nat} (hrow : row < vgaHeight)
    (hlen : str.length < vgaWidth) :
    InBounds mem (s.putLine str row) where
  row := hrow
  col := by
    show uint8 (min str.length vgaWidth) < vgaWidth
    unfold uint8 vgaWidth at *
    omega
  vga := by
    intro i hi
    unfold putLine
    dsimp only
    rw [if_neg (by unfold vgaWidth vgaHeight at *; omega)]
    exact h.vga i hi

/-- Clearing the screen. -/
theorem cls_inBounds (h : InBounds mem s) : InBounds mem s.cls where
  row := height_pos
  col := width_pos
  vga := by
    intro i hi
    unfold cls fill
    dsimp only
    rw [if_neg (by unfold vgaWidth vgaHeight rows at *; omega)]
    exact h.vga i hi

end Screen

namespace Tty

variable {t t' : Tty} {mem : Nat → BitVec 16} {g : Locking}

/-- Taking the lock leaves the screen alone. -/
theorem acquire_screen (h : t.acquire g = .ok t') : t'.screen = t.screen ∧
    t'.scrollbackActive = t.scrollbackActive ∧ t'.savedScreen = t.savedScreen := by
  unfold acquire at h
  cases g with
  | granted =>
      obtain rfl := Except.ok.inj h
      exact ⟨rfl, rfl, rfl⟩
  | semaphore =>
      dsimp only at h
      split at h
      · obtain rfl := Except.ok.inj h
        exact ⟨rfl, rfl, rfl⟩
      · simp at h

/-- Giving up the lock leaves the screen alone. -/
theorem release_screen (t : Tty) (g : Locking) : (t.release g).screen = t.screen := by
  cases g <;> rfl

/-- What a locked operation writes is what its body writes. -/
theorem locked_inBounds {f : Screen → Screen} (hf : InBounds mem (f t.screen))
    (hs : t.locked g f = .ok t') :
    InBounds mem t'.screen := by
  obtain ⟨u, hu, hs⟩ := bind_eq_ok.mp hs
  obtain rfl := Except.ok.inj hs
  rw [release_screen]
  show InBounds mem (f u.screen)
  rwa [(acquire_screen hu).1]

/-- Drawing the view stays on the screen. -/
theorem view_inBounds {s : Screen} (h : InBounds mem s) (top bottom : Int) :
    InBounds mem (view s top bottom) where
  row := h.row
  col := h.col
  vga := by
    intro i hi
    unfold view
    dsimp only
    unfold vgaWidth vgaHeight rows at *
    rw [if_neg (by omega), if_neg (by omega)]
    exact h.vga i (by unfold vgaWidth vgaHeight; exact hi)

/-- Restoring the screen stays on it. -/
theorem restore_inBounds {s : Screen} (h : InBounds mem s) (saved : Nat → BitVec 16) :
    InBounds mem (restore saved s) where
  row := h.row
  col := h.col
  vga := by
    intro i hi
    unfold restore
    dsimp only
    rw [if_neg (by unfold vgaWidth vgaHeight rows at *; omega)]
    exact h.vga i hi

/-- Entering or moving the view. -/
theorem scrollbackShow_inBounds {offset : Int} (h : InBounds mem t.screen)
    (hs : t.scrollbackShow g offset = .ok t') :
    InBounds mem t'.screen := by
  obtain ⟨u, hu, hs⟩ := bind_eq_ok.mp hs
  have hu' := (acquire_screen hu).1
  split at hs
  · obtain rfl := Except.ok.inj hs
    rwa [release_screen, hu']
  · obtain rfl := Except.ok.inj hs
    rw [release_screen]
    refine view_inBounds ?_ _ _
    split
    · rwa [hu']
    · rwa [hu']

/-- Leaving the view. -/
theorem scrollbackExit_inBounds (h : InBounds mem t.screen) (hs : t.scrollbackExit g = .ok t') :
    InBounds mem t'.screen := by
  obtain ⟨u, hu, hs⟩ := bind_eq_ok.mp hs
  have hu' := (acquire_screen hu).1
  split at hs
  · obtain rfl := Except.ok.inj hs
    rwa [release_screen, hu']
  · obtain rfl := Except.ok.inj hs
    rw [release_screen]
    exact restore_inBounds (by rwa [hu']) _

/-- One step down in the view, or out of it. -/
theorem scrollbackDown_inBounds {n : Nat} (h : InBounds mem t.screen)
    (hs : t.scrollbackDown g n = .ok t') : InBounds mem t'.screen := by
  unfold scrollbackDown at hs
  split at hs
  · obtain rfl := Except.ok.inj hs
    exact h
  · dsimp only at hs
    split at hs
    · exact scrollbackExit_inBounds h hs
    · exact scrollbackShow_inBounds h hs

/-- Leaving the view keeps the cursor. -/
theorem scrollbackExit_cursor (hs : t.scrollbackExit g = .ok t') :
    t'.screen.termRow = t.screen.termRow ∧ t'.screen.termCol = t.screen.termCol := by
  obtain ⟨u, hu, hs⟩ := bind_eq_ok.mp hs
  have hu' := (acquire_screen hu).1
  split at hs
  · obtain rfl := Except.ok.inj hs
    rw [release_screen, hu']
    exact ⟨rfl, rfl⟩
  · obtain rfl := Except.ok.inj hs
    rw [release_screen, ← hu']
    exact ⟨rfl, rfl⟩

/-- One character, on the taskbar row only where it keeps to the row. -/
theorem putc_inBounds {ch : BitVec 8} (h : InBounds mem t.screen)
    (hfits : t.screen.termRow = rows → keepsRow t.screen.termCol [ch] = true)
    (hs : t.putc g ch = .ok t') : InBounds mem t'.screen := by
  obtain ⟨u, hu, hs⟩ := bind_eq_ok.mp hs
  have hu' := (acquire_screen hu).1
  rw [← hu'] at h hfits
  dsimp only at hs
  split at hs
  · obtain ⟨w, hw, hs⟩ := bind_eq_ok.mp hs
    obtain rfl := Except.ok.inj hs
    obtain ⟨hrow, hcol⟩ := scrollbackExit_cursor hw
    rw [← hrow, ← hcol] at hfits
    rw [release_screen]
    show InBounds mem (w.screen.rawPuts [ch])
    exact Screen.rawPuts_fits (scrollbackExit_inBounds h hw) hfits
  · obtain rfl := Except.ok.inj hs
    rw [release_screen]
    show InBounds mem (u.screen.rawPuts [ch])
    exact Screen.rawPuts_fits h hfits

/-- **Every step** that fits stays in bounds. -/
theorem step_inBounds {op : TtyOp} (h : InBounds mem t.screen) (hop : Fits t op)
    (hs : t.step g op = .ok t') : InBounds mem t'.screen := by
  obtain ⟨hargs, hfits⟩ := hop
  cases op with
  | putc ch => exact putc_inBounds h hfits hs
  | putcAt ch row col =>
      rw [step_onScreen rfl] at hs
      refine locked_inBounds (Screen.set_inBounds h ?_) hs
      have hargs : row.toNat < vgaHeight ∧ col.toNat < vgaWidth := hargs
      unfold vgaWidth vgaHeight at *
      omega
  | puts str =>
      rw [step_onScreen rfl] at hs
      exact locked_inBounds (Screen.rawPuts_fits h hfits) hs
  | putsAt str row col =>
      rw [step_onScreen rfl] at hs
      refine locked_inBounds (f :=
        fun s => Screen.rawPuts { s with termRow := row.toNat, termCol := col.toNat } str) ?_ hs
      exact Screen.rawPuts_fits { h with row := hargs.1, col := hargs.2 } hfits
  | putLine str row =>
      rw [step_onScreen rfl] at hs
      exact locked_inBounds (Screen.putLine_inBounds h hargs hfits) hs
  | cls =>
      rw [step_onScreen rfl] at hs
      exact locked_inBounds (Screen.cls_inBounds h) hs
  | cursorSetPos row col =>
      rw [step_onScreen rfl] at hs
      refine locked_inBounds (f := fun s => { s with termRow := row.toNat, termCol := col.toNat })
        ?_ hs
      exact { h with row := hargs.1, col := hargs.2 }
  | setColor color =>
      rw [step_onScreen rfl] at hs
      refine locked_inBounds (f := fun s => { s with termColor := color }) ?_ hs
      exact { h with }
  | setScrolling enabled =>
      rw [step_onScreen rfl] at hs
      refine locked_inBounds (f := fun s => { s with scrolling := enabled }) ?_ hs
      exact { h with }
  | getCursor =>
      rw [step_onScreen rfl] at hs
      exact locked_inBounds h hs
  | scrollbackShow offset => exact scrollbackShow_inBounds h hs
  | scrollbackExit => exact scrollbackExit_inBounds h hs
  | scrollbackPageUp => exact scrollbackShow_inBounds h hs
  | scrollbackPageDown => exact scrollbackDown_inBounds h hs
  | scrollbackLineUp =>
      rw [step, scrollbackLineUp] at hs
      split at hs
      · obtain rfl := Except.ok.inj hs
        exact h
      · dsimp only at hs
        split at hs
        · obtain rfl := Except.ok.inj hs
          exact h
        · exact scrollbackShow_inBounds h hs
  | scrollbackLineDown => exact scrollbackDown_inBounds h hs
  | scrollbackHome =>
      rw [step, scrollbackHome] at hs
      split at hs
      · obtain rfl := Except.ok.inj hs
        exact h
      · exact scrollbackShow_inBounds h hs

/-- **The terminal stays in bounds** in every run whose steps fit: the cursor is on the
screen, and nothing behind video memory has changed. -/
theorem tty_inBounds {t₀ : Tty} {tr : List TtyOp} (hrow : t₀.screen.termRow < vgaHeight)
    (hcol : t₀.screen.termCol < vgaWidth)
    (hrun : Reach (Tty.step g) Fits t₀ tr t) : InBounds t₀.screen.vga t.screen :=
  Reach.inv (P := fun t => InBounds t₀.screen.vga t.screen) ⟨hrow, hcol, fun _ _ => rfl⟩
    (fun _ _ _ h hop hs => step_inBounds h hop hs) hrun

/-- A clock on the taskbar row, and back to the text. -/
def clockRun : List TtyOp :=
  [.putsAt [49, 50, 58, 51, 52] 24 70, .cursorSetPos 23 79, .putc 97, .putLine [98] 24, .putc 13,
    .setScrolling false, .cursorSetPos 23 0, .putc 10]

/-- A clock in the taskbar row, drawn over and over. -/
theorem tty_inBounds_clockRun : ∃ t : Tty, Reach (Tty.step .semaphore) Fits {} clockRun t ∧
    InBounds (fun _ => 0) t.screen := by
  obtain ⟨t, hrun, -⟩ :=
    Reach.of_runsTo (Tty.step .semaphore) Fits {} clockRun (fun _ => true) (by decide)
  exact ⟨t, hrun, tty_inBounds (by decide) (by decide) hrun⟩

/-- The terminal does what its arguments say, wherever that is. -/
def OnScreen (_ : Tty) (op : TtyOp) : Prop := OnScreenArgs op

instance (t : Tty) (op : TtyOp) : Decidable (OnScreen t op) :=
  inferInstanceAs (Decidable (OnScreenArgs op))

/-- A newline on the taskbar row and a character: cell 2000 is written. -/
theorem tty_leaves_screen :
    ¬ ∀ (tr : List TtyOp) (t : Tty), Reach (Tty.step .semaphore) OnScreen {} tr t →
      InBounds (fun _ => 0) t.screen := by
  intro hall
  obtain ⟨t, hrun, hp⟩ :=
    Reach.of_runsTo (Tty.step .semaphore) OnScreen {} [.cursorSetPos 24 0, .puts [10, 120]]
    (fun t => decide (t.screen.vga 2000 ≠ 0)) (by decide)
  exact of_decide_eq_true hp ((hall _ t hrun).vga 2000 (by decide))

end Tty

end Doors
