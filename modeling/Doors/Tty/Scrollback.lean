import Doors.Tty.Bounds
import Doors.Tty.Tape

/-!
# Doors.Tty.Scrollback

The rows that scroll off the screen, and the view of them (`Tty::advRow` and the
`scrollback` functions of `kernel/arch/i386/Tty.cc`).

`Session` is the terminal with all the rows that have scrolled off so far, newest
first.  Row `n` of them is the `(n+1)`-th most recent one, and `window` lists the
rows that a view at some offset shows.

* `scrollback_exact` — the ring holds the last 1000 of them, and the view shows a
  window of it;
* `pageUp_covers_iff` — paging up from the live screen shows every row of the ring
  exactly when the ring has at most 23 of them.
-/

namespace Doors

open Cells Run Tty

namespace Screen

/-- The characters of the top row. -/
def topRow (s : Screen) : List (BitVec 8) := (List.range vgaWidth).map fun c => glyph (s.vga c)

/-- The row that `advRow` scrolls off, if any. -/
def advRowOff (s : Screen) : List (List (BitVec 8)) :=
  if uint8 (s.termRow + 1) = rows ∧ s.scrolling = true then [s.topRow] else []

def advColOff (s : Screen) : List (List (BitVec 8)) :=
  if uint8 (s.termCol + 1) = vgaWidth then { s with termCol := 0 }.advRowOff else []

/-- The row that one character scrolls off. -/
def rawPutcOff (s : Screen) (ch : BitVec 8) : List (List (BitVec 8)) :=
  if ch = newline then s.advRowOff
  else if ch = carriageReturn ∨ ch = backspace then []
  else { s with
    vga := set s.vga (s.termRow * vgaWidth + s.termCol) (vgaEntry ch s.termColor) }.advColOff

/-- The rows that a text scrolls off, newest first. -/
def rawPutsOff (s : Screen) : List (BitVec 8) → List (List (BitVec 8))
  | [] => []
  | ch :: str => (s.rawPutc ch).rawPutsOff str ++ s.rawPutcOff ch

end Screen

namespace Tty

/-- `Tty::scrollbackSize`. -/
def scrollbackSize (t : Tty) : Nat := t.screen.scrollbackCount

/-- `Tty::scrollbackLine`: the array that the pointer leads to. -/
def scrollbackLine (t : Tty) (n : Int) : Option (List (BitVec 8)) :=
  if n < 0 ∨ n ≥ t.screen.scrollbackCount then none
  else
    let idx := ((t.screen.scrollbackHead : Int) - 1 - n + scrollbackLines).tmod scrollbackLines
    some ((List.range (vgaWidth + 1)).map (t.screen.scrollbackBuf idx.toNat))

/-- The rows that an operation scrolls off, newest first. -/
def scrolledOff (t : Tty) : TtyOp → List (List (BitVec 8))
  | .putc ch => t.under.rawPutcOff ch
  | .puts str => t.screen.rawPutsOff str
  | .putsAt str row col =>
      Screen.rawPutsOff { t.screen with termRow := row.toNat, termCol := col.toNat } str
  | _ => []

/-- The lines of the view at `offset`, oldest first: up to 23 consecutive ones that
end at the `offset`-th most recent. -/
def window (count offset : Nat) : List Nat :=
  (((List.range count).drop (offset - 1)).take scrollbackViewHeight).reverse

/-- A cell with no character is drawn as a blank. -/
def visible (ch : BitVec 8) : BitVec 8 := if ch ≠ 0 then ch else space

/-- **What the view shows**: rows 1 to 23 are the given lines, and blank below them. -/
def Shows (log : List (List (BitVec 8))) (lines : List Nat) (s : Screen) : Prop :=
  ∀ r < scrollbackViewHeight, ∀ c < vgaWidth, s.vga ((r + 1) * vgaWidth + c) =
    vgaEntry (match lines[r]? with
      | some n => visible ((log.getD n []).getD c 0)
      | none => space) defaultColor

/-- The lines that are on the screen. -/
def shownLines (t : Tty) : List Nat :=
  if t.scrollbackActive then window t.screen.scrollbackCount t.scrollbackOffset.toNat else []

/-- **The ring of lines** holds the newest rows of `log`. -/
structure Ring (log : List (List (BitVec 8))) (s : Screen) : Prop where
  count : s.scrollbackCount = min scrollbackLines log.length
  head : s.scrollbackHead = log.length % scrollbackLines
  cells : ∀ n < scrollbackLines, ∀ row, log[n]? = some row →
    (List.range (vgaWidth + 1)).map (s.scrollbackBuf
      ((s.scrollbackHead + (scrollbackLines - 1) - n) % scrollbackLines)) = row ++ [0]

end Tty

/-- The terminal, and the rows that scrolled off it, newest first. -/
structure Session where
  tty : Tty := {}
  log : List (List (BitVec 8)) := []

namespace Session

def step (g : Locking) (s : Session) (op : TtyOp) : Except Stuck Session := do
  let t ← s.tty.step g op
  .ok ⟨t, s.tty.scrolledOff op ++ s.log⟩

/-- Nothing is written over the view. -/
def Quiet (s : Session) (op : TtyOp) : Prop := Respects s.tty op

instance (s : Session) (op : TtyOp) : Decidable (Quiet s op) :=
  inferInstanceAs (Decidable (Respects _ _))

/-- **The scrollback is right**. -/
structure Faithful (s : Session) : Prop where
  ring : Ring s.log s.tty.screen
  view : s.tty.scrollbackActive = true →
    (1 ≤ s.tty.scrollbackOffset ∧ s.tty.scrollbackOffset ≤
      max 1 ((s.tty.screen.scrollbackCount : Int) - 22)) ∧
      Shows s.log s.tty.shownLines s.tty.screen

end Session

/-! ## the ring -/

namespace Screen

/-- Exchanging rows changes video memory only. -/
theorem foldl_swapRows_eq (s : Screen) (l : List Nat) :
    l.foldl (fun s r => s.swapRows r (r + 1)) s =
      { s with vga := (l.foldl (fun s r => s.swapRows r (r + 1)) s).vga } := by
  induction l generalizing s with
  | nil => rfl
  | cons r l ih =>
      rw [List.foldl_cons, ih]
      rfl

/-- The line that `scroll` saves. -/
theorem scroll_cells (s : Screen) (i : Nat) :
    (List.range (vgaWidth + 1)).map (s.scroll.scrollbackBuf i) =
    if i = s.scrollbackHead then s.topRow ++ [0]
      else (List.range (vgaWidth + 1)).map (s.scrollbackBuf i) := by
  unfold scroll
  dsimp only
  rw [foldl_swapRows_eq]
  show (List.range (vgaWidth + 1)).map (set s.scrollbackBuf s.scrollbackHead _ i) = _
  by_cases hi : i = s.scrollbackHead
  · subst hi
    rw [set_self, if_pos rfl, List.range_succ, List.map_append]
    exact congrArg (· ++ [0]) (List.map_congr_left fun c hc => if_pos (List.mem_range.mp hc))
  · rw [set_of_ne _ _ hi, if_neg hi]

theorem scroll_head (s : Screen) : s.scroll.scrollbackHead =
    (s.scrollbackHead + 1) % scrollbackLines := by
  unfold scroll
  dsimp only
  rw [foldl_swapRows_eq]
  rfl

theorem scroll_count (s : Screen) :
    s.scroll.scrollbackCount = if s.scrollbackCount < scrollbackLines then s.scrollbackCount + 1
      else s.scrollbackCount := by
  unfold scroll
  dsimp only
  rw [foldl_swapRows_eq]
  rfl

end Screen

namespace Tty

variable {t t' : Tty} {s : Screen} {log : List (List (BitVec 8))} {g : Locking}
  {count offset n r : Nat}

/-- **Scrolling** puts the top row into the ring. -/
theorem Ring.scroll (h : Ring log s) : Ring (s.topRow :: log) s.scroll where
  count := by
    have hcount := h.count
    rw [Screen.scroll_count, List.length_cons]
    split
    · omega
    · omega
  head := by
    have hhead := h.head
    rw [Screen.scroll_head, List.length_cons]
    unfold scrollbackLines at *
    omega
  cells := by
    intro n hn row hrow
    have hhead := h.head
    rw [Screen.scroll_head, Screen.scroll_cells]
    unfold scrollbackLines at *
    cases n with
    | zero =>
        rw [if_pos (by omega)]
        obtain rfl := Option.some.inj hrow
        rfl
    | succ n =>
        rw [if_neg (by omega), ← h.cells n (by unfold scrollbackLines; omega) row hrow]
        unfold scrollbackLines
        congr 2
        omega

theorem Ring.advRow (h : Ring log s) : Ring (s.advRowOff ++ log) s.advRow := by
  unfold Screen.advRow Screen.advRowOff
  dsimp only
  by_cases hrow : uint8 (s.termRow + 1) = rows
  · by_cases hscroll : s.scrolling = true
    · rw [if_pos hrow, if_pos hscroll, if_pos ⟨hrow, hscroll⟩]
      exact Ring.scroll (s := { s with termRow := uint8 (s.termRow + 1) })
        ⟨h.count, h.head, h.cells⟩
    · rw [if_pos hrow, if_neg hscroll, if_neg fun hboth => hscroll hboth.2]
      exact ⟨h.count, h.head, h.cells⟩
  · rw [if_neg hrow, if_neg fun hboth => hrow hboth.1]
    exact ⟨h.count, h.head, h.cells⟩

theorem Ring.advCol (h : Ring log s) : Ring (s.advColOff ++ log) s.advCol := by
  unfold Screen.advCol Screen.advColOff
  dsimp only
  by_cases hcol : uint8 (s.termCol + 1) = vgaWidth
  · rw [if_pos hcol, if_pos hcol]
    exact Ring.advRow ⟨h.count, h.head, h.cells⟩
  · rw [if_neg hcol, if_neg hcol]
    exact ⟨h.count, h.head, h.cells⟩

theorem Ring.rawPutc (h : Ring log s) (ch : BitVec 8) :
    Ring (s.rawPutcOff ch ++ log) (s.rawPutc ch) := by
  unfold Screen.rawPutc Screen.rawPutcOff
  by_cases hnl : ch = newline
  · rw [if_pos hnl, if_pos hnl]
    have hadv := h.advRow
    exact ⟨hadv.count, hadv.head, hadv.cells⟩
  rw [if_neg hnl, if_neg hnl]
  by_cases hcr : ch = carriageReturn
  · rw [if_pos hcr, if_pos (.inl hcr)]
    exact ⟨h.count, h.head, h.cells⟩
  rw [if_neg hcr]
  by_cases hbs : ch = backspace
  · rw [if_pos hbs, if_pos (.inr hbs), Screen.decCol_eq]
    exact ⟨h.count, h.head, h.cells⟩
  · rw [if_neg hbs, if_neg (not_or.mpr ⟨hcr, hbs⟩)]
    exact Ring.advCol ⟨h.count, h.head, h.cells⟩

/-- **Output** puts the rows that scroll off into the ring. -/
theorem Ring.rawPuts (h : Ring log s) (str : List (BitVec 8)) :
    Ring (s.rawPutsOff str ++ log) (s.rawPuts str) := by
  induction str generalizing s log with
  | nil => exact h
  | cons ch str ih =>
      rw [Screen.rawPutsOff, List.append_assoc]
      exact ih (h.rawPutc ch)

/-! ## the view -/

theorem mem_window : n ∈ window count offset ↔
    offset - 1 ≤ n ∧ n < offset - 1 + scrollbackViewHeight ∧ n < count := by
  unfold window
  rw [List.mem_reverse, List.mem_take_iff_getElem]
  simp only [List.getElem_drop, List.getElem_range, List.length_drop, List.length_range]
  constructor
  · rintro ⟨i, hi, rfl⟩
    omega
  · rintro ⟨h₁, h₂, h₃⟩
    exact ⟨n - (offset - 1), by omega, by omega⟩

theorem window_getElem? : (window count offset)[r]? =
    if r < min scrollbackViewHeight (count - (offset - 1)) then
      some (offset - 1 + (min scrollbackViewHeight (count - (offset - 1)) - 1 - r)) else none := by
  have hlen : (((List.range count).drop (offset - 1)).take scrollbackViewHeight).length =
      min scrollbackViewHeight (count - (offset - 1)) := by
    simp
  unfold window
  split
  · next hr =>
      rw [List.getElem?_reverse (by omega), hlen, List.getElem?_take_of_lt (by omega),
        List.getElem?_drop, List.getElem?_range (by omega)]
  · next hr => exact List.getElem?_eq_none (by rw [List.length_reverse]; omega)

/-- A character of a line of the ring. -/
theorem Ring.cell {row : List (BitVec 8)} {c : Nat} (h : Ring log s) (hn : n < scrollbackLines)
    (hrow : log[n]? = some row) (hc : c < vgaWidth) :
    s.scrollbackBuf ((s.scrollbackHead + (scrollbackLines - 1) - n) % scrollbackLines) c =
      row.getD c 0 := by
  have hcells := h.cells n hn row hrow
  have hlen := congrArg List.length hcells
  rw [List.length_map, List.length_range, List.length_append, List.length_singleton] at hlen
  have hat := congrArg (·[c]?) hcells
  simp only [List.getElem?_map] at hat
  rw [List.getElem?_range (by omega), List.getElem?_append_left (by omega)] at hat
  rw [List.getD, ← hat]
  rfl

/-- The place of a line in the ring, as the source computes it. -/
theorem ring_index {head : Nat} (hhead : head < scrollbackLines) (hn : n < scrollbackLines) :
    (((head : Int) - (n + 1) + scrollbackLines).tmod scrollbackLines).toNat =
      (head + (scrollbackLines - 1) - n) % scrollbackLines := by
  unfold scrollbackLines at *
  rw [Int.tmod_eq_emod_of_nonneg (by omega)]
  omega

/-- **Drawing the view** shows the window down to the bottom line. -/
theorem view_shows {top bottom : Int} (h : Ring log s) (hle : top ≤ s.scrollbackCount)
    (htop : top = s.scrollbackCount ∨ 23 ≤ top) (hzero : 0 ≤ top)
    (hbottom : bottom = max 1 (top - 22)) :
    Shows log (window s.scrollbackCount bottom.toNat) (view s top bottom) := by
  intro r hr c hc
  have hcount := h.count
  have hhead : s.scrollbackHead < scrollbackLines := by
    rw [h.head]
    exact Nat.mod_lt _ (by decide)
  have hrow : ((r + 1) * vgaWidth + c) / vgaWidth = r + 1 := by
    unfold vgaWidth at *
    omega
  have hcol : ((r + 1) * vgaWidth + c) % vgaWidth = c := by
    unfold vgaWidth at *
    omega
  unfold view
  simp only [hrow, hcol]
  rw [if_neg (by omega), if_pos (by unfold scrollbackViewHeight at hr; omega)]
  unfold scrollbackViewHeight rows at hr
  by_cases hblank : top - ((r + 1 : Nat) - 1 : Int) > s.scrollbackCount ∨
    top - ((r + 1 : Nat) - 1 : Int) < bottom
  · have hout : (window s.scrollbackCount bottom.toNat)[r]? = none := by
      rw [window_getElem?, if_neg]
      unfold scrollbackViewHeight rows
      omega
    rw [if_pos hblank, hout]
  · -- the line that row `r + 1` shows
    obtain ⟨n, hn⟩ : ∃ n : Nat, (n : Int) + 1 = top - ((r + 1 : Nat) - 1 : Int) :=
      ⟨(top - r - 1).toNat, by omega⟩
    have hin : (window s.scrollbackCount bottom.toNat)[r]? = some n := by
      rw [window_getElem?]
      unfold scrollbackViewHeight rows
      rw [if_pos (by omega), Option.some.injEq]
      omega
    have hlt : n < scrollbackLines := by omega
    obtain ⟨row, hat⟩ : ∃ row, log[n]? = some row := ⟨_, List.getElem?_eq_getElem (by omega)⟩
    rw [if_neg hblank, hin, ← hn, ring_index hhead hlt, h.cell hlt hat hc]
    dsimp only
    rw [List.getD_eq_getElem?_getD (l := log), hat]
    rfl

theorem acquire_eq (h : t.acquire g = .ok t') : ∃ l, t' = { t with lock := l } := by
  unfold acquire at h
  cases g with
  | granted => exact ⟨t.lock, (Except.ok.inj h).symm⟩
  | semaphore =>
      dsimp only at h
      split at h
      · exact ⟨_, (Except.ok.inj h).symm⟩
      · contradiction

theorem release_eq (t : Tty) (g : Locking) : ∃ l, t.release g = { t with lock := l } := by
  cases g with
  | granted => exact ⟨t.lock, rfl⟩
  | semaphore => exact ⟨_, rfl⟩

theorem locked_eq {f : Screen → Screen} (h : t.locked g f = .ok t') :
    ∃ l, t' = { t with screen := f t.screen, lock := l } := by
  obtain ⟨u, hu, h⟩ := bind_eq_ok.mp h
  obtain ⟨l, rfl⟩ := acquire_eq hu
  obtain ⟨l', hl'⟩ := release_eq { t with screen := f t.screen, lock := l } g
  exact ⟨l', (Except.ok.inj h).symm.trans hl'⟩

/-- What `scrollbackShow` comes to. -/
theorem scrollbackShow_eq {offset : Int} (h : t.scrollbackShow g offset = .ok t') :
    (offset < 1 ∧ ∃ l, t' = { t with lock := l }) ∨ 1 ≤ offset ∧ ∃ top bottom : Int,
      top = min (min offset t.screen.scrollbackCount + 22) t.screen.scrollbackCount ∧
        bottom = max 1 (top - 22) ∧
        t'.screen = view t.screen top bottom ∧ t'.scrollbackActive = true ∧
          t'.scrollbackOffset = bottom := by
  obtain ⟨u, hu, h⟩ := bind_eq_ok.mp h
  obtain ⟨l, rfl⟩ := acquire_eq hu
  dsimp only at h
  split at h
  · next hoff =>
      obtain ⟨l', hl'⟩ := release_eq { t with lock := l } g
      exact .inl ⟨hoff, l', (Except.ok.inj h).symm.trans hl'⟩
  · next hoff =>
      right
      generalize hlow : (if offset > (t.screen.scrollbackCount : Int)
        then (t.screen.scrollbackCount : Int) else offset) = low at h
      generalize htop : (if low + scrollbackViewHeight - 1 > (t.screen.scrollbackCount : Int)
        then (t.screen.scrollbackCount : Int)
        else low + scrollbackViewHeight - 1) = top at h
      generalize hbot : (if top - scrollbackViewHeight + 1 < 1 then 1
        else top - scrollbackViewHeight + 1) = bottom at h
      unfold scrollbackViewHeight rows at htop hbot
      refine ⟨by omega, top, bottom, ?_, ?_, ?_⟩
      · split at hlow
        · split at htop
          · omega
          · omega
        · split at htop
          · omega
          · omega
      · split at hbot
        · omega
        · omega
      · rw [← Except.ok.inj h]
        split
        · cases g with
          | granted => exact ⟨rfl, rfl, rfl⟩
          | semaphore => exact ⟨rfl, rfl, rfl⟩
        · cases g with
          | granted => exact ⟨rfl, rfl, rfl⟩
          | semaphore => exact ⟨rfl, rfl, rfl⟩

/-- What `scrollbackExit` comes to. -/
theorem scrollbackExit_eq (h : t.scrollbackExit g = .ok t') :
    t'.screen = t.under ∧ t'.scrollbackActive = false := by
  obtain ⟨u, hu, h⟩ := bind_eq_ok.mp h
  obtain ⟨l, rfl⟩ := acquire_eq hu
  dsimp only at h
  split at h
  · next ha =>
      have hf := Bool.eq_false_iff.mpr ha
      obtain ⟨l', hl'⟩ := release_eq { t with lock := l } g
      rw [← Except.ok.inj h, hl', under_inactive hf]
      exact ⟨rfl, hf⟩
  · next ha =>
      obtain ⟨l', hl'⟩ := release_eq
        { t with
          scrollbackActive := false, scrollbackOffset := 0,
          screen := restore t.savedScreen t.screen, lock := l } g
      rw [← Except.ok.inj h, hl', under_active (not_not.mp ha)]
      exact ⟨rfl, rfl⟩

theorem under_ring (h : Ring log t.screen) : Ring log t.under := by
  unfold under
  split
  · exact ⟨h.count, h.head, h.cells⟩
  · exact h

end Tty

/-! ## runs -/

namespace Session

variable {g : Locking} {s s' : Session} {t t' : Tty} {log : List (List (BitVec 8))}
  {tr : List TtyOp}

/-- Showing a page keeps the scrollback right. -/
theorem Faithful.page {offset : Int} (h : Faithful ⟨t, log⟩)
    (hs : t.scrollbackShow g offset = .ok t') : Faithful ⟨t', log⟩ := by
  rcases scrollbackShow_eq hs with ⟨hoff, l, rfl⟩ |
    ⟨hoff, top, bottom, htop, hbottom, hscreen, hactive, hoffset⟩
  · exact ⟨h.ring, h.view⟩
  · have hring : Ring log t'.screen := by
      rw [hscreen]
      exact ⟨h.ring.count, h.ring.head, h.ring.cells⟩
    have hcount : t'.screen.scrollbackCount = t.screen.scrollbackCount := by rw [hscreen]; rfl
    refine ⟨hring, fun _ => ⟨?_, ?_⟩⟩
    · dsimp only
      rw [hoffset, hcount]
      omega
    · have hlines : t'.shownLines = window t.screen.scrollbackCount bottom.toNat := by
        unfold shownLines
        rw [if_pos hactive, hcount, hoffset]
      dsimp only
      rw [hlines, hscreen]
      exact view_shows h.ring (by omega) (by omega) (by omega) hbottom

theorem Faithful.exit (h : Faithful ⟨t, log⟩) (hs : t.scrollbackExit g = .ok t') :
    Faithful ⟨t', log⟩ := by
  obtain ⟨hscreen, hactive⟩ := scrollbackExit_eq hs
  refine ⟨?_, fun ha => ?_⟩
  · dsimp only
    rw [hscreen]
    exact under_ring h.ring
  · rw [hactive] at ha
    contradiction

theorem Faithful.down {n : Nat} (h : Faithful ⟨t, log⟩) (hs : t.scrollbackDown g n = .ok t') :
    Faithful ⟨t', log⟩ := by
  unfold scrollbackDown at hs
  split at hs
  · obtain rfl := Except.ok.inj hs
    exact h
  · dsimp only at hs
    split at hs
    · exact h.exit hs
    · exact h.page hs

/-- A character leaves the view before it is written. -/
theorem Faithful.putc {ch : BitVec 8} (h : Faithful ⟨t, log⟩) (hs : t.putc g ch = .ok t') :
    Faithful ⟨t', t.under.rawPutcOff ch ++ log⟩ := by
  have hring := (under_ring h.ring).rawPutc ch
  suffices t'.screen = t.under.rawPutc ch ∧ t'.scrollbackActive = false by
    refine ⟨?_, fun ha => ?_⟩
    · dsimp only
      rw [this.1]
      exact hring
    · rw [this.2] at ha
      contradiction
  obtain ⟨u, hu, hs⟩ := bind_eq_ok.mp hs
  obtain ⟨l, rfl⟩ := acquire_eq hu
  dsimp only at hs
  split at hs
  · obtain ⟨w, hw, hs⟩ := bind_eq_ok.mp hs
    obtain ⟨hscreen, hactive⟩ := scrollbackExit_eq hw
    obtain ⟨l', hl'⟩ := release_eq { w with screen := w.screen.rawPutc ch } g
    rw [← Except.ok.inj hs, hl']
    exact ⟨by rw [hscreen]; rfl, hactive⟩
  · next ha =>
      have hf := Bool.eq_false_iff.mpr ha
      obtain ⟨l', hl'⟩ := release_eq { t with lock := l, screen := t.screen.rawPutc ch } g
      rw [← Except.ok.inj hs]
      refine ⟨?_, ?_⟩
      · rw [under_inactive hf]
        exact congrArg Tty.screen hl'
      · exact (congrArg Tty.scrollbackActive hl').trans hf

/-- Output without a view. -/
theorem Faithful.write {f : Screen → Screen} {o : List (List (BitVec 8))}
    (hinactive : t.scrollbackActive = false)
    (hring : Ring (o ++ log) (f t.screen)) (hs : t.locked g f = .ok t') :
    Faithful ⟨t', o ++ log⟩ := by
  obtain ⟨l, rfl⟩ := locked_eq hs
  refine ⟨hring, fun ha => ?_⟩
  rw [show t.scrollbackActive = true from ha] at hinactive
  contradiction

/-- Operations that leave the ring and video memory alone. -/
theorem Faithful.keep {f : Screen → Screen} (h : Faithful ⟨t, log⟩)
    (hvga : (f t.screen).vga = t.screen.vga)
    (hbuf : (f t.screen).scrollbackBuf = t.screen.scrollbackBuf)
    (hhead : (f t.screen).scrollbackHead = t.screen.scrollbackHead)
    (hcount : (f t.screen).scrollbackCount = t.screen.scrollbackCount)
    (hs : t.locked g f = .ok t') : Faithful ⟨t', log⟩ := by
  obtain ⟨l, rfl⟩ := locked_eq hs
  refine ⟨⟨?_, ?_, ?_⟩, fun ha => ?_⟩
  · exact hcount.trans h.ring.count
  · exact hhead.trans h.ring.head
  · dsimp only
    rw [hbuf, hhead]
    exact h.ring.cells
  · obtain ⟨hoff, hshows⟩ := h.view ha
    refine ⟨?_, fun r hr c hc => ?_⟩
    · dsimp only at hoff ⊢
      rw [hcount]
      exact hoff
    · have hcell := hshows r hr c hc
      unfold shownLines at hcell ⊢
      dsimp only at hcell ⊢
      rw [hvga, hcount]
      exact hcell

/-- **One step**: the ring gets the rows that scroll off, and the view shows what it should. -/
theorem step_faithful {op : TtyOp} (h : Faithful s) (hquiet : Quiet s op)
    (hs : s.step g op = .ok s') : Faithful s' := by
  obtain ⟨t, log⟩ := s
  obtain ⟨t', ht, hs⟩ := bind_eq_ok.mp hs
  obtain rfl := Except.ok.inj hs
  have hinactive : Overwrites op → t.scrollbackActive = false := fun hover =>
    Bool.eq_false_iff.mpr fun ha => hquiet ha hover
  have hsame : ∀ screen : Screen, screen.scrollbackBuf = t.screen.scrollbackBuf →
    screen.scrollbackHead = t.screen.scrollbackHead →
      screen.scrollbackCount = t.screen.scrollbackCount → Ring ([] ++ log) screen := by
    intro screen hbuf hhead hcount
    refine ⟨hcount.trans h.ring.count, hhead.trans h.ring.head, ?_⟩
    rw [hbuf, hhead]
    exact h.ring.cells
  cases op with
  | putc ch => exact h.putc ht
  | putcAt ch row col =>
      rw [step_onScreen rfl] at ht
      exact Faithful.write (o := []) (hinactive trivial) (hsame _ rfl rfl rfl) ht
  | puts str =>
      rw [step_onScreen rfl] at ht
      exact Faithful.write (f := fun s => s.rawPuts str) (hinactive trivial) (h.ring.rawPuts str) ht
  | putsAt str row col =>
      rw [step_onScreen rfl] at ht
      have hring : Ring log { t.screen with termRow := row.toNat, termCol := col.toNat } :=
        hsame _ rfl rfl rfl
      exact Faithful.write
        (f := fun s => Screen.rawPuts { s with termRow := row.toNat, termCol := col.toNat } str)
        (hinactive trivial) (hring.rawPuts str) ht
  | putLine str row =>
      rw [step_onScreen rfl] at ht
      exact Faithful.write (o := []) (hinactive trivial) (hsame _ rfl rfl rfl) ht
  | cls =>
      rw [step_onScreen rfl] at ht
      exact Faithful.write (o := []) (hinactive trivial) (hsame _ rfl rfl rfl) ht
  | cursorSetPos | setColor | setScrolling | getCursor =>
      rw [step_onScreen rfl] at ht
      exact h.keep rfl rfl rfl rfl ht
  | scrollbackShow offset => exact h.page ht
  | scrollbackExit => exact h.exit ht
  | scrollbackPageUp => exact h.page ht
  | scrollbackPageDown => exact h.down ht
  | scrollbackLineDown => exact h.down ht
  | scrollbackLineUp =>
      simp only [Tty.step, scrollbackLineUp] at ht
      split at ht
      · obtain rfl := Except.ok.inj ht
        exact h
      · split at ht
        · obtain rfl := Except.ok.inj ht
          exact h
        · exact h.page ht
  | scrollbackHome =>
      simp only [Tty.step, scrollbackHome] at ht
      split at ht
      · obtain rfl := Except.ok.inj ht
        exact h
      · exact h.page ht

/-- The terminal as it is initialised, on any screen. -/
theorem start_faithful (hcount : t.screen.scrollbackCount = 0) (hhead : t.screen.scrollbackHead = 0)
    (hinactive : t.scrollbackActive = false) : Faithful ⟨t, []⟩ where
  ring := ⟨hcount, hhead, fun _ _ _ hrow => nomatch hrow⟩
  view ha := by
    rw [show t.scrollbackActive = true from ha] at hinactive
    contradiction

/-- A line of the ring, by its number. -/
theorem scrollbackLine_eq {n : Nat} (h : Ring log t.screen) (hn : n < t.scrollbackSize) :
    ∃ row, log[n]? = some row ∧ t.scrollbackLine n = some (row ++ [0]) := by
  have hcount := h.count
  unfold scrollbackSize at hn
  have hhead : t.screen.scrollbackHead < scrollbackLines := by
    rw [h.head]
    exact Nat.mod_lt _ (by decide)
  have hlt : n < scrollbackLines := by omega
  obtain ⟨row, hrow⟩ : ∃ row, log[n]? = some row := ⟨_, List.getElem?_eq_getElem (by omega)⟩
  have hindex := ring_index hhead hlt
  rw [show (t.screen.scrollbackHead : Int) - (n + 1) + scrollbackLines =
    t.screen.scrollbackHead - 1 - n + scrollbackLines by omega] at hindex
  refine ⟨row, hrow, ?_⟩
  unfold scrollbackLine
  rw [if_neg (by omega)]
  dsimp only
  rw [hindex, h.cells n hlt row hrow]

/-- **Scrollback**: after every run that writes nothing over the view, the ring holds
the rows that scrolled off last, and an active view shows a window of them. -/
theorem scrollback_exact (hcount : t.screen.scrollbackCount = 0)
    (hhead : t.screen.scrollbackHead = 0)
    (hinactive : t.scrollbackActive = false) (hr : Reach (step g) Quiet ⟨t, []⟩ tr s) :
    (s.tty.scrollbackSize = min 1000 s.log.length ∧
      ∀ n : Nat, n < s.tty.scrollbackSize → ∃ row, s.log[n]? = some row ∧
        s.tty.scrollbackLine n = some (row ++ [0])) ∧
    (s.tty.scrollbackActive = true →
      (1 ≤ s.tty.scrollbackOffset ∧ s.tty.scrollbackOffset ≤
        max 1 ((s.tty.scrollbackSize : Int) - 22)) ∧
        Shows s.log (window s.tty.scrollbackSize s.tty.scrollbackOffset.toNat) s.tty.screen) := by
  have h : Faithful s := hr.inv (start_faithful hcount hhead hinactive) fun s op s' hs hc hnext =>
    step_faithful hs hc hnext
  refine ⟨⟨h.ring.count, fun n hn => scrollbackLine_eq h.ring hn⟩, fun ha => ?_⟩
  obtain ⟨hoff, hshows⟩ := h.view ha
  unfold shownLines at hshows
  rw [if_pos ha] at hshows
  exact ⟨hoff, hshows⟩

/-- Some rows, and a look at those that scrolled off. -/
def pagesRun : List TtyOp :=
  [.puts (List.replicate 25 newline), .scrollbackShow 3, .scrollbackPageUp, .scrollbackLineDown,
    .scrollbackHome, .scrollbackExit, .putc 97]

set_option maxRecDepth 10000 in
theorem scrollback_exact_pagesRun : ∃ s : Session, Reach (step .semaphore) Quiet {} pagesRun s ∧
    s.tty.scrollbackSize = min 1000 s.log.length := by
  obtain ⟨s, hr, -⟩ :=
    Reach.of_runsTo (step .semaphore) Quiet {} pagesRun (fun _ => true) (by decide)
  exact ⟨s, hr, (scrollback_exact rfl rfl rfl hr).1.1⟩

end Session

/-! ## paging up -/

namespace Tty

/-- Nothing but PageUp is pressed. -/
def PageUps (_ : Tty) (op : TtyOp) : Prop := op = .scrollbackPageUp

instance (t : Tty) (op : TtyOp) : Decidable (PageUps t op) := inferInstanceAs (Decidable (_ = _))

variable {t t' : Tty}

/-- Past the newest line: what one press of PageUp keeps. -/
structure Skipping (c : Nat) (t : Tty) : Prop where
  count : t.screen.scrollbackCount = c
  offset : t.scrollbackActive = true → 2 ≤ t.scrollbackOffset

theorem Skipping.pageUp {c : Nat} {g : Locking} (hc : 24 ≤ c) (h : Skipping c t)
    (hs : t.scrollbackPageUp g = .ok t') : Skipping c t' := by
  have hcount := h.count
  rcases scrollbackShow_eq hs with ⟨hoff, l, rfl⟩ |
    ⟨-, top, bottom, htop, hbottom, hscreen, -, hoffset⟩
  · exact ⟨h.count, h.offset⟩
  · refine ⟨by rw [hscreen]; exact hcount, fun _ => ?_⟩
    rw [hoffset, hbottom]
    by_cases ha : t.scrollbackActive = true
    · have hold := h.offset ha
      rw [if_pos ha] at htop
      unfold scrollbackViewHeight rows at htop
      split at htop
      · omega
      · omega
    · rw [if_neg ha] at htop
      unfold scrollbackViewHeight rows at htop
      split at htop
      · omega
      · omega

/-- The first page of a ring of at most 23 lines has them all. -/
theorem pageUp_all {n : Nat} (h : Unlocked t) (hinactive : t.scrollbackActive = false)
    (hcount : t.screen.scrollbackCount ≤ 23)
    (hn : n < t.screen.scrollbackCount) : ∃ t', t.scrollbackPageUp .semaphore = .ok t' ∧
    n ∈ t'.shownLines := by
  have hreturns : Returns (t.step .semaphore .scrollbackPageUp) := step_returns h id
  obtain ⟨t', hpage, -⟩ := hreturns
  refine ⟨t', hpage, ?_⟩
  have hlow : (if (0 : Int) + scrollbackViewHeight > t.screen.scrollbackCount
    then (t.screen.scrollbackCount : Int)
      else 0 + scrollbackViewHeight) = t.screen.scrollbackCount := by
    unfold scrollbackViewHeight rows
    split
    · rfl
    · omega
  have hshow : t.scrollbackShow .semaphore t.screen.scrollbackCount = .ok t' := by
    rw [← hlow, ← hpage, step, scrollbackPageUp, hinactive]
    rfl
  rcases scrollbackShow_eq hshow with ⟨hoff, -⟩ |
    ⟨-, top, bottom, htop, hbottom, hscreen, hactive, hoffset⟩
  · omega
  · have hcount' : t'.screen.scrollbackCount = t.screen.scrollbackCount := by rw [hscreen]; rfl
    unfold shownLines
    rw [if_pos hactive, hcount', hoffset, mem_window]
    unfold scrollbackViewHeight rows
    omega

/-- Of more than 23 lines the newest is on no page. -/
theorem pageUp_misses {tr : List TtyOp} (hinactive : t.scrollbackActive = false)
    (hmany : 24 ≤ t.scrollbackSize)
    (hr : Reach (step .semaphore) PageUps t tr t') : 0 ∉ t'.shownLines := by
  have hskip : Skipping t.scrollbackSize t' := by
    refine hr.inv ⟨rfl, fun ha => ?_⟩ fun s op s' hs hop hnext => ?_
    · rw [hinactive] at ha
      contradiction
    · obtain rfl : op = .scrollbackPageUp := hop
      exact hs.pageUp hmany hnext
  intro hmem
  unfold shownLines at hmem
  split at hmem
  · next ha =>
      have hoff := hskip.offset ha
      have := (mem_window.mp hmem).1
      omega
  · simp at hmem

/-- **Paging up** from the live screen shows every line of the ring exactly when the
ring has at most 23 lines: the first page ends 22 lines above the newest one. -/
theorem pageUp_covers_iff (h : Unlocked t) (hinactive : t.scrollbackActive = false) :
    (∀ n < t.scrollbackSize, ∃ tr t', Reach (step .semaphore) PageUps t tr t' ∧ n ∈ t'.shownLines) ↔
      t.scrollbackSize ≤ 23 := by
  constructor
  · intro hall
    by_contra hmany
    obtain ⟨tr, t', hr, hmem⟩ := hall 0 (by omega)
    exact pageUp_misses hinactive (by omega) hr hmem
  · intro hcount n hn
    obtain ⟨t', hs, hmem⟩ := pageUp_all h hinactive hcount hn
    exact ⟨[.scrollbackPageUp], t', .snoc .nil rfl hs, hmem⟩

set_option maxRecDepth 20000 in
/-- Forty newlines: seventeen lines are in the ring, and each is on a page. -/
theorem pageUp_covers_iff_seventeen :
    ∃ t : Tty, (∃ tr, Reach (step .semaphore) Free {} tr t) ∧ t.scrollbackSize = 17 ∧
      ∀ n < t.scrollbackSize, ∃ tr t', Reach (step .semaphore) PageUps t tr t' ∧
        n ∈ t'.shownLines := by
  obtain ⟨t, hr, hp⟩ :=
    Reach.of_runsTo (step .semaphore) Free {} [.puts (List.replicate 40 newline)]
    (fun t => decide (Unlocked t ∧ t.scrollbackActive = false ∧ t.scrollbackSize = 17)) (by decide)
  obtain ⟨hlock, hinactive, hsize⟩ := of_decide_eq_true hp
  exact ⟨t, ⟨_, hr⟩, hsize, (pageUp_covers_iff hlock hinactive).mpr (by omega)⟩

set_option maxRecDepth 20000 in
/-- Forty-seven newlines: the newest of the 24 lines in the ring is on no page. -/
theorem pageUp_skips :
    ¬ ∀ (t : Tty) (tr : List TtyOp), Reach (step .semaphore) Free {} tr t →
      t.scrollbackActive = false →
      ∀ n < t.scrollbackSize, ∃ tr t', Reach (step .semaphore) PageUps t tr t' ∧
        n ∈ t'.shownLines := by
  intro hall
  obtain ⟨t, hr, hp⟩ :=
    Reach.of_runsTo (step .semaphore) Free {} [.puts (List.replicate 47 newline)]
    (fun t => decide (t.scrollbackActive = false ∧ t.scrollbackSize = 24)) (by decide)
  obtain ⟨hinactive, hsize⟩ := of_decide_eq_true hp
  obtain ⟨tr, t', hpages, hmem⟩ := hall t _ hr hinactive 0 (by omega)
  exact pageUp_misses hinactive (by omega) hpages hmem

end Tty

end Doors
