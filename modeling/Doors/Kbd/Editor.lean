import Doors.Kbd.ReadLine

/-!
# Doors.Kbd.Editor

A line editor on a text and a cursor, and that `Kbd::readLine` is one.

`Ref` is the reference: it knows neither counters nor the ring of the history nor the
terminal.  A `Session` is a run of `readLine`: rounds of its loop, with keys that
arrive in between.  `readLine_refines` follows the reference through every session.
-/

namespace Doors.Kbd

open Tty

/-! ## the reference -/

/-- What the editor consumes. -/
inductive Event where
  | up
  | down
  | left
  | right
  | char (ch : BitVec 8)
  deriving DecidableEq

/-- A text with a cursor in it; `depth` counts how far back in the history the
text is from, 0 when it is not from there. -/
structure Ref where
  text : Line
  cursor : Nat
  le : cursor ≤ text.length
  depth : Nat

namespace Ref

variable (r : Ref)

def empty (depth : Nat) : Ref := ⟨[], 0, Nat.le_refl _, depth⟩

def insert (ch : BitVec 8) : Ref where
  text := r.text.take r.cursor ++ ch :: r.text.drop r.cursor
  cursor := r.cursor + 1
  le := by
    have := r.le
    simp
    omega
  depth := r.depth

/-- The text without the character at `i`; the cursor goes to `i`. -/
def delete (i : Nat) (hi : i < r.text.length) : Ref where
  text := r.text.eraseIdx i
  cursor := i
  le := by
    rw [List.length_eraseIdx_of_lt hi]
    omega
  depth := r.depth

def deleteAtCursor : Ref := if h : r.cursor < r.text.length then r.delete r.cursor h else r

def deleteBefore : Ref :=
  if h : 0 < r.cursor then r.delete (r.cursor - 1) (by have := r.le; omega) else r

def killToEnd : Ref := ⟨r.text.take r.cursor, r.cursor, by have := r.le; simp; omega, r.depth⟩

def killLine : Ref := empty r.depth

def left : Ref := { r with cursor := r.cursor - 1, le := by have := r.le; omega }

def right : Ref := if h : r.cursor < r.text.length then { r with cursor := r.cursor + 1, le := h }
    else r

def toStart : Ref := { r with cursor := 0, le := Nat.zero_le _ }

def toEnd : Ref := { r with cursor := r.text.length, le := Nat.le_refl _ }

/-- A line of the history, with the cursor at its end. -/
def load (line : Line) (depth : Nat) : Ref := ⟨line, line.length, Nat.le_refl _, depth⟩

/-- One entry back; `entries` are the lines of the history, latest first. -/
def up (entries : List Line) : Ref :=
  if h : r.depth < entries.length then load (entries.get ⟨r.depth, h⟩) (r.depth + 1) else r

/-- Out of the history again. -/
def down : Ref := if r.depth = 0 then r else empty 0

/-- A character that does not browse; an error is the line that is returned. -/
def onKey (ch : BitVec 8) : Except Line Ref :=
  if ch = keyCtrlC then .error []
  else if ch = keyCtrlA then .ok r.toStart
  else if ch = keyCtrlE then .ok r.toEnd
  else if ch = keyCtrlB then .ok r.left
  else if ch = keyCtrlF then .ok r.right
  else if ch = keyCtrlD then .ok r.deleteAtCursor
  else if ch = keyCtrlK then .ok r.killToEnd
  else if ch = newline then .error r.text
  else if ch = backspace then .ok r.deleteBefore
  else if ch = keyCtrlU then .ok r.killLine
  else .ok (r.insert ch)

/-- A character. -/
def onChar (history : Option (List Line)) (ch : BitVec 8) : Except Line Ref :=
  match history with
  | some entries => if ch = keyCtrlP then .ok (r.up entries) else if ch = keyCtrlN then .ok r.down
      else r.onKey ch
  | none => r.onKey ch

def step (history : Option (List Line)) : Event → Except Line Ref
  | .up => .ok (r.up (history.getD []))
  | .down => .ok r.down
  | .left => .ok r.left
  | .right => .ok r.right
  | .char ch => r.onChar history ch

/-- The reference on a sequence of events, from the empty text. -/
def run (history : Option (List Line)) (depth : Nat) (es : List Event) : Except Line Ref :=
  es.foldlM (fun r e => r.step history e) (empty depth)

end Ref

/-! ## the ring of the history -/

namespace HistoryCtx

variable (h : HistoryCtx)

/-- The slot of the `d`-th most recent line. -/
def slot (d : Int) : Int := (h.head - d + h.size).tmod h.size

/-- **The ring holds `entries`**, latest first, and browsing has got to `depth`. -/
structure Shows (entries : List Line) (depth : Nat) : Prop where
  size : 0 < h.size
  count : h.count = entries.length
  le : h.count ≤ h.size
  head_nonneg : 0 ≤ h.head
  head_lt : h.head < h.size
  lines : ∀ (d : Nat) (hd : d < entries.length), entries.get ⟨d, hd⟩ = h.buf (h.slot (d + 1))
  pos : h.pos = if depth = 0 then -1 else h.slot depth
  depth : depth ≤ entries.length

variable {h} {entries : List Line} {depth : Nat}

/-- The slot of an entry of the history. -/
theorem Shows.slot_eq (hs : h.Shows entries depth) {d : Int} (hd₀ : 0 ≤ d) (hd : d ≤ h.size) :
    h.slot d = if d ≤ h.head then h.head - d else h.head - d + h.size := by
  have h₀ := hs.head_nonneg
  have h₁ := hs.head_lt
  have hsize := hs.size
  unfold slot
  rw [Int.tmod_eq_emod_of_nonneg (by omega)]
  split
  · rw [Int.add_emod_right, Int.emod_eq_of_lt (by omega) (by omega)]
  · rw [Int.emod_eq_of_lt (by omega) (by omega)]

/-- Different depths have different slots. -/
theorem Shows.slot_inj (hs : h.Shows entries depth) {d d' : Int} (hd : 0 < d) (hd' : 0 < d')
    (hle : d ≤ h.size) (hle' : d' ≤ h.size)
    (heq : h.slot d = h.slot d') : d = d' := by
  have h₀ := hs.head_nonneg
  have h₁ := hs.head_lt
  rw [hs.slot_eq (by omega) hle, hs.slot_eq (by omega) hle'] at heq
  split at heq <;> split at heq <;> omega

/-- The slot before the slot of `d`. -/
theorem Shows.slot_pred (hs : h.Shows entries depth) {d : Int} (hd : 0 ≤ d) (hle : d + 1 ≤ h.size) :
    (h.slot d - 1 + h.size).tmod h.size = h.slot (d + 1) := by
  have h₀ := hs.head_nonneg
  have h₁ := hs.head_lt
  have hd₁ := hs.slot_eq (d := d) hd (by omega)
  rw [hs.slot_eq (by omega) hle]
  have hlo : 0 ≤ h.slot d := by
    rw [hd₁]
    split <;> omega
  rw [Int.tmod_eq_emod_of_nonneg (by omega), hd₁]
  split
  · split
    · rw [Int.add_emod_right, Int.emod_eq_of_lt (by omega) (by omega)]
      omega
    · rw [Int.emod_eq_of_lt (by omega) (by omega)]
      omega
  · rw [if_neg (by omega), Int.add_emod_right, Int.emod_eq_of_lt (by omega) (by omega)]
    omega

/-- The slot of an entry is in the array. -/
theorem Shows.slot_nonneg (hs : h.Shows entries depth) {d : Int} (hd₀ : 0 ≤ d) (hd : d ≤ h.size) :
    0 ≤ h.slot d := by
  have h₀ := hs.head_nonneg
  rw [hs.slot_eq hd₀ hd]
  split <;> omega

end HistoryCtx

/-! ## the simulation -/

/-- The editor's history is `history`, or neither has one. -/
def Holds (depth : Nat) : Option HistoryCtx → Option (List Line) → Prop
  | none, none => depth = 0
  | some h, some entries => h.Shows entries depth
  | _, _ => False

/-- **The editor stands where the reference does**, outside the scrollback view. -/
structure Sim (history : Option (List Line)) (s : Editor) (r : Ref) : Prop where
  line : s.line = r.text
  pos : s.pos = r.cursor
  history : Holds r.depth s.history history
  view : s.tty.scrollbackActive = false
  pages : s.pendingPageUp = 0 ∧ s.pendingPageDown = 0 ∧ s.pendingHome = 0 ∧ s.pendingEnd = 0

variable {s s' s₀ : Editor} {r : Ref} {h : HistoryCtx} {t : Tty} {history : Option (List Line)}
  {entries : List Line} {depth : Nat}
  {es : List Event} {ch : BitVec 8}

/-! ### printing stays out of the view -/

@[simp] theorem print_active (t : Tty) (text : Line) :
    (print t text).scrollbackActive = t.scrollbackActive := rfl

@[simp] theorem printChar_active (t : Tty) (ch : BitVec 8) :
    (printChar t ch).scrollbackActive = t.scrollbackActive := rfl

@[simp] theorem printChars_active (t : Tty) (chs : Line) :
    (printChars t chs).scrollbackActive = t.scrollbackActive := by
  unfold printChars
  induction chs generalizing t with
  | nil => rfl
  | cons ch chs ih => rw [List.foldl_cons, ih, printChar_active]

@[simp] theorem repeatChar_active (t : Tty) (ch : BitVec 8) (n : Int) :
    (repeatChar t ch n).scrollbackActive = t.scrollbackActive :=
  printChars_active t _

@[simp] theorem redrawLine_active (buf : Line) (cursor oldLen : Int) (t : Tty) :
    (redrawLine buf cursor oldLen t).scrollbackActive = t.scrollbackActive := by simp [redrawLine]

@[simp] theorem deleteAt_active (buf : Line) (delPos oldLen : Int) (t : Tty) :
    (deleteAt buf delPos oldLen t).2.scrollbackActive = t.scrollbackActive := by simp [deleteAt]

@[simp] theorem insertAt_active (buf : Line) (insPos : Int) (ch : BitVec 8) (t : Tty) :
    (insertAt buf insPos ch t).2.scrollbackActive = t.scrollbackActive := by simp [insertAt]

@[simp] theorem clearRange_active (buf : Line) (start oldLen : Int) (t : Tty) :
    (clearRange buf start oldLen t).2.scrollbackActive = t.scrollbackActive := by simp [clearRange]

/-! ### the commands -/

/-- The cursor is in the line. -/
theorem Sim.bound (hs : Sim history s r) : 0 ≤ s.pos ∧ s.pos ≤ s.line.length := by
  have hle := r.le
  rw [hs.pos, hs.line]
  omega

/-- The cursor is the position. -/
theorem Sim.toNat (hs : Sim history s r) : s.pos.toNat = r.cursor := by
  rw [hs.pos]
  exact Int.toNat_natCast _

/-- An entry of the history takes the place of the line. -/
theorem Sim.loadHistory (hs : Sim history s r) {h' : HistoryCtx} {line : Line} {oldLen : Int}
    (hh : Holds depth (some h') history) :
    Sim history ({ s with history := some h' }.loadHistory line oldLen) (Ref.load line depth) where
  line := rfl
  pos := rfl
  history := hh
  view := by simpa [Editor.loadHistory] using hs.view
  pages := hs.pages

/-- Moving in the history keeps its entries. -/
theorem HistoryCtx.Shows.move (hs : h.Shows entries depth) {d : Nat} (hd : d ≤ entries.length) :
    HistoryCtx.Shows { h with pos := if d = 0 then -1 else h.slot d } entries d :=
  ⟨hs.size, hs.count, hs.le, hs.head_nonneg, hs.head_lt, hs.lines, rfl, hd⟩

/-- **Up** loads the line before. -/
theorem Sim.historyUp (hs : Sim (some entries) s r) (hh : s.history = some h) :
    Sim (some entries) (s.historyUp h) (r.up entries) := by
  have hshow : h.Shows entries r.depth := by
    have := hs.history
    rwa [hh] at this
  have hcount := hshow.count
  have hle := hshow.le
  have hpos := hshow.pos
  unfold Editor.historyUp Ref.up
  dsimp only
  by_cases hzero : r.depth = 0
  · rw [if_pos hzero] at hpos
    rw [if_pos hpos]
    by_cases hnone : h.count = 0
    · rw [if_pos hnone, dif_neg (by omega)]
      exact hs
    · have hmore : r.depth < entries.length := by omega
      have hmove := hshow.move (d := r.depth + 1) hmore
      have hline := hshow.lines r.depth hmore
      rw [if_neg (by omega)] at hmove
      rw [if_neg hnone, dif_pos hmore, hline, hzero]
      rw [hzero] at hmove
      exact hs.loadHistory hmove
  · rw [if_neg hzero] at hpos
    have hnonneg := hshow.slot_nonneg (d := r.depth) (by omega) (by have := hshow.depth; omega)
    have hold : (h.head - h.count + h.size).tmod h.size = h.slot h.count := rfl
    rw [if_neg (by omega), hold, hpos]
    by_cases hlast : r.depth = entries.length
    · rw [if_pos (by rw [hcount, hlast]), dif_neg (by omega)]
      exact hs
    · have hmore : r.depth < entries.length := by
        have := hshow.depth
        omega
      have hne : h.slot r.depth ≠ h.slot h.count := fun heq => by
        have := hshow.slot_inj (by omega) (by omega) (by omega) hle heq
        omega
      have hmove := hshow.move (d := r.depth + 1) hmore
      have hline := hshow.lines r.depth hmore
      rw [if_neg (by omega)] at hmove
      rw [if_neg hne, dif_pos hmore, hline, hshow.slot_pred (by omega) (by omega)]
      exact hs.loadHistory hmove

/-- **Down** leaves the history. -/
theorem Sim.historyDown (hs : Sim (some entries) s r) (hh : s.history = some h) :
    Sim (some entries) (s.historyDown h) r.down := by
  have hshow : h.Shows entries r.depth := by
    have := hs.history
    rwa [hh] at this
  have hpos := hshow.pos
  unfold Editor.historyDown Ref.down
  dsimp only
  by_cases hzero : r.depth = 0
  · rw [if_pos hzero] at hpos
    rw [if_pos hpos, if_pos hzero]
    exact hs
  · rw [if_neg hzero] at hpos
    have hnonneg := hshow.slot_nonneg (d := r.depth) (by omega)
      (by have := hshow.depth; have := hshow.count; have := hshow.le; omega)
    rw [if_neg (by omega), if_neg hzero]
    exact { line := rfl, pos := rfl, history := hshow.move (Nat.zero_le _),
            view := by simpa using hs.view, pages := hs.pages }

/-- Left. -/
theorem Sim.stepLeft (hs : Sim history s r) : Sim history s.stepLeft r.left := by
  unfold Editor.stepLeft
  have hpos := hs.pos
  split
  · refine { hs with pos := ?_, view := hs.view }
    simp only [Ref.left]
    omega
  · refine { hs with pos := ?_ }
    simp only [Ref.left]
    omega

/-- Right. -/
theorem Sim.stepRight (hs : Sim history s r) : Sim history s.stepRight r.right := by
  unfold Editor.stepRight Ref.right
  have hpos := hs.pos
  have hline := hs.line
  split
  · rw [dif_pos (by rw [← hline]; omega)]
    refine { hs with pos := ?_, view := by simpa using hs.view }
    simp only
    omega
  · rw [dif_neg (by rw [← hline]; omega)]
    exact hs

/-- The loop of Ctrl+A has enough rounds. -/
theorem Sim.toStart (n : Nat) (hs : Sim history s r) (hn : r.cursor ≤ n) :
    Sim history (Editor.toStart n s) r.toStart := by
  induction n generalizing s r with
  | zero =>
      refine { hs with pos := ?_ }
      rw [Editor.toStart, hs.pos, Nat.le_zero.mp hn]
      rfl
  | succ n ih =>
      have hpos := hs.pos
      rw [Editor.toStart]
      split
      · have hstart : r.left.toStart = r.toStart := rfl
        rw [← hstart]
        exact ih hs.stepLeft (by simp only [Ref.left]; omega)
      · refine { hs with pos := ?_ }
        simp only [Ref.toStart]
        omega

/-- The loop of Ctrl+E has enough rounds. -/
theorem Sim.toEnd (n : Nat) (hs : Sim history s r) (hn : r.text.length ≤ r.cursor + n) :
    Sim history (Editor.toEnd n s) r.toEnd := by
  induction n generalizing s r with
  | zero =>
      have hle := r.le
      refine { hs with pos := ?_ }
      rw [Editor.toEnd, hs.pos]
      simp only [Ref.toEnd]
      omega
  | succ n ih =>
      have hpos := hs.pos
      have hline := hs.line
      have hle := r.le
      rw [Editor.toEnd]
      split
      · next hlt =>
          have hright : r.right = { r with cursor := r.cursor + 1, le := by rw [← hline]; omega } :=
            dif_pos (by rw [← hline]; omega)
          have hend : r.right.toEnd = r.toEnd := by rw [hright]; rfl
          rw [← hend]
          refine ih hs.stepRight ?_
          rw [hright]
          simp only
          omega
      · refine { hs with pos := ?_ }
        rw [hline] at *
        simp only [Ref.toEnd]
        omega

/-- Deletion at the cursor. -/
theorem Sim.deleteAtCursor (hs : Sim history s r) :
    Sim history (if s.pos < s.line.length then
      { s with
        line := (deleteAt s.line s.pos s.line.length s.tty).1,
        tty := (deleteAt s.line s.pos s.line.length s.tty).2 }
      else s) r.deleteAtCursor := by
  have hpos := hs.pos
  have hline := hs.line
  unfold Ref.deleteAtCursor
  split
  · rw [dif_pos (by rw [← hline]; omega)]
    refine { hs with line := ?_, view := by simpa using hs.view }
    simp only [deleteAt, Ref.delete, hs.toNat, hline]
  · rw [dif_neg (by rw [← hline]; omega)]
    exact hs

/-- Deletion before the cursor. -/
theorem Sim.deleteBefore (hs : Sim history s r) :
    Sim history (if s.pos > 0 then
      { s with
        line := (deleteAt s.line (s.pos - 1) s.line.length (print s.tty [backspace])).1
        pos := s.pos - 1
        tty := (deleteAt s.line (s.pos - 1) s.line.length (print s.tty [backspace])).2 }
      else s) r.deleteBefore := by
  have hpos := hs.pos
  unfold Ref.deleteBefore
  split
  · rw [dif_pos (by omega)]
    refine { hs with line := ?_, pos := ?_, view := by simpa using hs.view }
    · have hnat : (s.pos - 1).toNat = r.cursor - 1 := by omega
      simp only [deleteAt, Ref.delete, hnat, hs.line]
    · simp only [Ref.delete]
      omega
  · rw [dif_neg (by omega)]
    exact hs

/-- The rest of the line goes. -/
theorem Sim.killToEnd (hs : Sim history s r) :
    Sim history (if s.pos < s.line.length then
      { s with
        line := (clearRange s.line s.pos s.line.length s.tty).1,
        tty := (clearRange s.line s.pos s.line.length s.tty).2 }
      else s) r.killToEnd := by
  have hpos := hs.pos
  have hline := hs.line
  split
  · refine { hs with line := ?_, view := by simpa using hs.view }
    simp only [clearRange, Ref.killToEnd, hs.toNat, hline]
  · refine { hs with line := ?_ }
    show s.line = r.text.take r.cursor
    rw [hline, List.take_of_length_le (by rw [← hline]; omega)]

/-- The line goes. -/
theorem Sim.killLine (hs : Sim history s r) :
    Sim history (if s.line ≠ [] then
      { s with
        line := (clearRange s.line 0 s.line.length s.tty).1
        pos := 0
        tty := (clearRange s.line 0 s.line.length s.tty).2 }
      else s) r.killLine := by
  split
  · exact { hs with line := rfl, pos := rfl, view := by simpa using hs.view }
  · next hnil =>
      have hline : s.line = [] := not_not.mp hnil
      have hbound := hs.bound
      refine { hs with line := hline, pos := ?_ }
      rw [hline] at hbound
      simp only [Ref.killLine, Ref.empty]
      simp at hbound
      omega

/-- A character is inserted. -/
theorem Sim.insert (hs : Sim history s r) (ch : BitVec 8) :
    Sim history { s with
      line := (insertAt s.line s.pos ch s.tty).1
      pos := s.pos + 1
      tty := (insertAt s.line s.pos ch s.tty).2 } (r.insert ch) := by
  have hpos := hs.pos
  refine { hs with line := ?_, pos := ?_, view := by simpa using hs.view }
  · simp only [insertAt, Ref.insert, hs.toNat, hs.line]
  · simp only [Ref.insert]
    omega

/-! ### rounds -/

/-- What the reference answers is what the round does. -/
def Follows (history : Option (List Line)) (o : Outcome) : Except Line Ref → Prop
  | .ok r => ∃ s, o = .again s ∧ Sim history s r
  | .error line => ∃ s, o = .done line s

/-- A round that goes on. -/
theorem follows_again (hs : Sim history s r) : Follows history (.again s) (.ok r) := ⟨s, rfl, hs⟩

/-- Both sides ask the same question. -/
theorem follows_ite {c : Prop} [Decidable c] {o o' : Outcome} {x x' : Except Line Ref}
    (h : c → Follows history o x)
    (h' : ¬ c → Follows history o' x') :
    Follows history (if c then o else o') (if c then x else x') := by
  by_cases hc : c
  · rw [if_pos hc, if_pos hc]
    exact h hc
  · rw [if_neg hc, if_neg hc]
    exact h' hc

/-- A round that does something on a condition only. -/
theorem follows_if {c : Prop} [Decidable c] (h : Sim history (if c then s else s') r) :
    Follows history (if c then .again s else .again s') (.ok r) := by
  split
  · next hc =>
      rw [if_pos hc] at h
      exact follows_again h
  · next hc =>
      rw [if_neg hc] at h
      exact follows_again h

/-- The characters that do not browse the history. -/
theorem Sim.onKey (hs : Sim history s r) (ch : BitVec 8) :
    Follows history (s.onKey ch) (r.onKey ch) := by
  unfold Editor.onKey Ref.onKey
  refine follows_ite (fun _ => ⟨_, rfl⟩) fun _ => ?_
  refine follows_ite (fun _ => follows_again (hs.toStart _ (by rw [hs.toNat]))) fun _ => ?_
  refine follows_ite (fun _ => follows_again (hs.toEnd _ ?_)) fun _ => ?_
  · have hle := r.le
    rw [hs.toNat, hs.line]
    omega
  refine follows_ite (fun _ => follows_again hs.stepLeft) fun _ => ?_
  refine follows_ite (fun _ => follows_again hs.stepRight) fun _ => ?_
  refine follows_ite (fun _ => follows_if hs.deleteAtCursor) fun _ => ?_
  refine follows_ite (fun _ => follows_if hs.killToEnd) fun _ => ?_
  refine follows_ite (fun _ => ⟨_, by rw [hs.line]⟩) fun _ => ?_
  refine follows_ite (fun _ => follows_if hs.deleteBefore) fun _ => ?_
  refine follows_ite (fun _ => follows_if hs.killLine) fun _ => ?_
  exact follows_again (hs.insert ch)

/-- **A character**. -/
theorem Sim.onChar (hs : Sim history s r) (ch : BitVec 8) :
    Follows history (s.onChar ch) (r.onChar history ch) := by
  have hholds := hs.history
  unfold Editor.onChar Ref.onChar
  cases hh : s.history with
  | none =>
      cases history with
      | none => exact hs.onKey ch
      | some entries => simp [hh, Holds] at hholds
  | some h =>
      cases history with
      | none => simp [hh, Holds] at hholds
      | some entries =>
          dsimp only
          split
          · exact follows_again (hs.historyUp hh)
          split
          · exact follows_again (hs.historyDown hh)
          · exact hs.onKey ch

/-- The event that the next round consumes, outside the scrollback view. -/
def Editor.next (s : Editor) : Option Event :=
  if s.history.isSome ∧ s.pendingUp > 0 then some .up
  else if s.history.isSome ∧ s.pendingDown > 0 then some .down
  else if s.pendingLeft > 0 then some .left
  else if s.pendingRight > 0 then some .right
  else s.chars.head?.map .char

/-- What the reference does with the event of a round, if there is one. -/
def RoundFollows (history : Option (List Line)) (s : Editor) (r : Ref) : Option Event → Prop
  | none => s.round = .again s
  | some e => Follows history s.round (r.step history e)

/-- Past Up and Down, with nothing to scroll. -/
theorem pollRest_quiet (hview : s.tty.scrollbackActive = false)
    (hpages : s.pendingPageUp = 0 ∧ s.pendingPageDown = 0 ∧ s.pendingHome = 0 ∧ s.pendingEnd = 0) :
    s.pollRest = if s.pendingLeft > 0 then .again
      { s with pendingLeft := s.pendingLeft - 1 }.stepLeft
      else if s.pendingRight > 0 then .again { s with pendingRight := s.pendingRight - 1 }.stepRight
      else match s.chars with
        | [] => .again s
        | ch :: chars => { s with chars }.onChar ch := by
  obtain ⟨h₁, h₂, h₃, h₄⟩ := hpages
  unfold Editor.pollRest
  dsimp only
  rw [hview, if_neg (show ¬ s.pendingPageUp > 0 by omega),
    if_neg (show ¬ s.pendingPageDown > 0 by omega),
    if_neg (show ¬ s.pendingHome > 0 by omega), if_neg (show ¬ s.pendingEnd > 0 by omega)]
  rfl

/-- The polls behind the history and the view, in their order. -/
theorem Sim.pollRest (hs : Sim history s r) :
    match (if s.pendingLeft > 0 then some Event.left
        else if s.pendingRight > 0 then some Event.right
        else s.chars.head?.map Event.char) with
    | none => s.pollRest = .again s
    | some e => Follows history s.pollRest (r.step history e) := by
  rw [pollRest_quiet hs.view hs.pages]
  by_cases hleft : s.pendingLeft > 0
  · simp only [if_pos hleft]
    exact follows_again (Sim.stepLeft { hs with })
  by_cases hright : s.pendingRight > 0
  · simp only [if_neg hleft, if_pos hright]
    exact follows_again (Sim.stepRight { hs with })
  simp only [if_neg hleft, if_neg hright]
  cases hc : s.chars with
  | nil => rfl
  | cons ch chars =>
      have hs' : Sim history { s with chars } r := { hs with }
      exact hs'.onChar ch

/-- **A round** does what the reference does with its event. -/
theorem Sim.round (hs : Sim history s r) : RoundFollows history s r s.next := by
  have hholds := hs.history
  have hrest := hs.pollRest
  unfold Editor.next
  cases hh : s.history with
  | none =>
      have hround : s.round = s.pollRest := by simp [Editor.round, hs.view, hh]
      simp only [Option.isSome_none, Bool.false_eq_true, false_and, if_false]
      unfold RoundFollows
      rwa [hround]
  | some h =>
      cases history with
      | none => simp [hh, Holds] at hholds
      | some entries =>
          simp only [Option.isSome_some, true_and]
          by_cases hup : s.pendingUp > 0
          · have hround :
                s.round = .again ({ s with pendingUp := s.pendingUp - 1 }.historyUp h) := by
              simp [Editor.round, hs.view, hh, hup]
            rw [if_pos hup, RoundFollows, hround]
            exact follows_again (Sim.historyUp { hs with } hh)
          by_cases hdown : s.pendingDown > 0
          · have hround :
                s.round = .again ({ s with pendingDown := s.pendingDown - 1 }.historyDown h) := by
              simp [Editor.round, hs.view, hh, hup, hdown]
            rw [if_neg hup, if_pos hdown, RoundFollows, hround]
            exact follows_again (Sim.historyDown { hs with } hh)
          · have hround : s.round = s.pollRest := by simp [Editor.round, hs.view, hh, hup, hdown]
            rw [if_neg hup, if_neg hdown]
            unfold RoundFollows
            rwa [hround]

/-! ## sessions -/

/-- Keys that arrive between two rounds. -/
def Editor.arrive (s : Editor) (chars : Line) (ups downs lefts rights : Nat) : Editor :=
  { s with
    chars := s.chars ++ chars
    pendingUp := s.pendingUp + ups
    pendingDown := s.pendingDown + downs
    pendingLeft := s.pendingLeft + lefts
    pendingRight := s.pendingRight + rights }

/-- A run of `readLine` that has not returned, with the events consumed so far. -/
inductive Session (s₀ : Editor) : List Event → Editor → Prop where
  | start : Session s₀ [] s₀.start
  | arrive {es : List Event} {s : Editor} (run : Session s₀ es s) (chars : Line)
    (ups downs lefts rights : Nat) :
      Session s₀ es (s.arrive chars ups downs lefts rights)
  | round {es : List Event} {s s' : Editor} (run : Session s₀ es s) (again : s.round = .again s') :
      Session s₀ (es ++ s.next.toList) s'

/-- What `readLine` is called with: a history that shows `history`, or none, and no
scrolling to do. -/
structure Ready (history : Option (List Line)) (depth : Nat) (s : Editor) : Prop where
  history : Holds depth s.history history
  view : s.tty.scrollbackActive = false
  pages : s.pendingPageUp = 0 ∧ s.pendingPageDown = 0 ∧ s.pendingHome = 0 ∧ s.pendingEnd = 0

/-- One more event. -/
theorem run_append (es : List Event) (e : Event) (hr : Ref.run history depth es = .ok r) :
    Ref.run history depth (es ++ [e]) = r.step history e := by
  unfold Ref.run at *
  rw [List.foldlM_append, hr]
  simp [bind, Except.bind, pure, Except.pure]
  cases r.step history e <;> rfl

/-- **A session** is a run of the reference editor. -/
theorem Session.sim (h₀ : Ready history depth s₀) (hrun : Session s₀ es s) :
    ∃ r, Ref.run history depth es = .ok r ∧ Sim history s r := by
  induction hrun with
  | start => exact ⟨.empty depth, rfl, rfl, rfl, h₀.history, h₀.view, h₀.pages⟩
  | arrive run chars ups downs lefts rights ih =>
      obtain ⟨r, hr, hs⟩ := ih
      exact ⟨r, hr, { hs with }⟩
  | @round es s s' run again ih =>
      obtain ⟨r, hr, hs⟩ := ih
      have hround := hs.round
      cases hn : s.next with
      | none =>
          rw [hn, RoundFollows, again] at hround
          cases hround
          exact ⟨r, by simpa using hr, hs⟩
      | some e =>
          rw [hn, RoundFollows, again] at hround
          cases hx : r.step history e with
          | ok r' =>
              rw [hx] at hround
              obtain ⟨s'', heq, hs'⟩ := hround
              cases heq
              exact ⟨r', (run_append es e hr).trans hx, hs'⟩
          | error line =>
              rw [hx] at hround
              obtain ⟨s'', heq⟩ := hround
              cases heq

/-- **`readLine` is a line editor**: in every session the cursor is in the line, line
and cursor are those of the reference after the consumed events, and the next round
returns a line exactly when the reference does, the same line. -/
theorem readLine_refines (h₀ : Ready history depth s₀) (hrun : Session s₀ es s) :
    (0 ≤ s.pos ∧ s.pos ≤ s.line.length) ∧
      (∃ r, Ref.run history depth es = .ok r ∧ s.line = r.text ∧ s.pos = r.cursor) ∧
      ∀ line, (∃ s', s.round = .done line s') ↔
        ∃ e, s.next = some e ∧ Ref.run history depth (es ++ [e]) = .error line := by
  obtain ⟨r, hr, hs⟩ := hrun.sim h₀
  refine ⟨hs.bound, ⟨r, hr, hs.line, hs.pos⟩, fun line => ?_⟩
  have hround := hs.round
  cases hn : s.next with
  | none =>
      rw [hn, RoundFollows] at hround
      simp [hround]
  | some e =>
      rw [hn, RoundFollows] at hround
      have happ := run_append es e hr
      cases hx : r.step history e with
      | ok r' =>
          rw [hx] at hround happ
          obtain ⟨s', heq, -⟩ := hround
          simp [heq, happ]
      | error line' =>
          rw [hx] at hround happ
          obtain ⟨s', heq⟩ := hround
          simp [heq, happ]

/-- Two lines of history, with three Ups waiting and a character to come. -/
def twoLines : Editor :=
  { pendingUp := 3, pendingDown := 0, pendingLeft := 1, pendingRight := 0, pendingPageUp := 0,
    pendingPageDown := 0,
    pendingHome := 0, pendingEnd := 0, chars := [120, 10],
    history :=
      some { buf := fun i => if i = 0 then [97, 98] else [99], size := 8, count := 2, head := 2,
             pos := -1 },
    line := [], pos := 0, tty := {} }

/-- A history with two lines. -/
theorem twoLines_ready : Ready (some [[99], [97, 98]]) 0 twoLines where
  history := by
    refine ⟨by decide, by decide, by decide, by decide, by decide, fun d hd => ?_,
      by decide, by decide⟩
    have hd : d < 2 := hd
    obtain rfl | rfl : d = 0 ∨ d = 1 := by omega
    · rfl
    · rfl
  view := rfl
  pages := ⟨rfl, rfl, rfl, rfl⟩

/-- The older line is loaded, and the character goes before its last one. -/
theorem readLine_refines_twoLines :
    ∃ es s, Session twoLines es s ∧ (0 ≤ s.pos ∧ s.pos ≤ s.line.length) ∧
      Ref.run (some [[99], [97, 98]]) 0 (es ++ [.char 10]) = .error [97, 120, 98] := by
  have h₁ : Session twoLines _ _ :=
    .round (.round (.round (.round (.round .start rfl) rfl) rfl) rfl) rfl
  obtain ⟨hbound, -, hdone⟩ := readLine_refines twoLines_ready h₁
  obtain ⟨e, hnext, hrun⟩ := (hdone _).mp ⟨_, rfl⟩
  cases hnext
  exact ⟨_, _, h₁, hbound, hrun⟩

end Doors.Kbd
