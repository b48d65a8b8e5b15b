import Mathlib.Algebra.Group.Int.Defs
import Mathlib.Data.BitVec
import Doors.Tty

/-!
# Doors.Kbd.ReadLine

The line editor of the keyboard driver (`Kbd::readLine`, `kernel/arch/i386/Kbd.cc`).

`Editor` holds the pending navigation counters, the unread characters, the line with
its cursor, and the terminal that shows them.  `round` is one round of the endless
loop.  A string is the list of its characters; the terminal's lock is always
granted.
-/

namespace Doors.Kbd

open Tty

abbrev Line := List (BitVec 8)

def keyCtrlA : BitVec 8 := 0x01
def keyCtrlB : BitVec 8 := 0x02
def keyCtrlC : BitVec 8 := 0x03
def keyCtrlD : BitVec 8 := 0x04
def keyCtrlE : BitVec 8 := 0x05
def keyCtrlF : BitVec 8 := 0x06
def keyCtrlK : BitVec 8 := 0x0B
def keyCtrlN : BitVec 8 := 0x0E
def keyCtrlP : BitVec 8 := 0x10
def keyCtrlU : BitVec 8 := 0x15

/-! ## printing -/

/-- `printf` of a text: `Tty::puts` under the lock. -/
def print (t : Tty) (text : Line) : Tty := { t with screen := t.screen.rawPuts text }

/-- `printf("%c", ch)`; the text that is put ends at a NUL. -/
def printChar (t : Tty) (ch : BitVec 8) : Tty := print t (if ch = 0 then [] else [ch])

def printChars (t : Tty) (chs : Line) : Tty := chs.foldl printChar t

/-- The loops that print one character `n` times. -/
def repeatChar (t : Tty) (ch : BitVec 8) (n : Int) : Tty :=
  (List.replicate n.toNat ch).foldl printChar t

/-! ## editing -/

/-- `deleteAt`. -/
def deleteAt (buf : Line) (delPos oldLen : Int) (t : Tty) : Line × Tty :=
  let buf := buf.eraseIdx delPos.toNat
  let t := printChars t (buf.drop delPos.toNat)
  let t := print t [space]
  (buf, repeatChar t backspace (oldLen - delPos))

/-- `insertAt`. -/
def insertAt (buf : Line) (insPos : Int) (ch : BitVec 8) (t : Tty) : Line × Tty :=
  let buf := buf.take insPos.toNat ++ ch :: buf.drop insPos.toNat
  let t := printChars t (buf.drop insPos.toNat)
  (buf, repeatChar t backspace (buf.length - (insPos + 1)))

/-- `redrawLine`. -/
def redrawLine (buf : Line) (cursor oldLen : Int) (t : Tty) : Tty :=
  let len : Int := buf.length
  let t := print t [carriageReturn, 0x3E, space]
  let t := printChars t buf
  let maxLen := if len > oldLen then len else oldLen
  let t := repeatChar t space (maxLen - len)
  repeatChar t backspace (maxLen - cursor)

/-- `clearRange`. -/
def clearRange (buf : Line) (start oldLen : Int) (t : Tty) : Line × Tty :=
  let buf := buf.take start.toNat
  (buf, redrawLine buf start oldLen t)

/-- `HistoryCtx`. -/
structure HistoryCtx where
  buf : Int → Line
  size : Int
  count : Int
  head : Int
  pos : Int

/-- What a round of `readLine` works on. -/
structure Editor where
  pendingUp : Nat
  pendingDown : Nat
  pendingLeft : Nat
  pendingRight : Nat
  pendingPageUp : Nat
  pendingPageDown : Nat
  pendingHome : Nat
  pendingEnd : Nat
  /-- The unread characters of the ring. -/
  chars : Line
  history : Option HistoryCtx
  line : Line
  pos : Int
  tty : Tty

namespace Editor

variable (s : Editor)

/-- `loadHistory`. -/
def loadHistory (src : Line) (oldLen : Int) : Editor :=
  { s with line := src, pos := src.length, tty := redrawLine src src.length oldLen s.tty }

/-- `historyUp`. -/
def historyUp (h : HistoryCtx) : Editor :=
  let oldLen : Int := s.line.length
  if h.pos = -1 then
    if h.count = 0 then s
    else
      let pos := (h.head - 1 + h.size).tmod h.size
      { s with history := some { h with pos } }.loadHistory (h.buf pos) oldLen
  else if h.pos = (h.head - h.count + h.size).tmod h.size then s
  else
    let pos := (h.pos - 1 + h.size).tmod h.size
    { s with history := some { h with pos } }.loadHistory (h.buf pos) oldLen

/-- `historyDown`. -/
def historyDown (h : HistoryCtx) : Editor :=
  let oldLen : Int := s.line.length
  if h.pos = -1 then s
  else { s with
    history := some { h with pos := -1 }, tty := redrawLine [] 0 oldLen s.tty, line := [],
    pos := 0 }

/-- One character to the left. -/
def stepLeft : Editor :=
  if s.pos > 0 then { s with pos := s.pos - 1, tty := print s.tty [backspace] } else s

/-- One character to the right. -/
def stepRight : Editor :=
  if s.pos < s.line.length then
    { s with pos := s.pos + 1, tty := printChar s.tty (s.line.getD s.pos.toNat 0) }
  else s

/-- The loop of Ctrl+A. -/
def toStart : Nat → Editor → Editor
  | 0, s => s
  | n + 1, s => if s.pos > 0 then toStart n s.stepLeft else s

/-- The loop of Ctrl+E. -/
def toEnd : Nat → Editor → Editor
  | 0, s => s
  | n + 1, s => if s.pos < s.line.length then toEnd n s.stepRight else s

end Editor

/-- What a round does: the loop goes on, or `readLine` returns the line. -/
inductive Outcome where
  | again (s : Editor)
  | done (line : Line) (s : Editor)

/-- A call of the terminal whose lock is granted. -/
def granted (t : Tty) (x : Except Stuck Tty) : Tty :=
  match x with
  | .ok t => t
  | .error _ => t

namespace Editor

variable (s : Editor)

/-- `readLine` on a character that does not browse the history. -/
def onKey (ch : BitVec 8) : Outcome :=
  if ch = keyCtrlC then .done [] { s with line := [], tty := print s.tty [0x5E, 0x43, newline] }
  else if ch = keyCtrlA then .again (toStart s.pos.toNat s)
  else if ch = keyCtrlE then .again (toEnd (s.line.length - s.pos.toNat) s)
  else if ch = keyCtrlB then .again s.stepLeft
  else if ch = keyCtrlF then .again s.stepRight
  else if ch = keyCtrlD then
    if s.pos < s.line.length then
      let (line, tty) := deleteAt s.line s.pos s.line.length s.tty
      .again { s with line, tty }
    else .again s
  else if ch = keyCtrlK then
    if s.pos < s.line.length then
      let (line, tty) := clearRange s.line s.pos s.line.length s.tty
      .again { s with line, tty }
    else .again s
  else if ch = newline then .done s.line { s with tty := print s.tty [newline] }
  else if ch = backspace then
    if s.pos > 0 then
      let pos := s.pos - 1
      let (line, tty) := deleteAt s.line pos s.line.length (print s.tty [backspace])
      .again { s with line, pos, tty }
    else .again s
  else if ch = keyCtrlU then
    if s.line ≠ [] then
      let (line, tty) := clearRange s.line 0 s.line.length s.tty
      .again { s with line, pos := 0, tty }
    else .again s
  else
    let (line, tty) := insertAt s.line s.pos ch s.tty
    .again { s with line, pos := s.pos + 1, tty }

/-- `readLine` on a character; Ctrl+P and Ctrl+N stand for Up and Down. -/
def onChar (ch : BitVec 8) : Outcome :=
  match s.history with
  | some h =>
      if ch = keyCtrlP then .again (s.historyUp h)
      else if ch = keyCtrlN then .again (s.historyDown h)
      else s.onKey ch
  | none => s.onKey ch

/-- `clearNavigation`. -/
def clearNavigation : Editor :=
  { s with
    pendingUp := 0, pendingDown := 0, pendingLeft := 0, pendingRight := 0
    pendingPageUp := 0, pendingPageDown := 0, pendingHome := 0, pendingEnd := 0 }

/-- A call that moves or ends the view; where it ends, `scrollbackExit` clears the counters. -/
def onView (call : Tty → Except Stuck Tty) : Editor :=
  let tty := granted s.tty (call s.tty)
  if s.tty.scrollbackActive ∧ ¬ tty.scrollbackActive then { s.clearNavigation with tty }
    else { s with tty }

/-- `readLine` past the counters of Up and Down. -/
def pollRest : Outcome :=
  let active := s.tty.scrollbackActive
  if s.pendingLeft > 0 then
    let s := { s with pendingLeft := s.pendingLeft - 1 }
    .again (if active then s else s.stepLeft)
  else if s.pendingRight > 0 then
    let s := { s with pendingRight := s.pendingRight - 1 }
    .again (if active then s else s.stepRight)
  else if s.pendingPageUp > 0 then
    .again ({ s with pendingPageUp := s.pendingPageUp - 1 }.onView (·.scrollbackPageUp .granted))
  else if s.pendingPageDown > 0 then
    .again ({ s with pendingPageDown := s.pendingPageDown - 1 }.onView
      (·.scrollbackPageDown .granted))
  else if s.pendingHome > 0 then
    .again ({ s with pendingHome := s.pendingHome - 1 }.onView (·.scrollbackHome .granted))
  else if s.pendingEnd > 0 then
    .again ({ s with pendingEnd := s.pendingEnd - 1 }.onView (·.scrollbackExit .granted))
  else
    match s.chars with
    | [] => .again s
    | ch :: chars => { s with chars }.onChar ch

/-- One round of `readLine`. -/
def round : Outcome :=
  let active := s.tty.scrollbackActive
  if active ∧ s.pendingUp > 0 then
    .again ({ s with pendingUp := s.pendingUp - 1 }.onView (·.scrollbackLineUp .granted))
  else if active ∧ s.pendingDown > 0 then
    .again ({ s with pendingDown := s.pendingDown - 1 }.onView (·.scrollbackLineDown .granted))
  else
    match s.history with
    | some h =>
        if s.pendingUp > 0 then .again ({ s with pendingUp := s.pendingUp - 1 }.historyUp h)
        else if s.pendingDown > 0 then .again
          ({ s with pendingDown := s.pendingDown - 1 }.historyDown h)
        else s.pollRest
    | none => s.pollRest

end Editor

/-- The start of `readLine`. -/
def Editor.start (s : Editor) : Editor := { s with pos := 0, line := [] }

end Doors.Kbd
