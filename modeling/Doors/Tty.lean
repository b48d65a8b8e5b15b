import Doors.Lib.Run
import Doors.Lib.Cells

/-!
# Doors.Tty

The text terminal (`kernel/arch/i386/Tty.cc`): the screen, the ring of lines
that scrolled off it, and the scrollback view that is laid over it.

`Screen` is what output works on; `Tty` adds the view and the lock.  Every
operation takes and releases the lock of its own accord.  `Locking` says what
taking it means: `semaphore` is a call of `Semaphore::wait` by the only task
that uses the terminal, which never returns when the lock is taken, and
`granted` is a lock that is always given.

* `lock_released_iff` — an operation comes back, with the lock free, unless it
  is `putc` in the scrollback view;
* `view_transparent` — viewing changes nothing of the output as long as only
  `putc` and `cursorSetPos` are used in the view.
-/

namespace Doors

open Cells Run

namespace Tty

def vgaWidth : Nat := 80

/-- Scrollable rows; the last row of the display is the taskbar. -/
def rows : Nat := 24

def scrollbackLines : Nat := 1000

def scrollbackViewHeight : Nat := rows - 1

/-- Light green on black. -/
def defaultColor : BitVec 8 := 0x0A

/-- `vgaEntry`; `char` is signed. -/
def vgaEntry (ch color : BitVec 8) : BitVec 16 := ch.signExtend 16 ||| color.setWidth 16 <<< 8

def space : BitVec 8 := 32

def newline : BitVec 8 := 10

def carriageReturn : BitVec 8 := 13

def backspace : BitVec 8 := 8

/-- `uint8_t` arithmetic. -/
def uint8 (n : Nat) : Nat := n % 256

end Tty

/-- Video memory, the cursor and the lines that scrolled off the screen. -/
structure Screen where
  vga : Nat → BitVec 16 := fun _ => 0
  termRow : Nat := 0
  termCol : Nat := 0
  termColor : BitVec 8 := Tty.defaultColor
  scrolling : Bool := true
  scrollbackBuf : Nat → Nat → BitVec 8 := fun _ _ => 0
  scrollbackHead : Nat := 0
  scrollbackCount : Nat := 0

namespace Screen

open Tty

/-- `fill_n(&VGA_RAM[start], n, v)`. -/
def fill (s : Screen) (start n : Nat) (v : BitVec 16) : Screen :=
  { s with vga := fun i => if start ≤ i ∧ i < start + n then v else s.vga i }

/-- `Tty::clearRow`. -/
def clearRow (s : Screen) (row : Nat) : Screen :=
  { s with termColor := defaultColor }.fill (row * vgaWidth) vgaWidth (vgaEntry space defaultColor)

/-- `Tty::swapRows`. -/
def swapRows (s : Screen) (row1 row2 : Nat) : Screen :=
  { s with vga := fun i =>
      if i / vgaWidth = row1 then s.vga (row2 * vgaWidth + i % vgaWidth)
      else if i / vgaWidth = row2 then s.vga (row1 * vgaWidth + i % vgaWidth)
      else s.vga i }

/-- The part of `Tty::advRow` that saves the top row and scrolls. -/
def scroll (s : Screen) : Screen :=
  let line := fun c => if c < vgaWidth then (s.vga c).setWidth 8
    else if c = vgaWidth then 0 else s.scrollbackBuf s.scrollbackHead c
  let s := { s with
    scrollbackBuf := set s.scrollbackBuf s.scrollbackHead line
    scrollbackHead := (s.scrollbackHead + 1) % scrollbackLines
    scrollbackCount :=
      if s.scrollbackCount < scrollbackLines then s.scrollbackCount + 1 else s.scrollbackCount }
  let s := s.clearRow 0
  let s := (List.range (rows - 1)).foldl (fun s r => s.swapRows r (r + 1)) s
  { s with termRow := rows - 1, termCol := 0 }

/-- `Tty::advRow`. -/
def advRow (s : Screen) : Screen :=
  let s := { s with termRow := uint8 (s.termRow + 1) }
  if s.termRow = rows then
    if s.scrolling then s.scroll else { s with termRow := 0 }
  else s

/-- `Tty::advCol`. -/
def advCol (s : Screen) : Screen :=
  let s := { s with termCol := uint8 (s.termCol + 1) }
  if s.termCol = vgaWidth then { s with termCol := 0 }.advRow else s

/-- `Tty::decCol`. -/
def decCol (s : Screen) : Screen :=
  if s.termCol > 0 then { s with termCol := s.termCol - 1 }
  else if s.termRow > 0 then { s with termRow := s.termRow - 1, termCol := vgaWidth - 1 }
  else s

/-- One character at the cursor, as in `Tty::putc` and `Tty::rawPuts`. -/
def rawPutc (s : Screen) (ch : BitVec 8) : Screen :=
  if ch = newline then { s.advRow with termCol := 0 }
  else if ch = carriageReturn then { s with termCol := 0 }
  else if ch = backspace then s.decCol
  else
    { s with vga := set s.vga (s.termRow * vgaWidth + s.termCol) (vgaEntry ch s.termColor) }.advCol

/-- `Tty::rawPuts`. -/
def rawPuts (s : Screen) (sv : List (BitVec 8)) : Screen := sv.foldl rawPutc s

/-- The body of `Tty::cls`. -/
def cls (s : Screen) : Screen :=
  { s with termRow := 0, termCol := 0, termColor := defaultColor }.fill 0 (vgaWidth * rows)
    (vgaEntry space defaultColor)

/-- The body of `Tty::putLine`. -/
def putLine (s : Screen) (str : List (BitVec 8)) (row : Nat) : Screen :=
  let n := min str.length vgaWidth
  { s with
    termRow := row
    termCol := uint8 n
    vga := fun i =>
      if row * vgaWidth ≤ i ∧ i < row * vgaWidth + vgaWidth then
        vgaEntry (if i - row * vgaWidth < n then str.getD (i - row * vgaWidth) 0 else space)
          s.termColor
      else s.vga i }

end Screen

/-- The terminal: the screen, the view over it, and the count of `lock_`. -/
structure Tty where
  screen : Screen := {}
  scrollbackActive : Bool := false
  scrollbackOffset : Int := 0
  savedScreen : Nat → BitVec 16 := fun _ => 0
  lock : Int := 1

/-- What taking the lock means. -/
inductive Locking where
  | semaphore
  | granted
  deriving DecidableEq

/-- `lock_.wait()` by the task that holds the lock does not return. -/
inductive Stuck where
  | selfDeadlock
  deriving DecidableEq

/-- The operations of the terminal. -/
inductive TtyOp where
  | putc (ch : BitVec 8)
  | putcAt (ch : BitVec 8) (row col : BitVec 8)
  | puts (str : List (BitVec 8))
  | putsAt (str : List (BitVec 8)) (row col : BitVec 8)
  | putLine (str : List (BitVec 8)) (row : BitVec 8)
  | cls
  | cursorSetPos (row col : BitVec 8)
  | setColor (color : BitVec 8)
  | setScrolling (enabled : Bool)
  | getCursor
  | scrollbackShow (offset : Int)
  | scrollbackExit
  | scrollbackPageUp
  | scrollbackPageDown
  | scrollbackLineUp
  | scrollbackLineDown
  | scrollbackHome
  deriving DecidableEq

namespace Tty

/-- `Tty::lock`. -/
def acquire (g : Locking) (t : Tty) : Except Stuck Tty :=
  match g with
  | .granted => .ok t
  | .semaphore => if t.lock > 0 then .ok { t with lock := t.lock - 1 } else .error .selfDeadlock

/-- `Tty::unlock`; nobody else waits. -/
def release (g : Locking) (t : Tty) : Tty :=
  match g with
  | .granted => t
  | .semaphore => { t with lock := t.lock + 1 }

/-- An operation that changes the screen under the lock. -/
def locked (g : Locking) (f : Screen → Screen) (t : Tty) : Except Stuck Tty := do
  let t ← t.acquire g
  .ok ({ t with screen := f t.screen }.release g)

/-- The status line of the view, as `snprintf` writes it into 64 bytes. -/
def status (offset count : Int) : List (BitVec 8) :=
  let text := "-- SCROLLBACK (offset ".toList ++ Nat.toDigits 10 offset.toNat ++ " of ".toList ++
    Nat.toDigits 10 count.toNat ++ ") --".toList
  (text.take 63).map fun c => BitVec.ofNat 8 c.toNat

/-- What `scrollbackShow` draws: the status line on row 0 and below it the
lines from `top` down to `bottom`. -/
def view (s : Screen) (top bottom : Int) : Screen :=
  let buf := status bottom s.scrollbackCount
  { s with vga := fun i =>
      let row := i / vgaWidth
      let col := i % vgaWidth
      if row = 0 then vgaEntry (if col < buf.length then buf.getD col 0 else space) defaultColor
      else if row < rows then
        let lineFromEnd := top - ((row : Int) - 1)
        if lineFromEnd > s.scrollbackCount ∨ lineFromEnd < bottom then vgaEntry space defaultColor
        else
          let actualIdx :=
            ((s.scrollbackHead : Int) - lineFromEnd + scrollbackLines).tmod scrollbackLines
          let ch := s.scrollbackBuf actualIdx.toNat col
          vgaEntry (if ch ≠ 0 then ch else space) defaultColor
      else s.vga i }

/-- The `memcpy` of `scrollbackShow`. -/
def save (vga saved : Nat → BitVec 16) : Nat → BitVec 16 :=
  fun i => if i < rows * vgaWidth then vga i else saved i

/-- `Tty::scrollbackShow`. -/
def scrollbackShow (g : Locking) (t : Tty) (offset : Int) : Except Stuck Tty := do
  let t ← t.acquire g
  if offset < 1 then .ok (t.release g)
  else
    let count : Int := t.screen.scrollbackCount
    let offset := if offset > count then count else offset
    let t :=
      if t.scrollbackActive then t else { t with savedScreen := save t.screen.vga t.savedScreen }
    let top := offset + scrollbackViewHeight - 1
    let top := if top > count then count else top
    let bottom := top - scrollbackViewHeight + 1
    let bottom := if bottom < 1 then 1 else bottom
    let t := { t with
      screen := view t.screen top bottom
      scrollbackActive := true
      scrollbackOffset := bottom }
    .ok (t.release g)

/-- The `memcpy` of `scrollbackExit`. -/
def restore (saved : Nat → BitVec 16) (s : Screen) : Screen :=
  { s with vga := fun i => if i < rows * vgaWidth then saved i else s.vga i }

/-- `Tty::scrollbackExit`. -/
def scrollbackExit (g : Locking) (t : Tty) : Except Stuck Tty := do
  let t ← t.acquire g
  if ¬ t.scrollbackActive then .ok (t.release g)
  else
    let t := { t with
      scrollbackActive := false
      scrollbackOffset := 0
      screen := restore t.savedScreen t.screen }
    .ok (t.release g)

/-- `Tty::putc`: any character leaves the view. -/
def putc (g : Locking) (t : Tty) (ch : BitVec 8) : Except Stuck Tty := do
  let t ← t.acquire g
  let t ← if t.scrollbackActive then t.scrollbackExit g else .ok t
  .ok ({ t with screen := t.screen.rawPutc ch }.release g)

/-- `Tty::scrollbackPageUp`. -/
def scrollbackPageUp (g : Locking) (t : Tty) : Except Stuck Tty :=
  let offset := if t.scrollbackActive then t.scrollbackOffset else 0
  let offset := offset + scrollbackViewHeight
  let offset := if offset > t.screen.scrollbackCount then (t.screen.scrollbackCount : Int)
    else offset
  t.scrollbackShow g offset

/-- `Tty::scrollbackHome`. -/
def scrollbackHome (g : Locking) (t : Tty) : Except Stuck Tty :=
  if t.screen.scrollbackCount = 0 then .ok t else t.scrollbackShow g t.screen.scrollbackCount

/-- `Tty::scrollbackLineUp`. -/
def scrollbackLineUp (g : Locking) (t : Tty) : Except Stuck Tty :=
  if ¬ t.scrollbackActive then .ok t
  else
    let offset := t.scrollbackOffset + 1
    if offset > t.screen.scrollbackCount then .ok t else t.scrollbackShow g offset

/-- `Tty::scrollbackLineDown` and `Tty::scrollbackPageDown`, by one line or by
the height of the view. -/
def scrollbackDown (g : Locking) (t : Tty) (n : Nat) : Except Stuck Tty :=
  if ¬ t.scrollbackActive then .ok t
  else
    let offset := t.scrollbackOffset - n
    if offset ≤ 0 then t.scrollbackExit g else t.scrollbackShow g offset

/-- `Tty::scrollbackLineDown`. -/
def scrollbackLineDown (g : Locking) (t : Tty) : Except Stuck Tty := t.scrollbackDown g 1

/-- `Tty::scrollbackPageDown`. -/
def scrollbackPageDown (g : Locking) (t : Tty) : Except Stuck Tty :=
  t.scrollbackDown g scrollbackViewHeight

/-- `Tty::putc(ch, row, col)`, `Tty::puts`, `Tty::putLine`, `Tty::cls`,
`Tty::cursorSetPos`, `Tty::setColor`, `Tty::setScrolling` and `Tty::getCursor`:
what they do to the screen under the lock. -/
def onScreen : TtyOp → Option (Screen → Screen)
  | .putcAt ch row col => some fun s =>
      { s with vga := set s.vga (row.toNat * vgaWidth + col.toNat) (vgaEntry ch s.termColor) }
  | .puts str => some fun s => s.rawPuts str
  | .putsAt str row col => some fun s =>
      { s with termRow := row.toNat, termCol := col.toNat }.rawPuts str
  | .putLine str row => some fun s => s.putLine str row.toNat
  | .cls => some Screen.cls
  | .cursorSetPos row col => some fun s => { s with termRow := row.toNat, termCol := col.toNat }
  | .setColor color => some fun s => { s with termColor := color }
  | .setScrolling enabled => some fun s => { s with scrolling := enabled }
  | .getCursor => some id
  | _ => none

/-- One operation. -/
def step (g : Locking) (t : Tty) : TtyOp → Except Stuck Tty
  | .putc ch => t.putc g ch
  | .scrollbackShow offset => t.scrollbackShow g offset
  | .scrollbackExit => t.scrollbackExit g
  | .scrollbackPageUp => t.scrollbackPageUp g
  | .scrollbackPageDown => t.scrollbackPageDown g
  | .scrollbackLineUp => t.scrollbackLineUp g
  | .scrollbackLineDown => t.scrollbackLineDown g
  | .scrollbackHome => t.scrollbackHome g
  | op =>
      match onScreen op with
      | some f => t.locked g f
      | none => .ok t

variable {t t' : Tty}

/-- Operations on the screen are locked bodies. -/
theorem step_onScreen {op : TtyOp} {f : Screen → Screen} (hf : onScreen op = some f) (g : Locking) :
    t.step g op = t.locked g f := by
  cases op with
  | putcAt | puts | putsAt | putLine | cls | cursorSetPos | setColor | setScrolling | getCursor =>
      cases hf
      rfl
  | _ => cases hf

/-! ## the lock -/

/-- Nobody holds the lock. -/
def Unlocked (t : Tty) : Prop := t.lock = 1

instance (t : Tty) : Decidable (Unlocked t) := inferInstanceAs (Decidable (_ = _))

/-- `putc` in the scrollback view calls `scrollbackExit`, which takes the lock
that `putc` has taken. -/
def Nested (t : Tty) : TtyOp → Prop
  | .putc _ => t.scrollbackActive = true
  | _ => False

/-- The operations that take the lock once. -/
def Unnested (t : Tty) (op : TtyOp) : Prop := ¬ Nested t op

instance (t : Tty) (op : TtyOp) : Decidable (Nested t op) := by
  cases op <;> unfold Nested <;> infer_instance

instance (t : Tty) (op : TtyOp) : Decidable (Unnested t op) := inferInstanceAs (Decidable (¬ _))

/-- The call comes back and the lock is free. -/
def Returns (x : Except Stuck Tty) : Prop := ∃ t', x = .ok t' ∧ Unlocked t'

/-- A free lock is taken. -/
theorem acquire_unlocked (h : Unlocked t) : t.acquire .semaphore = .ok { t with lock := 0 } := by
  unfold Unlocked at h
  simp [acquire, h]

/-- The lock is as it was. -/
theorem returns_self (h : Unlocked t) : Returns (.ok t) := ⟨t, rfl, h⟩

/-- A locked body returns. -/
theorem locked_returns (h : Unlocked t) (f : Screen → Screen) :
    Returns (t.locked .semaphore f) := by
  rw [locked, acquire_unlocked h]
  exact ⟨_, rfl, rfl⟩

/-- Entering the view returns. -/
theorem scrollbackShow_returns (h : Unlocked t) (offset : Int) :
    Returns (t.scrollbackShow .semaphore offset) := by
  rw [scrollbackShow, acquire_unlocked h]
  simp only [bind, Except.bind]
  split
  · exact ⟨_, rfl, rfl⟩
  · refine ⟨_, rfl, ?_⟩
    by_cases ha : t.scrollbackActive = true
    · simp [ha, release, Unlocked]
    · simp [ha, release, Unlocked]

/-- Leaving the view returns. -/
theorem scrollbackExit_returns (h : Unlocked t) : Returns (t.scrollbackExit .semaphore) := by
  rw [scrollbackExit, acquire_unlocked h]
  simp only [bind, Except.bind]
  split
  · exact ⟨_, rfl, rfl⟩
  · exact ⟨_, rfl, rfl⟩

/-- A character outside the view returns. -/
theorem putc_returns (h : Unlocked t) (ha : t.scrollbackActive = false) (ch : BitVec 8) :
    Returns (t.putc .semaphore ch) := by
  rw [putc, acquire_unlocked h]
  simp only [bind, Except.bind, ha]
  exact ⟨_, rfl, rfl⟩

/-- The second `lock_.wait()` finds the count at zero. -/
theorem putc_stuck (h : Unlocked t) (ha : t.scrollbackActive = true) (ch : BitVec 8) :
    t.putc .semaphore ch = .error .selfDeadlock := by
  rw [putc, acquire_unlocked h]
  simp [bind, Except.bind, ha, scrollbackExit, acquire]

/-- A step down in the view returns. -/
theorem scrollbackDown_returns (h : Unlocked t) (n : Nat) :
    Returns (t.scrollbackDown .semaphore n) := by
  unfold scrollbackDown
  split
  · exact returns_self h
  · dsimp only
    split
    · exact scrollbackExit_returns h
    · exact scrollbackShow_returns h _

/-- Every operation that does not lock twice returns. -/
theorem step_returns {op : TtyOp} (h : Unlocked t) (hn : Unnested t op) :
    Returns (t.step .semaphore op) := by
  cases op with
  | putc ch => exact putc_returns h (Bool.eq_false_iff.mpr hn) ch
  | scrollbackShow offset => exact scrollbackShow_returns h offset
  | scrollbackExit => exact scrollbackExit_returns h
  | scrollbackPageUp => exact scrollbackShow_returns h _
  | scrollbackPageDown => exact scrollbackDown_returns h _
  | scrollbackLineDown => exact scrollbackDown_returns h _
  | scrollbackLineUp =>
      simp only [step, scrollbackLineUp]
      split
      · exact returns_self h
      · split
        · exact returns_self h
        · exact scrollbackShow_returns h _
  | scrollbackHome =>
      simp only [step, scrollbackHome]
      split
      · exact returns_self h
      · exact scrollbackShow_returns h _
  | putcAt | puts | putsAt | putLine | cls | cursorSetPos | setColor | setScrolling | getCursor =>
      rw [step_onScreen rfl]
      exact locked_returns h _

/-- **The lock is given back** exactly where it is not taken twice. -/
theorem returns_iff {op : TtyOp} (h : Unlocked t) :
    Returns (t.step .semaphore op) ↔ ¬ Nested t op := by
  refine ⟨fun hret hn => ?_, step_returns h⟩
  cases op with
  | putc ch =>
      obtain ⟨t', hs, _⟩ := hret
      rw [step, putc_stuck h hn] at hs
      contradiction
  | _ => exact hn

/-- **The lock**: after every sequence of operations that take the lock once
the lock is free, and the next operation comes back with the lock free exactly
when it is not `putc` in the scrollback view. -/
theorem lock_released_iff {t₀ : Tty} {tr : List TtyOp} (h₀ : Unlocked t₀)
    (hr : Reach (step .semaphore) Unnested t₀ tr t) (op : TtyOp) :
    Unlocked t ∧ (Returns (t.step .semaphore op) ↔ ¬ Nested t op) := by
  have hfree : Unlocked t := by
    refine hr.inv h₀ fun s i s' hs hc hnext => ?_
    obtain ⟨u, hu, hfree⟩ := step_returns hs hc
    rw [hnext] at hu
    exact Except.ok.inj hu ▸ hfree
  exact ⟨hfree, returns_iff hfree⟩

/-- Output, a look at the scrollback and back. -/
def viewRun : List TtyOp :=
  [.puts [72, 105], .scrollbackShow 1, .scrollbackPageUp, .cursorSetPos 3 4,
    .scrollbackExit, .putc 33]

/-- The view is entered and left, and the screen is cleared. -/
theorem lock_released_viewRun :
    ∃ t : Tty, Reach (step .semaphore) Unnested {} viewRun t ∧
      Returns (t.step .semaphore .cls) := by
  obtain ⟨t, hr, _⟩ :=
    Reach.of_runsTo (step .semaphore) Unnested {} viewRun (fun _ => true) (by decide)
  have h₀ : Unlocked {} := rfl
  exact ⟨t, hr, (lock_released_iff h₀ hr .cls).2.mpr id⟩

/-- **Self-deadlock**: a character that is put in the scrollback view. -/
theorem putc_self_deadlock :
    ∃ t : Tty, Reach (step .semaphore) Free {} [.scrollbackShow 1] t ∧ Unlocked t ∧
      t.step .semaphore (.putc 97) = .error .selfDeadlock := by
  obtain ⟨t, hr, hp⟩ := Reach.of_runsTo (step .semaphore) Free {} [.scrollbackShow 1]
    (fun t => decide (t.scrollbackActive = true ∧ Unlocked t)) (by decide)
  obtain ⟨ha, hl⟩ := of_decide_eq_true hp
  exact ⟨t, hr, hl, putc_stuck hl ha 97⟩

/-! ## the view -/

/-- The screen under the view. -/
def under (t : Tty) : Screen := if t.scrollbackActive then restore t.savedScreen t.screen
    else t.screen

/-- Moving in the scrollback. -/
def navigates : TtyOp → Bool
  | .scrollbackShow
    _ | .scrollbackExit | .scrollbackPageUp | .scrollbackPageDown | .scrollbackLineUp
  | .scrollbackLineDown | .scrollbackHome => true
  | _ => false

/-- What an operation does to the screen under the view. -/
def output : TtyOp → Screen → Screen
  | .putc ch => fun s => s.rawPutc ch
  | op => (onScreen op).getD id

/-- The operations that write to video memory without leaving the view. -/
def Overwrites : TtyOp → Prop
  | .putcAt _ _ _ | .puts _ | .putsAt _ _ _ | .putLine _ _ | .cls => True
  | _ => False

/-- Nothing is written over the view. -/
def Respects (t : Tty) (op : TtyOp) : Prop := t.scrollbackActive = true → ¬ Overwrites op

instance (op : TtyOp) : Decidable (Overwrites op) := by
  cases op <;> unfold Overwrites <;> infer_instance

instance (t : Tty) (op : TtyOp) : Decidable (Respects t op) := inferInstanceAs (Decidable (_ → _))

/-- Without a view the screen is what is under it. -/
theorem under_inactive (h : t.scrollbackActive = false) : t.under = t.screen := by
  simp [under, h]

/-- With a view the saved cells are under it. -/
theorem under_active (h : t.scrollbackActive = true) :
    t.under = restore t.savedScreen t.screen := by
  simp [under, h]

/-- Drawing the view changes only what leaving it restores. -/
theorem restore_view (saved : Nat → BitVec 16) (s : Screen) (top bottom : Int) :
    restore saved (view s top bottom) = restore saved s := by
  have hvga : (restore saved (view s top bottom)).vga = (restore saved s).vga := by
    funext i
    by_cases hi : i < rows * vgaWidth
    · simp only [restore, hi, if_true]
    · have hrow : ¬ i / vgaWidth < rows := by
        rw [Nat.div_lt_iff_lt_mul (by decide)]
        exact hi
      have hzero : i / vgaWidth ≠ 0 := fun h0 => hrow (by rw [h0]; decide)
      simp only [restore, hi, if_false, view, hzero, hrow]
  calc
    restore saved (view s top bottom) =
        { s with vga := (restore saved (view s top bottom)).vga } := rfl
    _ = restore saved s := by rw [hvga]; rfl

/-- What was saved comes back. -/
theorem restore_save (s : Screen) (saved : Nat → BitVec 16) : restore (save s.vga saved) s = s := by
  have hvga : (restore (save s.vga saved) s).vga = s.vga := by
    funext i
    simp only [restore, save]
    split <;> rfl
  calc
    restore (save s.vga saved) s = { s with vga := (restore (save s.vga saved) s).vga } := rfl
    _ = s := by rw [hvga]

/-- Entering the view saves what is under it. -/
theorem scrollbackShow_under {offset : Int} (h : t.scrollbackShow .granted offset = .ok t') :
    t'.under = t.under := by
  simp only [scrollbackShow, acquire, release, bind, Except.bind] at h
  split at h
  · rw [← Except.ok.inj h]
  · rw [← Except.ok.inj h, under_active rfl]
    dsimp only
    by_cases ha : t.scrollbackActive = true
    · rw [if_pos ha, under_active ha]
      exact restore_view _ _ _ _
    · rw [if_neg ha, under_inactive (Bool.eq_false_iff.mpr ha), restore_view]
      exact restore_save _ _

/-- Leaving the view brings back what is under it. -/
theorem scrollbackExit_under (h : t.scrollbackExit .granted = .ok t') :
    t'.under = t.under ∧ t'.scrollbackActive = false := by
  simp only [scrollbackExit, acquire, release, bind, Except.bind] at h
  split at h
  · next ha =>
      rw [← Except.ok.inj h]
      exact ⟨rfl, Bool.eq_false_iff.mpr ha⟩
  · next ha =>
      rw [← Except.ok.inj h, under_active (not_not.mp ha)]
      exact ⟨rfl, rfl⟩

/-- A step down keeps what is under the view. -/
theorem scrollbackDown_under {n : Nat} (h : t.scrollbackDown .granted n = .ok t') :
    t'.under = t.under := by
  unfold scrollbackDown at h
  split at h
  · rw [← Except.ok.inj h]
  · dsimp only at h
    split at h
    · exact (scrollbackExit_under h).1
    · exact scrollbackShow_under h

/-- A character is put on the screen under the view, which it leaves. -/
theorem putc_under {ch : BitVec 8} (h : t.putc .granted ch = .ok t') :
    t'.screen = t.under.rawPutc ch ∧ t'.scrollbackActive = false := by
  simp only [putc, acquire, release] at h
  rw [bind_eq_ok] at h
  obtain ⟨t₁, h₁, h⟩ := h
  cases h₁
  split at h
  · rw [bind_eq_ok] at h
    obtain ⟨t₂, h₂, h⟩ := h
    obtain ⟨hu, hf⟩ := scrollbackExit_under h₂
    rw [← Except.ok.inj h]
    exact ⟨by rw [← hu, under_inactive hf], hf⟩
  · next ha =>
      have hf := Bool.eq_false_iff.mpr ha
      rw [← Except.ok.inj h]
      exact ⟨by rw [under_inactive hf], hf⟩

/-- The operations on the screen that may be used in the view commute with
leaving it. -/
theorem output_restore {op : TtyOp} {f : Screen → Screen} (hf : onScreen op = some f)
    (hop : ¬ Overwrites op) (saved : Nat → BitVec 16) (s : Screen) :
    restore saved (f s) = f (restore saved s) := by
  cases op with
  | cursorSetPos | setColor | setScrolling | getCursor =>
      cases hf
      rfl
  | putcAt | puts | putsAt | putLine | cls => exact absurd trivial hop
  | _ => cases hf

/-- Output outside the view goes to what is under it. -/
theorem locked_under {op : TtyOp} {f : Screen → Screen} (hf : onScreen op = some f)
    (hop : Respects t op) (h : t.locked .granted f = .ok t') :
    t'.under = f t.under ∧ t'.scrollbackActive = t.scrollbackActive := by
  simp only [locked, acquire, release, bind, Except.bind, Except.ok.injEq] at h
  subst h
  refine ⟨?_, rfl⟩
  by_cases ha : t.scrollbackActive = true
  · rw [under_active ha, under_active (t := { t with screen := f t.screen }) ha]
    exact output_restore hf (hop ha) _ _
  · have hf' := Bool.eq_false_iff.mpr ha
    rw [under_inactive hf', under_inactive (t := { t with screen := f t.screen }) hf']

/-- **One step under the view**: navigation changes nothing there, and output
does what it does without a view. -/
theorem step_under {op : TtyOp} (hop : Respects t op) (h : t.step .granted op = .ok t') :
    t'.under = output op t.under := by
  cases op with
  | putc ch =>
      obtain ⟨hs, ha⟩ := putc_under h
      rw [under_inactive ha, hs]
      rfl
  | scrollbackShow offset => exact scrollbackShow_under h
  | scrollbackExit => exact (scrollbackExit_under h).1
  | scrollbackPageUp => exact scrollbackShow_under h
  | scrollbackPageDown => exact scrollbackDown_under h
  | scrollbackLineDown => exact scrollbackDown_under h
  | scrollbackLineUp =>
      simp only [step, scrollbackLineUp] at h
      split at h
      · rw [← Except.ok.inj h]
        rfl
      · split at h
        · rw [← Except.ok.inj h]
          rfl
        · exact scrollbackShow_under h
  | scrollbackHome =>
      simp only [step, scrollbackHome] at h
      split at h
      · rw [← Except.ok.inj h]
        rfl
      · exact scrollbackShow_under h
  | putcAt | puts | putsAt | putLine | cls | cursorSetPos | setColor | setScrolling | getCursor =>
      rw [step_onScreen rfl] at h
      exact (locked_under rfl hop h).1

/-- Without a view, output operations take effect at once and show no view. -/
theorem output_step {u : Tty} {op : TtyOp} (hu : u.scrollbackActive = false)
    (hop : navigates op = false) :
    ∃ u', u.step .granted op = .ok u' ∧ u'.scrollbackActive = false ∧
      u'.screen = output op u.screen := by
  cases op with
  | putc ch =>
      refine ⟨{ u with screen := u.screen.rawPutc ch }, ?_, hu, rfl⟩
      simp [step, putc, acquire, release, hu, bind, Except.bind]
  | putcAt | puts | putsAt | putLine | cls | cursorSetPos | setColor | setScrolling | getCursor =>
      exact ⟨_, rfl, hu, rfl⟩
  | _ => contradiction

/-- Navigation writes nothing. -/
theorem output_of_navigates {op : TtyOp} (h : navigates op = true) (s : Screen) :
    output op s = s := by
  cases op with
  | scrollbackShow | scrollbackExit | scrollbackPageUp | scrollbackPageDown | scrollbackLineUp
  | scrollbackLineDown | scrollbackHome => rfl
  | _ => contradiction

/-- The output operations of a run. -/
def outputs (tr : List TtyOp) : List TtyOp := tr.filter fun op => !navigates op

/-- The output operations alone lead to the screen under the view. -/
theorem outputs_under {t₀ : Tty} {tr : List TtyOp} (h₀ : t₀.scrollbackActive = false)
    (hr : Reach (step .granted) Respects t₀ tr t) :
    ∃ u, Reach (step .granted) Free t₀ (outputs tr) u ∧ u.scrollbackActive = false ∧
      u.screen = t.under := by
  induction hr with
  | nil => exact ⟨t₀, .nil, h₀, (under_inactive h₀).symm⟩
  | @snoc tr s s' op _ hop hs ih =>
      obtain ⟨u, hu, ha, hscreen⟩ := ih
      have hunder := step_under hop hs
      by_cases hnav : navigates op = true
      · refine ⟨u, ?_, ha, ?_⟩
        · simpa [outputs, hnav] using hu
        · rw [hunder, output_of_navigates hnav, hscreen]
      · have hnav' := Bool.eq_false_iff.mpr hnav
        obtain ⟨u', hu', ha', hscreen'⟩ := output_step ha hnav'
        refine ⟨u', ?_, ha', ?_⟩
        · have hlist : outputs (tr ++ [op]) = outputs tr ++ [op] := by simp [outputs, hnav']
          rw [hlist]
          exact .snoc hu trivial hu'
        · rw [hscreen', hscreen, hunder]

/-- **Transparent view**: after a run that writes nothing over the view and
leaves it in the end, the screen is that of the output operations alone. -/
theorem view_transparent {t₀ : Tty} {tr : List TtyOp} (h₀ : t₀.scrollbackActive = false)
    (hr : Reach (step .granted) Respects t₀ tr t) (ht : t.scrollbackActive = false) :
    ∃ u, Reach (step .granted) Free t₀ (outputs tr) u ∧ u.scrollbackActive = false ∧
      u.screen = t.screen := by
  rw [← under_inactive ht]
  exact outputs_under h₀ hr

/-- With the view and without, the screen ends the same. -/
theorem view_transparent_viewRun :
    ∃ t u : Tty, Reach (step .granted) Respects {} viewRun t ∧
      Reach (step .granted) Free {} (outputs viewRun) u ∧ u.screen = t.screen := by
  obtain ⟨t, hr, hp⟩ := Reach.of_runsTo (step .granted) Respects {} viewRun
    (fun t => decide (t.scrollbackActive = false)) (by decide)
  obtain ⟨u, hu, _, hscreen⟩ := view_transparent rfl hr (of_decide_eq_true hp)
  exact ⟨t, u, hr, hu, hscreen⟩

/-- **Lost output**: a string that is written over the view is gone when the
view is left. -/
theorem puts_lost :
    ∃ t u : Tty,
      Reach (step .granted) Free {} [.scrollbackShow 1, .puts [120], .scrollbackExit] t ∧
        Reach (step .granted) Free {} (outputs [.scrollbackShow 1, .puts [120], .scrollbackExit])
          u ∧
          t.scrollbackActive = false ∧ t.screen.vga 0 = 0 ∧ u.screen.vga 0 ≠ 0 := by
  obtain ⟨t, hr, hp⟩ := Reach.of_runsTo (step .granted) Free {}
    [.scrollbackShow 1, .puts [120], .scrollbackExit]
    (fun t => decide (t.scrollbackActive = false ∧ t.screen.vga 0 = 0)) (by decide)
  obtain ⟨u, hu, hq⟩ := Reach.of_runsTo (step .granted) Free {}
    (outputs [.scrollbackShow 1, .puts [120], .scrollbackExit])
    (fun u => decide (u.screen.vga 0 ≠ 0)) (by decide)
  obtain ⟨ha, hzero⟩ := of_decide_eq_true hp
  exact ⟨t, u, hr, hu, ha, hzero, of_decide_eq_true hq⟩

end Tty

end Doors
