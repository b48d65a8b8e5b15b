import Doors.Task

/-!
# Doors.Pit

The one-shot timer (`kernel/arch/i386/Pit.cc`): a software clock that is
advanced to the programmed deadline whenever the timer fires.  Of the divisor
that `setDivisor` writes to the hardware the model keeps the milliseconds it
stands for and a count of the writes; nothing in the kernel reads them back.
-/

namespace Doors

/-- `pitTicks`, `pitDeadlineMs` and what channel 0 was last loaded with. -/
structure Pit where
  ticks : Nat := 0
  deadlineMs : Nat := 0
  loadedMs : Nat := 0
  loads : Nat := 0
  deriving Repr, DecidableEq, Inhabited

namespace Pit

/-- The longest one-shot delay. -/
def pitMaxMs : Nat := 54

/-- `Pit::programForMs`. -/
def programForMs (p : Pit) (ms : Nat) : Pit :=
  let ms := if ms = 0 then 1 else ms
  let ms := if ms > pitMaxMs then pitMaxMs else ms
  { p with deadlineMs := add64 p.ticks ms, loadedMs := ms, loads := p.loads + 1 }

/-- `Pit::init`. -/
def init (p : Pit) : Pit := { p with ticks := 0, deadlineMs := 0 }.programForMs 1

/-- `Pit::tick`. -/
def tick (p : Pit) : Pit := { p with ticks := p.deadlineMs }

/-- `Pit::uptimeMs`. -/
def uptimeMs (p : Pit) : Nat := p.ticks

/-- `Pit::deadline`. -/
def deadline (p : Pit) : Nat := p.deadlineMs

@[simp] theorem programForMs_ticks (p : Pit) (ms : Nat) : (p.programForMs ms).ticks = p.ticks := rfl

end Pit

end Doors
