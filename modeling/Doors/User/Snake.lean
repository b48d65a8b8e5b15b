import Mathlib.Algebra.Group.Nat.Defs
import Mathlib.Data.Finset.Card
import Mathlib.Data.Finset.Image
import Mathlib.Data.List.Perm.Basic
import Mathlib.Logic.Function.Iterate
import Doors.Lib.Run
import Doors.Lib.Cells

/-!
# Doors.User.Snake

The snake game (`user/snake/Game.cc`) without its drawing.

The snake is a ring buffer; food, bonus food, obstacles and boost zones are
put on random cells by five routines.  Each of them draws cells from a linear
congruential generator until one passes its checks, and gives up after a
number of attempts.

* `Tidy` — everything is on the board and on cells of its own;
* `Stage` — `init` and `step` taken apart at their placements, so that a
  condition can be put on the state before each of them;
* `board_tidy` — a game stays tidy as long as the pseudo-random sequence does
  not offer a routine a cell of an object that it does not check (`Clear`);
* `obstacle_on_food` — `placeObstacles` does not check the food.
-/

namespace Doors.Snake

open Cells Run

inductive Dir where
  | up
  | down
  | left
  | right
  deriving DecidableEq, Repr

structure Pos where
  row : Int
  col : Int
  deriving DecidableEq, Repr

/-! ## constants -/

def boardRows : Nat := 23
def boardCols : Nat := 78
def snakeMax : Nat := 100
def bonusPoints : Nat := 3
def bonusIntervalMs : Nat := 8000
def bonusDurationMinMs : Nat := 4000
def bonusHighlightMs : Nat := 2000
def maxObstacles : Nat := 20
def obstacleInitCount : Nat := 10
def obstacleStepInterval : Nat := 3
def maxBoostZones : Nat := 3
def boostDurationMs : Nat := 4000
def boostRespawnMs : Nat := 8000

/-- The number of cells, which bounds the attempts of a placement. -/
def maxCells : Nat := boardRows * boardCols

/-- The cell the snake starts on. -/
def center : Pos := ⟨12, 40⟩

/-- `uint64_t` addition of durations. -/
def addMs (a b : Nat) : Nat := (a + b) % 2 ^ 64

/-- The game.  The arrays of obstacles and boost zones are the lists of their
used cells; `front` is what lies in memory before the array `body`. -/
structure Game where
  body : Nat → Pos := fun _ => ⟨0, 0⟩
  front : Nat → Pos := fun _ => ⟨0, 0⟩
  head : Nat := 0
  length : Nat := 1
  dir : Dir := .right
  food : Pos := ⟨0, 0⟩
  bonusFood : Pos := ⟨0, 0⟩
  obstacles : List Pos := []
  eatsSinceObstacle : Nat := 0
  lcg : Nat := 0
  score : Nat := 0
  bonusElapsedMs : Nat := 0
  bonusRemainingMs : Nat := 0
  scoreHighlightRemainingMs : Nat := 0
  wrapMode : Bool := false
  started : Bool := false
  bonusActive : Bool := false
  boostZones : List Pos := []
  boostActive : Bool := false
  boostTimerMs : Nat := 0
  boostCooldownMs : Nat := 0

/-! ## random cells -/

/-- `SnakeGame::lcgNext`. -/
def lcgNext (lcg : Nat) : Nat := (lcg * 1664525 + 1013904223) % 2 ^ 32

/-- The cell drawn from two numbers of the generator. -/
def draw (lcg : Nat) : Pos × Nat :=
  let lcg := lcgNext lcg
  let r : Int := (lcg % boardRows : Nat) + 1
  let lcg := lcgNext lcg
  let c : Int := (lcg % boardCols : Nat) + 1
  (⟨r, c⟩, lcg)

/-- Draw until a cell is not taken, for a number of attempts: the loop of
`placeFood`, `placeBonusFood` and `spawnObstacle`. -/
def place (taken : Pos → Bool) : Nat → Nat → Option Pos × Nat
  | 0, lcg => (none, lcg)
  | attempts + 1, lcg =>
      let (p, lcg) := draw lcg
      if taken p then place taken attempts lcg else (some p, lcg)

/-- Draw until `limit` cells have been found: the loop of `placeObstacles` and
`placeBoostZones`. -/
def scatter (taken : Pos → Bool) (limit : Nat) : Nat → Nat → List Pos → List Pos × Nat
  | 0, lcg, found => (found, lcg)
  | attempts + 1, lcg, found =>
      if found.length < limit then
        let (p, lcg) := draw lcg
        if taken p ∨ p ∈ found then scatter taken limit attempts lcg found
        else scatter taken limit attempts lcg (found ++ [p])
      else (found, lcg)

namespace Game

/-- The index `(head_ - i + SNAKE_MAX) % SNAKE_MAX`, which can be negative. -/
def ringIndex (head i : Nat) : Int := Int.tmod (head - i + snakeMax) snakeMax

/-- `body_[idx]`. -/
def cell (g : Game) (idx : Int) : Pos :=
  match idx with
  | .ofNat k => g.body k
  | .negSucc k => g.front k

/-- Segment `i` of the snake, counted from its head. -/
def segment (g : Game) (i : Nat) : Pos := g.cell (ringIndex g.head i)

/-- The snake from head to tail. -/
def segments (g : Game) : List Pos := (List.range g.length).map g.segment

/-! ## placing -/

/-- The cell `spawnObstacle` finds. -/
def obstacleCell (g : Game) : Option Pos × Nat :=
  place (fun p => p ∈ g.segments ∨ p = g.food ∨ g.bonusActive ∧ p = g.bonusFood ∨ p ∈ g.obstacles)
    (maxCells * 2) g.lcg

/-- `SnakeGame::spawnObstacle`. -/
def spawnObstacle (g : Game) : Game :=
  match g.obstacleCell with
  | (some p, lcg) => { g with obstacles := g.obstacles ++ [p], lcg }
  | (none, lcg) => { g with lcg }

/-- The cell `placeFood` finds. -/
def foodCell (g : Game) : Option Pos × Nat :=
  place (fun p => p ∈ g.segments ∨ p ∈ g.obstacles) (maxCells * 2) g.lcg

/-- `SnakeGame::placeFood`. -/
def placeFood (g : Game) : Game :=
  match g.foodCell with
  | (some p, lcg) => { g with food := p, lcg }
  | (none, lcg) => { g with lcg }

/-- The cell `placeBonusFood` finds. -/
def bonusCell (g : Game) : Option Pos × Nat :=
  place (fun p => p = g.food ∨ p ∈ g.segments ∨ p ∈ g.obstacles) (maxCells * 2) g.lcg

/-- `SnakeGame::placeBonusFood`. -/
def placeBonusFood (g : Game) : Game :=
  match g.bonusCell with
  | (some p, lcg) => { g with bonusFood := p, lcg }
  | (none, lcg) => { g with lcg }

/-- `SnakeGame::placeObstacles`: only the head and other obstacles are
skipped. -/
def placeObstacles (g : Game) : Game :=
  let (found, lcg) := scatter (fun p => p = g.segment 0) obstacleInitCount (maxCells * 3) g.lcg []
  { g with obstacles := found, lcg }

/-- `SnakeGame::placeBoostZones`. -/
def placeBoostZones (g : Game) : Game :=
  let (found, lcg) := scatter
    (fun p => p ∈ g.segments ∨ p ∈ g.obstacles ∨ p = g.food ∨ g.bonusActive ∧ p = g.bonusFood)
    maxBoostZones (maxCells * 3) g.lcg []
  { g with boostZones := found, lcg }

/-- The assignments of `init`. -/
def reset (g : Game) (prngSeed : Nat) : Game :=
  { g with
    lcg := prngSeed, head := 0, length := 1, dir := .right, score := 0, body := set g.body 0 center
    bonusActive := false, bonusElapsedMs := 0, bonusRemainingMs := 0, scoreHighlightRemainingMs := 0
    obstacles := [],
    eatsSinceObstacle := 0,
    boostZones := [],
    boostActive := false,
    boostTimerMs := 0
    boostCooldownMs := 0 }

/-- `SnakeGame::init` up to the first food. -/
def initFood (g : Game) (prngSeed : Nat) : Game := (g.reset prngSeed).placeFood

/-- `SnakeGame::init`. -/
def init (g : Game) (prngSeed : Nat) (withObstacles : Bool) : Game :=
  let g := g.initFood prngSeed
  let g := if withObstacles then g.placeObstacles else g
  g.placeBoostZones

/-! ## moving -/

/-- `SnakeGame::isOpposite`. -/
def isOpposite : Dir → Dir → Bool
  | .up, .down | .down, .up | .left, .right | .right, .left => true
  | _, _ => false

/-- `SnakeGame::setDir`. -/
def setDir (g : Game) (d : Dir) : Game := if isOpposite g.dir d then g else { g with dir := d }

/-- `SnakeGame::setWrapMode`. -/
def setWrapMode (g : Game) (on : Bool) : Game := { g with wrapMode := on }

/-- The cell next to the head. -/
def ahead (g : Game) : Pos :=
  let h := g.segment 0
  match g.dir with
  | .up => ⟨h.row - 1, h.col⟩
  | .down => ⟨h.row + 1, h.col⟩
  | .left => ⟨h.row, h.col - 1⟩
  | .right => ⟨h.row, h.col + 1⟩

/-- Wrap one coordinate to `1 .. n`. -/
def wrap (n : Nat) (x : Int) : Int := if x < 1 then n else if x > n then 1 else x

/-- Where `step` moves the head. -/
def next (g : Game) : Pos :=
  let p := g.ahead
  if g.wrapMode then ⟨wrap boardRows p.row, wrap boardCols p.col⟩ else p

/-- `SnakeGame::wallCollision`. -/
def wallCollision (p : Pos) : Bool := p.row < 1 ∨ p.row > boardRows ∨ p.col < 1 ∨ p.col > boardCols

/-- `SnakeGame::selfCollision`: the head itself is left out. -/
def selfCollision (g : Game) (p : Pos) : Bool := p ∈ g.segments.tail

/-- `SnakeGame::obstacleCollision`. -/
def obstacleCollision (g : Game) (p : Pos) : Bool := p ∈ g.obstacles

/-- The tests at the start of `step`. -/
def collides (g : Game) : Bool :=
  (!g.wrapMode && wallCollision g.next) || g.selfCollision g.next || g.obstacleCollision g.next

/-- The head moves on; the tail is given up by not being counted. -/
def advance (g : Game) (p : Pos) : Game :=
  let head := (g.head + 1) % snakeMax
  { g with started := true, head, body := set g.body head p }

/-- An obstacle is due with the food that is eaten now. -/
def obstacleDue (g : Game) : Bool :=
  g.obstacles.length < maxObstacles ∧ g.eatsSinceObstacle + 1 ≥ obstacleStepInterval

/-- The snake grows, before the obstacle that may be due. -/
def grow (g : Game) : Game :=
  { g with
    length := g.length + 1
    score := g.score + 1
    eatsSinceObstacle :=
      if g.obstacles.length < maxObstacles then
        if g.eatsSinceObstacle + 1 ≥ obstacleStepInterval then 0 else g.eatsSinceObstacle + 1
      else g.eatsSinceObstacle }

/-- The head is on the food. -/
def eat (g : Game) : Game := if g.obstacleDue then g.grow.spawnObstacle else g.grow

/-- The head is on the bonus food. -/
def eatBonus (g : Game) (p : Pos) : Game :=
  if g.bonusActive ∧ p = g.bonusFood then
    { g with
      score := g.score + bonusPoints,
      bonusActive := false,
      scoreHighlightRemainingMs := bonusHighlightMs }
  else g

/-- `*it = zones[--count]`. -/
def swapRemove (zones : List Pos) (i : Nat) : List Pos :=
  (zones.set i (zones.getLastD ⟨0, 0⟩)).dropLast

/-- The head is on a boost zone. -/
def consumeBoost (g : Game) (p : Pos) : Game :=
  match g.boostZones.findIdx? (· = p) with
  | some i =>
      { g with
        boostZones := swapRemove g.boostZones i, boostActive := true,
        boostTimerMs := boostDurationMs }
  | none => g

/-- The boost runs out. -/
def runBoost (g : Game) (dtMs : Nat) : Game :=
  if g.boostActive then
    if dtMs ≥ g.boostTimerMs then { g with boostActive := false, boostTimerMs := 0 }
    else { g with boostTimerMs := g.boostTimerMs - dtMs }
  else g

/-- New boost zones once all have been consumed. -/
def respawnBoost (g : Game) (dtMs : Nat) : Game :=
  if g.boostZones = [] then
    let g := { g with boostCooldownMs := addMs g.boostCooldownMs dtMs }
    if g.boostCooldownMs ≥ boostRespawnMs then { g.placeBoostZones with boostCooldownMs := 0 }
      else g
  else g

/-- The bonus food runs out. -/
def runBonus (g : Game) (dtMs : Nat) : Game :=
  if g.bonusActive then
    if dtMs ≥ g.bonusRemainingMs then
      { g with
        bonusActive := false, bonusElapsedMs := addMs g.bonusElapsedMs (dtMs - g.bonusRemainingMs) }
    else
      { g with
        bonusRemainingMs := g.bonusRemainingMs - dtMs,
        bonusElapsedMs := addMs g.bonusElapsedMs dtMs }
  else { g with bonusElapsedMs := addMs g.bonusElapsedMs dtMs }

/-- The highlighted score runs out. -/
def runHighlight (g : Game) (dtMs : Nat) : Game :=
  { g with scoreHighlightRemainingMs := g.scoreHighlightRemainingMs - dtMs }

/-- `SnakeGame::bonusDurationMs`; the difference is a `uint64_t`. -/
def bonusDurationMs (g : Game) : Nat :=
  let ms := (bonusIntervalMs + 2 ^ 64 - g.length * 200) % 2 ^ 64
  if ms < bonusDurationMinMs then bonusDurationMinMs else ms

/-- New bonus food is due. -/
def bonusDue (g : Game) : Bool := !g.bonusActive ∧ g.bonusElapsedMs ≥ bonusIntervalMs

/-- The bonus food appears. -/
def spawnBonus (g : Game) : Game :=
  if g.bonusDue then
    let g := { g with bonusElapsedMs := 0 }.placeBonusFood
    { g with bonusRemainingMs := g.bonusDurationMs, bonusActive := true }
  else g

/-- The head is on the food after the move. -/
def ate (g : Game) : Bool := g.next = g.food

/-- `step` up to the boost zones that are consumed. -/
def moved (g : Game) : Game :=
  let p := g.next
  let h := g.advance p
  let h := if g.ate then h.eat else h
  (h.eatBonus p).consumeBoost p

/-- `step` up to the new food. -/
def fed (g : Game) : Game := if g.ate then g.moved.placeFood else g.moved

/-- `step` up to the new bonus food. -/
def ticked (g : Game) (dtMs : Nat) : Game :=
  (((g.fed.runBoost dtMs).respawnBoost dtMs).runBonus dtMs).runHighlight dtMs

/-- `SnakeGame::step`; `false` ends the game. -/
def step (g : Game) (dtMs : Nat) : Bool × Game :=
  if g.collides then (false, { g with started := true }) else (true, (g.ticked dtMs).spawnBonus)

/-! ## tidy boards -/

/-- The active bonus food. -/
def bonus (g : Game) : List Pos := if g.bonusActive then [g.bonusFood] else []

/-- Everything on the board but the food. -/
def objects (g : Game) : List Pos := g.segments ++ (g.obstacles ++ (g.boostZones ++ g.bonus))

end Game

/-- Rows `1 .. 23` and columns `1 .. 78`. -/
def OnBoard (p : Pos) : Prop := 1 ≤ p.row ∧ p.row ≤ boardRows ∧ 1 ≤ p.col ∧ p.col ≤ boardCols

instance (p : Pos) : Decidable (OnBoard p) := inferInstanceAs (Decidable (_ ∧ _))

/-- Different cells of the board. -/
def Neat (l : List Pos) : Prop := l.Nodup ∧ ∀ p ∈ l, OnBoard p

/-- **Tidy board**: the food, the snake's segments, the obstacles, the boost
zones and the active bonus food are on different cells of the board. -/
def Game.Tidy (g : Game) : Prop := Neat (g.food :: g.objects)

variable {g : Game} {l l' : List Pos} {p q : Pos} {lcg : Nat}

theorem neat_nil : Neat [] := ⟨List.nodup_nil, fun _ hm => by contradiction⟩

/-- The order does not matter. -/
theorem Neat.perm (h : Neat l) (hp : l'.Perm l) : Neat l' :=
  ⟨hp.nodup_iff.mpr h.1, fun p hm => h.2 p (hp.mem_iff.mp hm)⟩

/-- Fewer cells are neat. -/
theorem Neat.sublist (h : Neat l) (hs : l'.Sublist l) : Neat l' :=
  ⟨hs.nodup h.1, fun p hm => h.2 p (hs.subset hm)⟩

/-- A new cell. -/
theorem Neat.cons (h : Neat l) (hb : OnBoard p) (hp : p ∉ l) : Neat (p :: l) := by
  refine ⟨List.nodup_cons.mpr ⟨hp, h.1⟩, fun q hq => ?_⟩
  rcases List.mem_cons.mp hq with rfl | hq
  · exact hb
  · exact h.2 q hq

/-- Cells that do not meet. -/
theorem Neat.append (h : Neat l) (h' : Neat l') (hd : ∀ p ∈ l, p ∉ l') : Neat (l ++ l') := by
  refine ⟨List.nodup_append.mpr ⟨h.1, h'.1, fun p hp q hq he => hd p hp (he ▸ hq)⟩, fun p hp => ?_⟩
  rcases List.mem_append.mp hp with hp | hp
  · exact h.2 p hp
  · exact h'.2 p hp

/-- The first cell and the rest. -/
theorem Neat.of_cons (h : Neat (p :: l)) : OnBoard p ∧ p ∉ l ∧ Neat l :=
  ⟨h.2 p List.mem_cons_self, (List.nodup_cons.mp h.1).1, h.sublist (List.sublist_cons_self p l)⟩

/-! ## random cells are on the board -/

/-- A drawn cell is on the board. -/
theorem draw_onBoard (lcg : Nat) : OnBoard (draw lcg).1 := by
  have hr := Nat.mod_lt (lcgNext lcg) (show boardRows > 0 by decide)
  have hc := Nat.mod_lt (lcgNext (lcgNext lcg)) (show boardCols > 0 by decide)
  unfold OnBoard draw
  dsimp only
  omega

/-- A placed cell is on the board and free. -/
theorem place_spec {taken : Pos → Bool} {n : Nat} (h : (place taken n lcg).1 = some p) :
    OnBoard p ∧ taken p = false := by
  induction n generalizing lcg with
  | zero => contradiction
  | succ n ih =>
      simp only [place] at h
      split at h
      · exact ih h
      · next hfree =>
          have hp := Option.some.inj h
          subst hp
          exact ⟨draw_onBoard lcg, Bool.eq_false_iff.mpr hfree⟩

/-- Scattered cells are free and apart. -/
theorem scatter_spec (taken : Pos → Bool) (limit n lcg : Nat) (h : Neat l)
    (hl : ∀ p ∈ l, taken p = false) :
    Neat (scatter taken limit n lcg l).1 ∧ ∀ p ∈ (scatter taken limit n lcg l).1,
      taken p = false := by
  induction n generalizing lcg l with
  | zero => exact ⟨h, hl⟩
  | succ n ih =>
      simp only [scatter]
      split
      · split
        · exact ih _ h hl
        · next hfree =>
            rw [not_or] at hfree
            have hperm : (l ++ [(draw lcg).1]).Perm ((draw lcg).1 :: l) :=
              List.perm_append_singleton _ _
            refine ih _ ((h.cons (draw_onBoard lcg) hfree.2).perm hperm) fun p hp => ?_
            rcases List.mem_cons.mp (hperm.mem_iff.mp hp) with rfl | hp
            · exact Bool.eq_false_iff.mpr hfree.1
            · exact hl p hp
      · exact ⟨h, hl⟩

/-! ## the pseudo-random sequence -/

/-- The generator after a cell has been drawn. -/
def drawn (lcg : Nat) : Nat := (draw lcg).2

/-- Cell `k` of the sequence that goes on from `lcg`. -/
def cellAt (lcg k : Nat) : Pos := (draw (drawn^[k] lcg)).1

/-- Of the next `n` cells of the sequence, cell `k` is the first one off `l`. -/
structure Offers (lcg n : Nat) (l : List Pos) (k : Nat) : Prop where
  within : k < n
  before : ∀ j < k, cellAt lcg j ∈ l
  off : cellAt lcg k ∉ l

/-- The cells off `l` among the next `k` of the sequence. -/
def offered (lcg : Nat) (l : List Pos) (k : Nat) : Finset Pos :=
  ((Finset.range k).image (cellAt lcg)).filter (· ∉ l)

/-- The first draw. -/
theorem cellAt_zero (lcg : Nat) : cellAt lcg 0 = (draw lcg).1 := by
  simp only [cellAt, Function.iterate_zero, id_eq]

/-- The next draws. -/
theorem cellAt_succ (lcg k : Nat) : cellAt lcg (k + 1) = cellAt (drawn lcg) k := by
  rw [cellAt, cellAt, Function.iterate_succ_apply]

/-- The first draw is free. -/
theorem Offers.zero {n k : Nat} (h : cellAt lcg 0 ∉ l) : Offers lcg (n + 1) l k ↔ k = 0 := by
  constructor
  · intro hk
    by_contra hne
    exact h (hk.before 0 (Nat.pos_of_ne_zero hne))
  · rintro rfl
    exact ⟨Nat.succ_pos n, fun j hj => absurd hj (Nat.not_lt_zero j), h⟩

/-- The first draw is not free. -/
theorem Offers.succ {n k : Nat} (h : cellAt lcg 0 ∈ l) :
    Offers lcg (n + 1) l (k + 1) ↔ Offers (drawn lcg) n l k := by
  constructor
  · intro hk
    refine ⟨Nat.lt_of_succ_lt_succ hk.within, fun j hj => ?_, ?_⟩
    · rw [← cellAt_succ]
      exact hk.before (j + 1) (Nat.succ_lt_succ hj)
    · rw [← cellAt_succ]
      exact hk.off
  · intro hk
    refine ⟨Nat.succ_lt_succ hk.within, fun j hj => ?_, ?_⟩
    · cases j with
      | zero => exact h
      | succ j =>
          rw [cellAt_succ]
          exact hk.before j (Nat.lt_of_succ_lt_succ hj)
    · rw [cellAt_succ]
      exact hk.off

/-- A placement finds the first cell of the sequence that is not taken. -/
theorem place_iff {taken : Pos → Bool} {n : Nat} (ht : ∀ p, taken p = true ↔ p ∈ l) :
    (place taken n lcg).1 = some p ↔ ∃ k, Offers lcg n l k ∧ cellAt lcg k = p := by
  induction n generalizing lcg with
  | zero =>
      constructor
      · intro h
        contradiction
      · rintro ⟨k, hk, _⟩
        exact absurd hk.within (Nat.not_lt_zero k)
  | succ n ih =>
      simp only [place]
      split
      · next htaken =>
          have h0 : cellAt lcg 0 ∈ l := by
            rw [cellAt_zero]
            exact (ht _).mp htaken
          rw [← drawn, ih]
          constructor
          · rintro ⟨k, hk, hp⟩
            exact ⟨k + 1, (Offers.succ h0).mpr hk, (cellAt_succ lcg k).trans hp⟩
          · rintro ⟨k, hk, hp⟩
            cases k with
            | zero => exact absurd h0 hk.off
            | succ k => exact ⟨k, (Offers.succ h0).mp hk, (cellAt_succ lcg k).symm.trans hp⟩
      · next hfree =>
          have h0 : cellAt lcg 0 ∉ l := by
            rw [cellAt_zero]
            exact fun hm => hfree ((ht _).mpr hm)
          constructor
          · intro h
            exact ⟨0, (Offers.zero h0).mpr rfl, (cellAt_zero lcg).trans (Option.some.inj h)⟩
          · rintro ⟨k, hk, hp⟩
            rw [(Offers.zero h0).mp hk, cellAt_zero] at hp
            rw [hp]

/-- The free cells among the first draws. -/
theorem mem_offered {k : Nat} : p ∈ offered lcg l k ↔ (∃ j < k, cellAt lcg j = p) ∧ p ∉ l := by
  simp only [offered, Finset.mem_filter, Finset.mem_image, Finset.mem_range]

/-- Nothing has been drawn. -/
theorem offered_zero (lcg : Nat) (l : List Pos) : offered lcg l 0 = ∅ := by
  rw [offered, Finset.range_zero, Finset.image_empty, Finset.filter_empty]

/-- One more draw. -/
theorem mem_offered_succ {k : Nat} : p ∈ offered lcg l (k + 1) ↔
    p ∈ offered (drawn lcg) l k ∨ p = (draw lcg).1 ∧ p ∉ l := by
  rw [mem_offered, mem_offered, ← or_and_right]
  refine and_congr_left fun _ => ?_
  constructor
  · rintro ⟨j, hj, rfl⟩
    cases j with
    | zero => exact .inr (cellAt_zero lcg)
    | succ j => exact .inl ⟨j, Nat.lt_of_succ_lt_succ hj, (cellAt_succ lcg j).symm⟩
  · rintro (⟨j, hj, rfl⟩ | rfl)
    · exact ⟨j + 1, Nat.succ_lt_succ hj, cellAt_succ lcg j⟩
    · exact ⟨0, Nat.succ_pos k, cellAt_zero lcg⟩

/-- The cells `scatter` adds are those that are not taken and come before
`limit` such cells have been offered. -/
theorem scatter_iff {taken : Pos → Bool} {limit n : Nat} {found : List Pos}
    (ht : ∀ p, taken p = true ↔ p ∈ l) (hnodup : found.Nodup) :
    p ∈ (scatter taken limit n lcg found).1 ↔ p ∈ found ∨
      ∃ k < n, cellAt lcg k = p ∧ p ∉ l ∧ (found.toFinset ∪ offered lcg l k).card < limit := by
  induction n generalizing lcg found with
  | zero =>
      simp only [scatter, Nat.not_lt_zero, false_and, exists_false, or_false]
  | succ n ih =>
      have hcard : found.toFinset.card = found.length := List.toFinset_card_of_nodup hnodup
      simp only [scatter]
      rw [Nat.exists_lt_succ_left, cellAt_zero, offered_zero, Finset.union_empty, hcard]
      simp only [cellAt_succ]
      split
      · next hroom =>
          split
          · next hskip =>
              -- the cell is skipped, and adds nothing to those that have been found or offered
              have hsame (k : Nat) : found.toFinset ∪ offered lcg l (k + 1) =
                  found.toFinset ∪ offered (drawn lcg) l k := by
                ext q
                rw [Finset.mem_union, Finset.mem_union, mem_offered_succ, List.mem_toFinset, ← ht q]
                grind
              rw [← drawn, ih hnodup]
              simp only [hsame]
              have hzero : (draw lcg).1 = p → p ∉ l → p ∈ found := by
                rintro rfl hp
                exact hskip.resolve_left fun htaken => hp ((ht _).mp htaken)
              grind
          · next hnew =>
              obtain ⟨hfree, hfound⟩ := not_or.mp hnew
              have hp0 : (draw lcg).1 ∉ l := fun hm => hfree ((ht _).mpr hm)
              have hsame (k : Nat) : found.toFinset ∪ offered lcg l (k + 1) =
                  (found ++ [(draw lcg).1]).toFinset ∪ offered (drawn lcg) l k := by
                ext q
                simp only [Finset.mem_union, mem_offered_succ, List.mem_toFinset, List.mem_append,
                  List.mem_singleton]
                grind
              rw [← drawn, ih (List.nodup_append.mpr ⟨hnodup, List.nodup_singleton _, by grind⟩)]
              simp only [hsame, List.mem_append, List.mem_singleton]
              grind
      · next hfull =>
          refine ⟨.inl, fun h => h.elim id ?_⟩
          rintro (⟨_, _, hlt⟩ | ⟨k, _, _, _, hlt⟩)
          · exact absurd hlt hfull
          · have hle := Finset.card_le_card
              (@Finset.subset_union_left _ _ found.toFinset (offered lcg l (k + 1)))
            omega

namespace Game

/-! ## the move -/

/-- The index does not leave the array as long as it is not more than a round behind. -/
theorem ringIndex_eq {head i : Nat} (h : i ≤ head + snakeMax) :
    ringIndex head i = ((head + snakeMax - i) % snakeMax : Nat) := by
  unfold ringIndex
  rw [Int.tmod_eq_emod_of_nonneg (by omega)]
  unfold snakeMax at *
  omega

/-- Where a segment lies in the ring. -/
theorem segment_eq (g : Game) {i : Nat} (h : i ≤ g.head + snakeMax) :
    g.segment i = g.body ((g.head + snakeMax - i) % snakeMax) := by
  rw [segment, ringIndex_eq h]
  rfl

/-- The head after a move. -/
theorem advance_zero (g : Game) (p : Pos) : (g.advance p).segment 0 = p := by
  have hidx : ((g.head + 1) % snakeMax + snakeMax - 0) % snakeMax = (g.head + 1) % snakeMax := by
    unfold snakeMax
    omega
  rw [segment_eq _ (Nat.zero_le _)]
  unfold advance
  dsimp only
  rw [hidx, set_self]

/-- The other segments after a move. -/
theorem advance_succ (g : Game) (p : Pos) {i : Nat} (h : i + 1 < snakeMax) :
    (g.advance p).segment (i + 1) = g.segment i := by
  have hidx : ((g.head + 1) % snakeMax + snakeMax - (i + 1)) % snakeMax =
      (g.head + snakeMax - i) % snakeMax := by
    unfold snakeMax at *
    omega
  have hne : (g.head + snakeMax - i) % snakeMax ≠ (g.head + 1) % snakeMax := by
    unfold snakeMax at *
    omega
  rw [segment_eq _ (by omega), segment_eq _ (by omega)]
  unfold advance
  dsimp only
  rw [hidx, set_of_ne _ _ hne]

/-- The first `n` segments follow the head. -/
theorem advance_trail (g : Game) (p : Pos) {n : Nat} (h : n < snakeMax) :
    (List.range (n + 1)).map (g.advance p).segment = p :: (List.range n).map g.segment := by
  rw [List.range_succ_eq_map, List.map_cons, advance_zero, List.map_map]
  congr 1
  refine List.map_congr_left fun i hi => ?_
  exact advance_succ g p (by rw [List.mem_range] at hi; omega)

/-- Where the head goes when it does not collide. -/
theorem next_onBoard (hc : g.collides = false) : OnBoard g.next := by
  simp only [collides, Bool.or_eq_false_iff, Bool.and_eq_false_iff] at hc
  obtain ⟨⟨hwall, _⟩, _⟩ := hc
  by_cases hw : g.wrapMode = true
  · simp only [next, hw, if_true, OnBoard, wrap]
    unfold boardRows boardCols
    refine ⟨?_, ?_, ?_, ?_⟩ <;> split <;> try split
    all_goals omega
  · have hwall' : wallCollision g.next = false := by
      rcases hwall with h | h
      · simp [hw] at h
      · exact h
    simp only [wallCollision, decide_eq_false_iff_not, not_or, Int.not_lt, gt_iff_lt] at hwall'
    exact ⟨hwall'.1, hwall'.2.1, hwall'.2.2.1, hwall'.2.2.2⟩

/-- The head leaves its cell. -/
theorem next_ne_head (hb : OnBoard (g.segment 0)) : g.next ≠ g.segment 0 := by
  intro h
  unfold OnBoard boardRows boardCols at hb
  have hrow := congrArg Pos.row h
  have hcol := congrArg Pos.col h
  simp only [next, ahead, wrap, boardRows, boardCols] at hrow hcol
  cases hd : g.dir <;> simp only [hd] at hrow hcol <;> split at hrow <;> simp_all <;> omega

/-- `*it = zones[--count]` removes one cell. -/
theorem swapRemove_perm {zones : List Pos} {i : Nat} (hi : i < zones.length) :
    zones.Perm (zones[i] :: swapRemove zones i) := by
  obtain rfl | ⟨init, last, rfl⟩ := List.eq_nil_or_concat' zones
  · contradiction
  · rw [List.length_append, List.length_singleton] at hi
    have hlast : (init ++ [last]).getLastD ⟨0, 0⟩ = last := by simp
    unfold swapRemove
    rw [hlast]
    by_cases hin : i < init.length
    · have hold : init.Perm (init[i] :: init.eraseIdx i) :=
        (List.getElem_cons_eraseIdx_perm hin).symm
      have hnew : (init.set i last).Perm (last :: init.eraseIdx i) :=
        List.set_perm_cons_eraseIdx hin last
      rw [List.set_append_left _ _ hin, List.dropLast_concat, List.getElem_append_left hin]
      exact (List.perm_append_singleton _ _).trans ((hold.cons last).trans
        ((List.Perm.swap _ _ _).trans (hnew.symm.cons init[i])))
    · have heq : i = init.length := by omega
      subst heq
      simp [List.perm_append_singleton]

/-- The boost zone under the head is consumed. -/
theorem consumeBoost_zones (g : Game) (p : Pos) :
    (g.consumeBoost p).boostZones.Perm (g.boostZones.erase p) := by
  unfold consumeBoost
  split
  · next i hfind =>
      obtain ⟨hi, hp, _⟩ := List.findIdx?_eq_some_iff_getElem.mp hfind
      have hp' : g.boostZones[i] = p := by simpa using hp
      have hswap := swapRemove_perm hi
      rw [hp'] at hswap
      have hmem : p ∈ g.boostZones := hp' ▸ List.getElem_mem hi
      exact (hswap.symm.trans (List.perm_cons_erase hmem)).cons_inv
  · next hnone =>
      rw [List.erase_of_not_mem]
      intro hmem
      have := List.findIdx?_eq_none_iff.mp hnone p hmem
      simp at this

/-- The bonus food under the head is eaten. -/
theorem eatBonus_bonus (g : Game) (p : Pos) : (g.eatBonus p).bonus = g.bonus.erase p := by
  unfold eatBonus bonus
  by_cases ha : g.bonusActive = true
  · by_cases hp : p = g.bonusFood
    · simp [ha, hp]
    · simp [ha, hp, Ne.symm hp]
  · simp [ha]

/-- What stays on the board when the head moves on to `p`, besides the snake. -/
def rest (g : Game) (p : Pos) : List Pos := g.obstacles ++ (g.boostZones.erase p ++ g.bonus.erase p)

/-- What is left of the objects behind the snake. -/
theorem rest_sublist (g : Game) (p : Pos) :
    (g.rest p).Sublist (g.obstacles ++ (g.boostZones ++ g.bonus)) :=
  (List.Sublist.refl _).append (List.erase_sublist.append List.erase_sublist)

/-- The head moves to a cell that is free once the boost zone or the bonus
food on it is gone. -/
theorem next_not_mem (h : g.Tidy) (hlen : 0 < g.length) (hc : g.collides = false) :
    g.next ∉ g.segments ++ g.rest g.next := by
  obtain ⟨_, _, hobj⟩ := h.of_cons
  simp only [collides, Bool.or_eq_false_iff] at hc
  obtain ⟨⟨_, hself⟩, hobst⟩ := hc
  simp only [selfCollision, decide_eq_false_iff_not] at hself
  simp only [obstacleCollision, decide_eq_false_iff_not] at hobst
  obtain ⟨n, hn⟩ : ∃ n, g.length = n + 1 := ⟨g.length - 1, by omega⟩
  have hsegs : g.segments = g.segment 0 :: g.segments.tail := by
    rw [segments, hn, List.range_succ_eq_map]
    rfl
  have hhead : g.segment 0 ∈ g.objects := by
    rw [objects, hsegs]
    exact List.mem_cons_self
  have hne := next_ne_head (hobj.2 _ hhead)
  have hrest : (g.obstacles ++ (g.boostZones ++ g.bonus)).Nodup := (List.nodup_append.mp hobj.1).2.1
  have hzones := (List.nodup_append.mp (List.nodup_append.mp hrest).2.1).1
  have hbonus := (List.nodup_append.mp (List.nodup_append.mp hrest).2.1).2.1
  rw [rest, List.mem_append, List.mem_append, List.mem_append, hsegs, List.mem_cons]
  rintro ((he | hm) | hm | hm | hm)
  · exact hne he
  · exact hself hm
  · exact hobst hm
  · exact hzones.not_mem_erase hm
  · exact hbonus.not_mem_erase hm

/-- Eating bonus food keeps the other objects. -/
theorem eatBonus_frame (g : Game) (p : Pos) : (g.eatBonus p).segments = g.segments ∧
    (g.eatBonus p).obstacles = g.obstacles ∧ (g.eatBonus p).boostZones = g.boostZones ∧
      (g.eatBonus p).food = g.food ∧ (g.eatBonus p).length = g.length := by
  unfold eatBonus
  split <;> exact ⟨rfl, rfl, rfl, rfl, rfl⟩

/-- A boost keeps the other objects. -/
theorem consumeBoost_frame (g : Game) (p : Pos) : (g.consumeBoost p).segments = g.segments ∧
    (g.consumeBoost p).obstacles = g.obstacles ∧ (g.consumeBoost p).bonus = g.bonus ∧
      (g.consumeBoost p).food = g.food ∧ (g.consumeBoost p).length = g.length := by
  unfold consumeBoost
  split <;> exact ⟨rfl, rfl, rfl, rfl, rfl⟩

/-- The bonus food and the boost zone under the head are gone. -/
theorem cleared_objects (g : Game) (p : Pos) :
    ((g.eatBonus p).consumeBoost p).objects.Perm (g.segments ++ g.rest p) := by
  obtain ⟨hs, ho, hz, _⟩ := eatBonus_frame g p
  obtain ⟨hs', ho', hb', _⟩ := consumeBoost_frame (g.eatBonus p) p
  have hzones := consumeBoost_zones (g.eatBonus p) p
  rw [hz] at hzones
  rw [objects, rest, hs', ho', hb', hs, ho, eatBonus_bonus]
  exact ((hzones.append_right _).append_left _).append_left _

/-- The food is still there after both. -/
theorem cleared_food (g : Game) (p : Pos) : ((g.eatBonus p).consumeBoost p).food = g.food ∧
    ((g.eatBonus p).consumeBoost p).length = g.length := by
  obtain ⟨_, _, _, hf, hl⟩ := eatBonus_frame g p
  obtain ⟨_, _, _, hf', hl'⟩ := consumeBoost_frame (g.eatBonus p) p
  exact ⟨hf'.trans hf, hl'.trans hl⟩

/-! ## what the sequence has to offer -/

/-- The first cell off the obstacles and the snake is not on a boost zone or
the bonus food, which `placeFood` does not look at. -/
def FoodClear (g : Game) : Prop :=
  ∃ k, Offers g.lcg (maxCells * 2) (g.segments ++ g.obstacles) k ∧
    cellAt g.lcg k ∉ g.boostZones ++ g.bonus

/-- The first cell off everything else is not on a boost zone, which
`spawnObstacle` does not look at. -/
def SpawnClear (g : Game) : Prop :=
  ∀ k, Offers g.lcg (maxCells * 2) (g.segments ++ g.food :: (g.bonus ++ g.obstacles)) k →
    cellAt g.lcg k ∉ g.boostZones

/-- The first cell off everything else is not on a boost zone, which
`placeBonusFood` does not look at. -/
def BonusClear (g : Game) : Prop :=
  ∃ k, Offers g.lcg (maxCells * 2) (g.food :: (g.segments ++ g.obstacles)) k ∧
    cellAt g.lcg k ∉ g.boostZones

/-- The first ten cells off the head are not the food, which `placeObstacles`
does not look at. -/
def StartClear (g : Game) : Prop :=
  ∀ k < maxCells * 3, cellAt g.lcg k ≠ g.segment 0 →
    (offered g.lcg [g.segment 0] k).card < obstacleInitCount → cellAt g.lcg k ≠ g.food

/-- Food goes to the first free cell that is drawn. -/
theorem foodCell_iff : g.foodCell.1 = some p ↔
    ∃ k, Offers g.lcg (maxCells * 2) (g.segments ++ g.obstacles) k ∧ cellAt g.lcg k = p :=
  place_iff fun q => by rw [decide_eq_true_eq, List.mem_append]

/-- The bonus food, while it is there. -/
theorem mem_bonus : p ∈ g.bonus ↔ g.bonusActive = true ∧ p = g.bonusFood := by
  unfold bonus
  split
  · next ha => simp only [ha, List.mem_singleton, true_and]
  · next ha => simp only [ha, List.not_mem_nil, Bool.false_eq_true, false_and]

/-- An obstacle goes to the first free cell that is drawn. -/
theorem obstacleCell_iff : g.obstacleCell.1 = some p ↔
    ∃ k, Offers g.lcg (maxCells * 2) (g.segments ++ g.food :: (g.bonus ++ g.obstacles)) k ∧
      cellAt g.lcg k = p :=
  place_iff fun q => by
    rw [decide_eq_true_eq, List.mem_append, List.mem_cons, List.mem_append, mem_bonus]

/-- Bonus food goes to the first free cell that is drawn. -/
theorem bonusCell_iff : g.bonusCell.1 = some p ↔
    ∃ k, Offers g.lcg (maxCells * 2) (g.food :: (g.segments ++ g.obstacles)) k ∧
      cellAt g.lcg k = p :=
  place_iff fun q => by rw [decide_eq_true_eq, List.mem_cons, List.mem_append]

/-- The first obstacles are the first free cells that are drawn. -/
theorem mem_placeObstacles : p ∈ g.placeObstacles.obstacles ↔
    ∃ k < maxCells * 3, cellAt g.lcg k = p ∧
    p ≠ g.segment 0 ∧ (offered g.lcg [g.segment 0] k).card < obstacleInitCount := by
  have htaken (q : Pos) : decide (q = g.segment 0) = true ↔ q ∈ [g.segment 0] := by
    rw [decide_eq_true_eq, List.mem_singleton]
  have hiff : p ∈ (scatter (fun q => q = g.segment 0) obstacleInitCount (maxCells * 3) g.lcg []).1 ↔
      _ :=
    scatter_iff htaken List.nodup_nil
  simp only [List.not_mem_nil, List.toFinset_nil, Finset.empty_union, false_or,
    List.mem_singleton] at hiff
  exact hiff

/-! ## one step -/

/-- The snake at its new place, with everything that stays on the board. -/
theorem core_neat (h : g.Tidy) (hlen : 0 < g.length) (hc : g.collides = false) :
    Neat (g.next :: (g.segments ++ g.rest g.next)) := by
  obtain ⟨_, _, hobj⟩ := h.of_cons
  have hsub : (g.segments ++ g.rest g.next).Sublist g.objects :=
    (List.Sublist.refl _).append (rest_sublist g _)
  exact (hobj.sublist hsub).cons (next_onBoard hc) (next_not_mem h hlen hc)

/-- The snake moves without growing. -/
theorem crept_tidy (h : g.Tidy) (hlen : 0 < g.length) (hc : g.collides = false)
    (hshort : g.length < snakeMax) (hate : g.ate = false) :
    (((g.advance g.next).eatBonus g.next).consumeBoost g.next).Tidy ∧
      (((g.advance g.next).eatBonus g.next).consumeBoost g.next).length = g.length := by
  have hcore := core_neat h hlen hc
  obtain ⟨n, hn⟩ : ∃ n, g.length = n + 1 := ⟨g.length - 1, by omega⟩
  have hsegs : (g.advance g.next).segments = g.next :: (List.range n).map g.segment := by
    have hlen' : (g.advance g.next).length = n + 1 := hn
    rw [segments, hlen', advance_trail g g.next (by omega)]
  have htrail : ((List.range n).map g.segment).Sublist g.segments := by
    rw [segments, hn, List.range_succ, List.map_append]
    exact List.sublist_append_left _ _
  have hobj := cleared_objects (g.advance g.next) g.next
  rw [hsegs] at hobj
  obtain ⟨hfood, hlength⟩ := cleared_food (g.advance g.next) g.next
  obtain ⟨hboard, hfree, _⟩ := h.of_cons
  refine ⟨?_, hlength⟩
  unfold Tidy
  rw [hfood]
  have hsub : (g.next :: ((List.range n).map g.segment ++ g.rest g.next)).Sublist
      (g.next :: (g.segments ++ g.rest g.next)) := (htrail.append (List.Sublist.refl _)).cons_cons _
  refine ((hcore.sublist hsub).perm hobj).cons hboard fun hm => ?_
  rcases List.mem_cons.mp (hobj.mem_iff.mp hm) with he | hm
  · have : g.next = g.food := he.symm
    simp [ate, this] at hate
  · refine hfree ?_
    have hsub' : ((List.range n).map g.segment ++ g.rest g.next).Sublist g.objects :=
      htrail.append (rest_sublist g _)
    exact hsub'.subset hm

/-- The snake grows onto a free cell. -/
theorem grown_neat (h : g.Tidy) (hlen : 0 < g.length) (hc : g.collides = false)
    (hshort : g.length < snakeMax) :
    Neat ((g.advance g.next).grow.segments ++ (g.advance g.next).grow.rest g.next) := by
  have hsegs : (g.advance g.next).grow.segments = g.next :: g.segments :=
    advance_trail g g.next hshort
  rw [hsegs]
  exact core_neat h hlen hc

/-- A new obstacle is off everything that `spawnObstacle` looks at and, by the
condition, off the boost zones. -/
theorem spawnObstacle_neat (h : Neat (g.segments ++ g.rest p)) (hs : g.SpawnClear) :
    Neat (g.spawnObstacle.segments ++ g.spawnObstacle.rest p) ∧
      g.spawnObstacle.length = g.length := by
  unfold spawnObstacle
  cases hcell : g.obstacleCell with
  | mk q lcg =>
      cases q with
      | none => exact ⟨h, rfl⟩
      | some q =>
          refine ⟨?_, rfl⟩
          have hq := congrArg Prod.fst hcell
          obtain ⟨k, hk, rfl⟩ := obstacleCell_iff.mp hq
          have hoff := hk.off
          rw [List.mem_append, List.mem_cons, List.mem_append, not_or, not_or, not_or] at hoff
          obtain ⟨hsnake, _, hbonus, hobst⟩ := hoff
          have hnew : cellAt g.lcg k ∉ g.segments ++ g.rest p := by
            rw [rest, List.mem_append, List.mem_append, List.mem_append]
            rintro (hm | hm | hm | hm)
            · exact hsnake hm
            · exact hobst hm
            · exact hs k hk (List.mem_of_mem_erase hm)
            · exact hbonus (List.mem_of_mem_erase hm)
          refine (h.cons (place_spec hq).1 hnew).perm ?_
          change (g.segments ++ ((g.obstacles ++ [cellAt g.lcg k]) ++
            (g.boostZones.erase p ++ g.bonus.erase p))).Perm _
          rw [rest, List.perm_iff_count]
          intro x
          simp only [List.count_append, List.count_cons, List.count_nil]
          omega

/-- The new food is off everything. -/
theorem placeFood_tidy (h : Neat g.objects) (hf : g.FoodClear) :
    g.placeFood.Tidy ∧ g.placeFood.length = g.length := by
  obtain ⟨k, hk, hclear⟩ := hf
  have hfst := foodCell_iff.mpr ⟨k, hk, rfl⟩
  unfold placeFood
  cases hcell : g.foodCell with
  | mk q lcg =>
      rw [hcell] at hfst
      obtain rfl : q = some (cellAt g.lcg k) := hfst
      refine ⟨h.cons (place_spec (congrArg Prod.fst hcell)).1 ?_, rfl⟩
      have hoff := hk.off
      rw [List.mem_append, not_or] at hoff hclear
      rw [objects, List.mem_append, List.mem_append, List.mem_append]
      rintro (hm | hm | hm | hm)
      · exact hoff.1 hm
      · exact hoff.2 hm
      · exact hclear.1 hm
      · exact hclear.2 hm

/-- The timer of the boost keeps the board tidy. -/
theorem runBoost_tidy (h : g.Tidy) (hlen : 0 < g.length) (dtMs : Nat) :
    (g.runBoost dtMs).Tidy ∧ 0 < (g.runBoost dtMs).length := by
  unfold runBoost
  split
  · split <;> exact ⟨h, hlen⟩
  · exact ⟨h, hlen⟩

/-- New boost zones are put on free cells. -/
theorem placeBoostZones_tidy (h : g.Tidy) (hnone : g.boostZones = []) : g.placeBoostZones.Tidy := by
  obtain ⟨hneat, hfree⟩ := scatter_spec
    (fun p => p ∈ g.segments ∨ p ∈ g.obstacles ∨ p = g.food ∨ g.bonusActive ∧ p = g.bonusFood)
    maxBoostZones (maxCells * 3) g.lcg neat_nil (fun _ hm => by contradiction)
  have hzones : g.placeBoostZones.boostZones = (scatter
      (fun p => p ∈ g.segments ∨ p ∈ g.obstacles ∨ p = g.food ∨ g.bonusActive ∧ p = g.bonusFood)
      maxBoostZones (maxCells * 3) g.lcg []).1 := rfl
  rw [← hzones] at hneat hfree
  simp only [decide_eq_false_iff_not, not_or] at hfree
  have hbonus : ∀ p ∈ g.placeBoostZones.boostZones, p ∉ g.bonus := by
    intro p hp hm
    unfold bonus at hm
    split at hm
    · next ha => exact (hfree p hp).2.2.2 ⟨ha, List.mem_singleton.mp hm⟩
    · contradiction
  have hold : Neat (g.food :: (g.segments ++ (g.obstacles ++ g.bonus))) := by
    have htidy := h
    rw [Tidy, objects, hnone, List.nil_append] at htidy
    exact htidy
  have hnew : (g.placeBoostZones.food :: g.placeBoostZones.objects).Perm
      (g.placeBoostZones.boostZones ++ (g.food :: (g.segments ++ (g.obstacles ++ g.bonus)))) := by
    change (g.food ::
      (g.segments ++ (g.obstacles ++ (g.placeBoostZones.boostZones ++ g.bonus)))).Perm _
    rw [List.perm_iff_count]
    intro x
    simp only [List.count_append, List.count_cons]
    omega
  refine (hneat.append hold fun p hp hm => ?_).perm hnew
  obtain ⟨hsnake, hobst, hfood, _⟩ := hfree p hp
  rw [List.mem_cons, List.mem_append, List.mem_append] at hm
  rcases hm with hm | hm | hm | hm
  · exact hfood hm
  · exact hsnake hm
  · exact hobst hm
  · exact hbonus p hp hm

/-- A new boost zone keeps the board tidy. -/
theorem respawnBoost_tidy (h : g.Tidy) (hlen : 0 < g.length) (dtMs : Nat) :
    (g.respawnBoost dtMs).Tidy ∧ 0 < (g.respawnBoost dtMs).length := by
  unfold respawnBoost
  split
  · next hnone =>
      dsimp only
      split
      · have hplaced := placeBoostZones_tidy
          (g := { g with boostCooldownMs := addMs g.boostCooldownMs dtMs }) h hnone
        exact ⟨hplaced, hlen⟩
      · exact ⟨h, hlen⟩
  · exact ⟨h, hlen⟩

/-- The bonus food may only go away. -/
theorem runBonus_tidy (h : g.Tidy) (hlen : 0 < g.length) (dtMs : Nat) :
    (g.runBonus dtMs).Tidy ∧ 0 < (g.runBonus dtMs).length := by
  unfold runBonus
  split
  · split
    · refine ⟨?_, hlen⟩
      have hsub : (g.segments ++ (g.obstacles ++ (g.boostZones ++ []))).Sublist g.objects :=
        (List.Sublist.refl _).append ((List.Sublist.refl _).append ((List.Sublist.refl _).append
          (List.nil_sublist _)))
      exact Neat.sublist h (hsub.cons_cons g.food)
    · exact ⟨h, hlen⟩
  · exact ⟨h, hlen⟩

/-- The bonus food appears off everything. -/
theorem spawnBonus_tidy (h : g.Tidy) (hdue : g.bonusDue = true) (hb : g.BonusClear) :
    g.spawnBonus.Tidy ∧ g.spawnBonus.length = g.length := by
  obtain ⟨k, hk, hzones⟩ := hb
  have hfst := bonusCell_iff.mpr ⟨k, hk, rfl⟩
  have hinactive : g.bonusActive = false := by
    simp only [bonusDue, decide_eq_true_eq] at hdue
    simpa using hdue.1
  unfold spawnBonus placeBonusFood
  rw [if_pos hdue]
  have hcellEq : { g with bonusElapsedMs := 0 }.bonusCell = g.bonusCell := rfl
  rw [hcellEq]
  cases hcell : g.bonusCell with
  | mk q lcg =>
      rw [hcell] at hfst
      obtain rfl : q = some (cellAt g.lcg k) := hfst
      refine ⟨?_, rfl⟩
      have hoff := hk.off
      rw [List.mem_cons, List.mem_append, not_or, not_or] at hoff
      have hold : Neat (g.food :: (g.segments ++ (g.obstacles ++ (g.boostZones ++ [])))) := by
        have htidy := h
        rw [Tidy, objects, bonus, hinactive] at htidy
        exact htidy
      have hq :
          cellAt g.lcg k ∉ g.food :: (g.segments ++ (g.obstacles ++ (g.boostZones ++ []))) := by
        rw [List.append_nil, List.mem_cons, List.mem_append, List.mem_append]
        rintro (hm | hm | hm | hm)
        · exact hoff.1 hm
        · exact hoff.2.1 hm
        · exact hoff.2.2 hm
        · exact hzones hm
      refine (hold.cons (place_spec (congrArg Prod.fst hcell)).1 hq).perm ?_
      change (g.food :: (g.segments ++ (g.obstacles ++ (g.boostZones ++ [cellAt g.lcg k])))).Perm _
      rw [List.perm_iff_count]
      intro x
      simp only [List.count_append, List.count_cons, List.count_nil]
      omega

/-! ## the start -/

/-- A board with the snake in the middle and nothing else but the food. -/
structure Fresh (g : Game) : Prop where
  head : g.segment 0 = center
  length : g.length = 1
  obstacles : g.obstacles = []
  boostZones : g.boostZones = []
  bonusActive : g.bonusActive = false

/-- A new snake is its head. -/
theorem Fresh.segments (h : Fresh g) : g.segments = [center] := by
  rw [Game.segments, h.length, ← h.head]
  rfl

/-- On a new board there is nothing else. -/
theorem Fresh.objects (h : Fresh g) : g.objects = [center] := by
  rw [Game.objects, bonus, h.segments, h.obstacles, h.boostZones, h.bonusActive]
  rfl

/-- A reset board is new. -/
theorem reset_fresh (g : Game) (prngSeed : Nat) : Fresh (g.reset prngSeed) := by
  have hhead : (g.reset prngSeed).segment 0 = center := by
    rw [segment_eq _ (Nat.zero_le _)]
    simp only [reset, snakeMax, Nat.reduceAdd, Nat.reduceSub, Nat.reduceMod, set_self]
  exact ⟨hhead, rfl, rfl, rfl, rfl⟩

/-- Food does not count as an object. -/
theorem placeFood_fresh (h : Fresh g) : Fresh g.placeFood := by
  unfold placeFood
  cases g.foodCell with
  | mk q lcg => cases q <;> exact ⟨h.head, h.length, h.obstacles, h.boostZones, h.bonusActive⟩

/-- A new board is neat. -/
theorem Fresh.neat (h : Fresh g) : Neat g.objects := by
  have hcenter : OnBoard center := by decide
  rw [h.objects]
  exact neat_nil.cons hcenter List.not_mem_nil

/-- The obstacles are off the head and, by the condition, off the food. -/
theorem placeObstacles_tidy (h : Fresh g) (htidy : g.Tidy) (hs : g.StartClear) :
    g.placeObstacles.Tidy := by
  have hfood : g.food ∉ g.placeObstacles.obstacles := by
    intro hm
    obtain ⟨k, hk, hcell, hhead, hcard⟩ := mem_placeObstacles.mp hm
    exact hs k hk (hcell ▸ hhead) hcard hcell
  obtain ⟨hneat, hfree⟩ := scatter_spec (fun p => p = g.segment 0) obstacleInitCount
    (maxCells * 3) g.lcg neat_nil (fun _ hm => by contradiction)
  have hobst : g.placeObstacles.obstacles =
      (scatter (fun p => p = g.segment 0) obstacleInitCount (maxCells * 3) g.lcg []).1 := rfl
  rw [← hobst] at hneat hfree
  simp only [h.head, decide_eq_false_iff_not] at hfree
  rw [Tidy, h.objects] at htidy
  have hobj : g.placeObstacles.objects = g.segments ++
      (g.placeObstacles.obstacles ++ (g.boostZones ++ g.bonus)) :=
    rfl
  have hnew : (g.placeObstacles.food :: g.placeObstacles.objects).Perm
      (g.placeObstacles.obstacles ++ [g.food, center]) := by
    rw [hobj, h.segments, h.boostZones, bonus, h.bonusActive]
    change (g.food :: ([center] ++ (g.placeObstacles.obstacles ++ ([] ++ [])))).Perm _
    rw [List.perm_iff_count]
    intro x
    simp only [List.count_append, List.count_cons, List.count_nil]
    omega
  refine (hneat.append htidy fun p hp hm => ?_).perm hnew
  rw [List.mem_cons, List.mem_singleton] at hm
  rcases hm with rfl | rfl
  · exact hfood hp
  · exact hfree _ hp rfl

end Game

/-! ## runs -/

/-- What the player and the clock do. -/
inductive GameOp where
  | setDir (d : Dir)
  | setWrapMode (on : Bool)
  | step (dtMs : Nat)

/-- The game is over. -/
inductive Over where
  | gameOver
  deriving DecidableEq

namespace Game

/-- One operation on a game that is still running. -/
def play (g : Game) : GameOp → Except Over Game
  | .setDir d => .ok (g.setDir d)
  | .setWrapMode on => .ok (g.setWrapMode on)
  | .step dtMs => if (g.step dtMs).1 then .ok (g.step dtMs).2 else .error .gameOver

end Game

/-! ## `init` and `step` in parts -/

/-- Where a game is: between two calls, or before one of the placements of
`init` and `step`, with the local variables that are still needed. -/
inductive Phase where
  | initFood (withObstacles : Bool)
  | initObstacles
  | initZones
  | running
  | obstacle (p : Pos) (dtMs : Nat)
  | food (dtMs : Nat)
  | bonus
  deriving DecidableEq

structure Stage where
  game : Game
  phase : Phase

/-- A call of a game that is running, or the next part of a call. -/
inductive StageOp where
  | call (op : GameOp)
  | go

inductive Halt where
  | gameOver
  | busy
  deriving DecidableEq

namespace Game

/-- `step` after the food, up to the bonus food that may be due. -/
def settle (g : Game) (dtMs : Nat) : Stage :=
  let g := (((g.runBoost dtMs).respawnBoost dtMs).runBonus dtMs).runHighlight dtMs
  ⟨g, if g.bonusDue then .bonus else .running⟩

/-- `step` up to its first placement. -/
def stride (g : Game) (dtMs : Nat) : Stage :=
  let p := g.next
  let h := g.advance p
  if g.ate then
    if h.obstacleDue then ⟨h.grow, .obstacle p dtMs⟩
    else ⟨(h.grow.eatBonus p).consumeBoost p, .food dtMs⟩
  else ((h.eatBonus p).consumeBoost p).settle dtMs

end Game

namespace Stage

/-- One part of the program. -/
def play (s : Stage) : StageOp → Except Halt Stage
  | .call op =>
      match s.phase, op with
      | .running, .setDir d => .ok { s with game := s.game.setDir d }
      | .running, .setWrapMode on => .ok { s with game := s.game.setWrapMode on }
      | .running, .step dtMs => if s.game.collides then .error .gameOver
          else .ok (s.game.stride dtMs)
      | _, _ => .error .busy
  | .go =>
      match s.phase with
      | .initFood withObstacles =>
          .ok ⟨s.game.placeFood, if withObstacles then .initObstacles else .initZones⟩
      | .initObstacles => .ok ⟨s.game.placeObstacles, .initZones⟩
      | .initZones => .ok ⟨s.game.placeBoostZones, .running⟩
      | .running => .error .busy
      | .obstacle p dtMs => .ok ⟨(s.game.spawnObstacle.eatBonus p).consumeBoost p, .food dtMs⟩
      | .food dtMs => .ok (s.game.placeFood.settle dtMs)
      | .bonus => .ok ⟨s.game.spawnBonus, .running⟩

/-- `init` has been called. -/
def start (g : Game) (prngSeed : Nat) (withObstacles : Bool) : Stage :=
  ⟨g.reset prngSeed, .initFood withObstacles⟩

/-- **The condition on the state before a part**: a step finds the snake
shorter than its buffer, and the sequence does not offer a placement a cell of
an object that it does not check. -/
def Clear (s : Stage) : StageOp → Prop
  | .call (.step _) => s.game.length < snakeMax
  | .call _ => True
  | .go =>
      match s.phase with
      | .initFood _ | .food _ => s.game.FoodClear
      | .initObstacles => s.game.StartClear
      | .obstacle _ _ => s.game.SpawnClear
      | .bonus => s.game.BonusClear
      | .initZones | .running => True

/-! ### the parts make up the whole -/

variable {s s' : Stage} {op : StageOp} {tr : List StageOp}

/-- `init` is the run of its parts. -/
theorem init_parts (g : Game) (prngSeed : Nat) (withObstacles : Bool) : ∃ n,
    Reach play Free (start g prngSeed withObstacles) (List.replicate n .go)
      ⟨g.init prngSeed withObstacles, .running⟩ := by
  unfold start Game.init Game.initFood
  generalize g.reset prngSeed = h
  have hfood : play ⟨h, .initFood withObstacles⟩ .go =
      .ok ⟨h.placeFood, if withObstacles then .initObstacles else .initZones⟩ := by
    simp only [play]
  cases withObstacles with
  | true =>
      have hobst : play ⟨h.placeFood, .initObstacles⟩ .go =
          .ok ⟨h.placeFood.placeObstacles, .initZones⟩ := by
        simp only [play]
      have hzones : play ⟨h.placeFood.placeObstacles, .initZones⟩ .go =
          .ok ⟨h.placeFood.placeObstacles.placeBoostZones, .running⟩ := by
        simp only [play]
      simp only [if_true] at hfood ⊢
      exact ⟨3, .head trivial hfood (.head trivial hobst (.head trivial hzones .nil))⟩
  | false =>
      have hzones : play ⟨h.placeFood, .initZones⟩ .go =
          .ok ⟨h.placeFood.placeBoostZones, .running⟩ := by
        simp only [play]
      simp only [Bool.false_eq_true, if_false] at hfood ⊢
      exact ⟨2, .head trivial hfood (.head trivial hzones .nil)⟩

/-- The timers of a step, part by part. -/
theorem settle_parts (g : Game) (dtMs : Nat) : ∃ n,
    Reach play Free (g.settle dtMs) (List.replicate n .go)
      ⟨((((g.runBoost dtMs).respawnBoost dtMs).runBonus dtMs).runHighlight dtMs).spawnBonus,
        .running⟩ := by
  unfold Game.settle
  generalize (((g.runBoost dtMs).respawnBoost dtMs).runBonus dtMs).runHighlight dtMs = h
  dsimp only
  by_cases hdue : h.bonusDue = true
  · have hbonus : play ⟨h, .bonus⟩ .go = .ok ⟨h.spawnBonus, .running⟩ := by
      simp only [play]
    rw [if_pos hdue]
    exact ⟨1, .head trivial hbonus .nil⟩
  · have hsame : h.spawnBonus = h := by rw [Game.spawnBonus, if_neg hdue]
    rw [if_neg hdue, hsame]
    exact ⟨0, .nil⟩

/-- The parts of a step that has eaten. -/
theorem food_parts (g : Game) (dtMs : Nat) : ∃ n,
    Reach play Free ⟨g, .food dtMs⟩ (List.replicate n .go)
      ⟨((((g.placeFood.runBoost dtMs).respawnBoost dtMs).runBonus dtMs).runHighlight
          dtMs).spawnBonus,
        .running⟩ := by
  obtain ⟨n, hn⟩ := settle_parts g.placeFood dtMs
  have hfood : play ⟨g, .food dtMs⟩ .go = .ok (g.placeFood.settle dtMs) := by
    simp only [play]
  exact ⟨n + 1, hn.head trivial hfood⟩

/-- `step` is the run of its parts. -/
theorem step_parts (g : Game) (dtMs : Nat) (hs : (g.step dtMs).1 = true) : ∃ n,
    Reach play Free ⟨g, .running⟩ (.call (.step dtMs) :: List.replicate n .go)
      ⟨(g.step dtMs).2, .running⟩ := by
  have hc : g.collides = false := by
    by_contra hc
    rw [Game.step, if_pos (Bool.eq_true_of_not_eq_false hc)] at hs
    contradiction
  have hcall : play ⟨g, .running⟩ (.call (.step dtMs)) = .ok (g.stride dtMs) := by
    simp only [play, hc, Bool.false_eq_true, if_false]
  have hstep : g.step dtMs = (true, (g.ticked dtMs).spawnBonus) := by
    rw [Game.step, if_neg (by rw [hc]; exact Bool.false_ne_true)]
  rw [hstep]
  simp only [Game.ticked, Game.fed, Game.moved, Game.eat]
  simp only [Game.stride] at hcall
  by_cases hate : g.ate = true
  · simp only [hate, if_true] at hcall ⊢
    by_cases hdue : (g.advance g.next).obstacleDue = true
    · rw [if_pos hdue] at hcall
      rw [if_pos hdue]
      have hobst : play ⟨(g.advance g.next).grow, .obstacle g.next dtMs⟩ .go =
          .ok ⟨((g.advance g.next).grow.spawnObstacle.eatBonus g.next).consumeBoost g.next,
            .food dtMs⟩ := by
        simp only [play]
      obtain ⟨n, hn⟩ := food_parts
        (((g.advance g.next).grow.spawnObstacle.eatBonus g.next).consumeBoost g.next) dtMs
      exact ⟨n + 1, (hn.head trivial hobst).head trivial hcall⟩
    · rw [if_neg hdue] at hcall
      rw [if_neg hdue]
      obtain ⟨n, hn⟩ :=
        food_parts (((g.advance g.next).grow.eatBonus g.next).consumeBoost g.next) dtMs
      exact ⟨n, hn.head trivial hcall⟩
  · simp only [hate, Bool.false_eq_true, if_false] at hcall ⊢
    obtain ⟨n, hn⟩ := settle_parts (((g.advance g.next).eatBonus g.next).consumeBoost g.next) dtMs
    exact ⟨n, hn.head trivial hcall⟩

/-- A step that ends the game is over at once. -/
theorem step_over (g : Game) (dtMs : Nat) (hs : (g.step dtMs).1 = false) :
    play ⟨g, .running⟩ (.call (.step dtMs)) = .error .gameOver := by
  unfold Game.step at hs
  split at hs
  · next hc =>
      simp only [play]
      rw [if_pos hc]
  · contradiction

/-! ### every part keeps the board tidy -/

/-- What holds before each part. -/
def Sound (s : Stage) : Prop :=
  match s.phase with
  | .initFood _ => s.game.Fresh
  | .initObstacles => s.game.Fresh ∧ s.game.Tidy
  | .initZones => s.game.Tidy ∧ 0 < s.game.length ∧ s.game.boostZones = []
  | .running => s.game.Tidy ∧ 0 < s.game.length
  | .obstacle p _ => Neat (s.game.segments ++ s.game.rest p) ∧ 0 < s.game.length
  | .food _ => Neat s.game.objects ∧ 0 < s.game.length
  | .bonus => s.game.Tidy ∧ 0 < s.game.length ∧ s.game.bonusDue = true

/-- The timers keep the board sound. -/
theorem settle_sound (h : g.Tidy) (hlen : 0 < g.length) (dtMs : Nat) : (g.settle dtMs).Sound := by
  obtain ⟨h₁, hlen₁⟩ := Game.runBoost_tidy h hlen dtMs
  obtain ⟨h₂, hlen₂⟩ := Game.respawnBoost_tidy h₁ hlen₁ dtMs
  obtain ⟨h₃, hlen₃⟩ := Game.runBonus_tidy h₂ hlen₂ dtMs
  have h₄ : ((((g.runBoost dtMs).respawnBoost dtMs).runBonus dtMs).runHighlight dtMs).Tidy := h₃
  have hlen₄ :
    0 < ((((g.runBoost dtMs).respawnBoost dtMs).runBonus dtMs).runHighlight dtMs).length := hlen₃
  unfold Game.settle
  generalize (((g.runBoost dtMs).respawnBoost dtMs).runBonus dtMs).runHighlight dtMs = h at h₄ hlen₄
  by_cases hdue : h.bonusDue = true
  · simp only [Sound, hdue, if_true]
    exact ⟨h₄, hlen₄, trivial⟩
  · simp only [Sound, hdue, Bool.false_eq_true, if_false]
    exact ⟨h₄, hlen₄⟩

/-- A move keeps the board sound. -/
theorem stride_sound (h : g.Tidy) (hlen : 0 < g.length) (hc : g.collides = false)
    (hshort : g.length < snakeMax) (dtMs : Nat) : (g.stride dtMs).Sound := by
  unfold Game.stride
  dsimp only
  split
  · have hgrown := Game.grown_neat h hlen hc hshort
    split
    · exact ⟨hgrown, Nat.succ_pos _⟩
    · refine ⟨hgrown.perm (Game.cleared_objects _ _), ?_⟩
      rw [(Game.cleared_food _ _).2]
      exact Nat.succ_pos _
  · next hate =>
      obtain ⟨htidy, hlength⟩ := Game.crept_tidy h hlen hc hshort (Bool.eq_false_iff.mpr hate)
      exact settle_sound htidy (by rw [hlength]; exact hlen) dtMs

/-- A call keeps the board sound. -/
theorem call_sound {op : GameOp} (h : s.Sound) (hc : s.Clear (.call op))
    (hs : s.play (.call op) = .ok s') :
    s'.Sound := by
  obtain ⟨g, phase⟩ := s
  cases phase with
  | running =>
      obtain ⟨htidy, hlen⟩ := h
      cases op with
      | setDir d =>
          obtain rfl := Except.ok.inj hs
          have hsame : (g.setDir d).objects = g.objects ∧ (g.setDir d).food = g.food ∧
              (g.setDir d).length = g.length := by
            unfold Game.setDir
            split <;> exact ⟨rfl, rfl, rfl⟩
          refine ⟨?_, hsame.2.2 ▸ hlen⟩
          rw [Game.Tidy, hsame.1, hsame.2.1]
          exact htidy
      | setWrapMode on =>
          obtain rfl := Except.ok.inj hs
          exact ⟨htidy, hlen⟩
      | step dtMs =>
          simp only [play] at hs
          split at hs
          · contradiction
          · next hcol =>
              obtain rfl := Except.ok.inj hs
              exact stride_sound htidy hlen (Bool.eq_false_iff.mpr hcol) hc dtMs
  | _ => cases op <;> contradiction

/-- A part of a step keeps the board sound. -/
theorem go_sound (h : s.Sound) (hc : s.Clear .go) (hs : s.play .go = .ok s') : s'.Sound := by
  obtain ⟨g, phase⟩ := s
  cases phase with
  | initFood withObstacles =>
      obtain rfl := Except.ok.inj hs
      have hfresh : g.placeFood.Fresh := Game.placeFood_fresh h
      have htidy := (Game.placeFood_tidy h.neat hc).1
      cases withObstacles with
      | true => exact ⟨hfresh, htidy⟩
      | false => exact ⟨htidy, by rw [hfresh.length]; exact Nat.one_pos, hfresh.boostZones⟩
  | initObstacles =>
      obtain rfl := Except.ok.inj hs
      obtain ⟨hfresh, htidy⟩ := h
      refine ⟨Game.placeObstacles_tidy hfresh htidy hc, ?_, hfresh.boostZones⟩
      have hlen : g.placeObstacles.length = g.length := rfl
      rw [hlen, hfresh.length]
      exact Nat.one_pos
  | initZones =>
      obtain rfl := Except.ok.inj hs
      obtain ⟨htidy, hlen, hnone⟩ := h
      exact ⟨Game.placeBoostZones_tidy htidy hnone, hlen⟩
  | running => contradiction
  | obstacle p dtMs =>
      obtain rfl := Except.ok.inj hs
      obtain ⟨hneat, hlen⟩ := h
      obtain ⟨hspawned, hlength⟩ := Game.spawnObstacle_neat hneat hc
      refine ⟨hspawned.perm (Game.cleared_objects _ _), ?_⟩
      rw [(Game.cleared_food _ _).2, hlength]
      exact hlen
  | food dtMs =>
      obtain rfl := Except.ok.inj hs
      obtain ⟨hneat, hlen⟩ := h
      obtain ⟨htidy, hlength⟩ := Game.placeFood_tidy hneat hc
      exact settle_sound htidy (by rw [hlength]; exact hlen) dtMs
  | bonus =>
      obtain rfl := Except.ok.inj hs
      obtain ⟨htidy, hlen, hdue⟩ := h
      obtain ⟨hspawned, hlength⟩ := Game.spawnBonus_tidy htidy hdue hc
      exact ⟨hspawned, by rw [hlength]; exact hlen⟩

/-- **The board stays tidy** in every game in which the sequence offers no
placement a cell of an object that it does not check. -/
theorem board_tidy {g₀ : Game} {prngSeed : Nat} {withObstacles : Bool}
    (hr : Reach play Clear (start g₀ prngSeed withObstacles) tr s) (hrun : s.phase = .running) :
    s.game.Tidy := by
  have hstart : (start g₀ prngSeed withObstacles).Sound := Game.reset_fresh g₀ prngSeed
  have hsound : s.Sound := hr.inv (P := Sound) hstart fun _ op _ h hc hs => by
    cases op with
    | call op => exact call_sound h hc hs
    | go => exact go_sound h hc hs
  obtain ⟨g, phase⟩ := s
  obtain rfl : phase = .running := hrun
  exact hsound.1

instance (g : Game) : Decidable g.FoodClear :=
  decidable_of_iff (g.foodCell.1.any (· ∉ g.boostZones ++ g.bonus) = true) <| by
    simp only [Option.any_eq_true, Game.foodCell_iff, decide_eq_true_eq, Game.FoodClear]
    grind

instance (g : Game) : Decidable g.SpawnClear :=
  decidable_of_iff (∀ q ∈ g.obstacleCell.1, q ∉ g.boostZones) <| by
    simp only [Option.mem_def, Game.obstacleCell_iff, Game.SpawnClear]
    grind

instance (g : Game) : Decidable g.BonusClear :=
  decidable_of_iff (g.bonusCell.1.any (· ∉ g.boostZones) = true) <| by
    simp only [Option.any_eq_true, Game.bonusCell_iff, decide_eq_true_eq, Game.BonusClear]
    grind

instance (g : Game) : Decidable g.StartClear :=
  decidable_of_iff (g.food ∉ g.placeObstacles.obstacles) <| by
    simp only [Game.mem_placeObstacles, Game.StartClear]
    grind

instance : (s : Stage) → (op : StageOp) → Decidable (s.Clear op)
  | s, .call (.step _) => inferInstanceAs (Decidable (s.game.length < snakeMax))
  | _, .call (.setDir _) | _, .call (.setWrapMode _) => inferInstanceAs (Decidable True)
  | ⟨_, .initZones⟩, .go | ⟨_, .running⟩, .go => inferInstanceAs (Decidable True)
  | ⟨g, .initFood _⟩, .go | ⟨g, .food _⟩, .go => inferInstanceAs (Decidable g.FoodClear)
  | ⟨g, .initObstacles⟩, .go => inferInstanceAs (Decidable g.StartClear)
  | ⟨g, .obstacle _ _⟩, .go => inferInstanceAs (Decidable g.SpawnClear)
  | ⟨g, .bonus⟩, .go => inferInstanceAs (Decidable g.BonusClear)

/-- Three times food on a board with obstacles, with turns in between: a new
obstacle appears, and then the bonus food. -/
theorem board_tidy_fed :
    ∃ s, Reach play Clear (start {} 18944 true)
      ([.go, .go, .go, .call (.setDir .up), .call (.step 900), .call (.setDir .left),
          .call (.step 900), .go,
        .call (.setDir .up), .call (.step 900), .call (.step 900), .call (.step 900),
          .call (.setDir .right),
        .call (.step 900), .call (.step 900), .go, .call (.setDir .up), .call (.step 900),
        .call (.setDir .left), .call (.step 900), .go, .call (.step 900), .go, .go]) s ∧
      (s.phase = .running ∧ s.game.length = 4 ∧ s.game.obstacles.length = 11 ∧
        s.game.bonusActive = true) ∧
      s.game.Tidy := by
  obtain ⟨s, hr, hp⟩ := Reach.of_runsTo play Clear (start {} 18944 true)
    ([.go, .go, .go, .call (.setDir .up), .call (.step 900), .call (.setDir .left),
        .call (.step 900), .go,
      .call (.setDir .up), .call (.step 900), .call (.step 900), .call (.step 900),
        .call (.setDir .right),
      .call (.step 900), .call (.step 900), .go, .call (.setDir .up), .call (.step 900),
      .call (.setDir .left), .call (.step 900), .go, .call (.step 900), .go, .go])
    (fun s => s.phase = .running ∧ s.game.length = 4 ∧ s.game.obstacles.length = 11 ∧
      s.game.bonusActive = true) (by decide +kernel)
  have hp' := of_decide_eq_true hp
  exact ⟨s, hr, hp', board_tidy hr hp'.1⟩

end Stage

/-- **An obstacle on the food**: `placeObstacles` looks at the head and at
other obstacles only. -/
theorem Game.obstacle_on_food : ¬ (({} : Game).init 8 true).Tidy := by
  intro h
  have hfood : (({} : Game).init 8 true).food ∈ (({} : Game).init 8 true).obstacles := by
    decide +kernel
  obtain ⟨_, hfree, _⟩ := h.of_cons
  refine hfree ?_
  rw [objects, List.mem_append, List.mem_append]
  exact .inr (.inl hfood)

end Doors.Snake
