import Doors.User.Snake.Turn

/-!
# Doors.User.Snake.Shadow

A game of snake on numbers, for games too long to be evaluated as they are.

A `Shadow` has the snake and the obstacles as the bits of one number and the cells of
the head as the digits of another.  It follows the games whose clock stands still
(`dtMs = 0`), in wrap mode, as long as the snake has room in its ring.

* `Shows` — what a shadow says of a game;
* `Shows.step` — a game does what its shadow does;
* `Shadow.fly_reach` — the game that the pilot plays on the shadow is a game.
-/

namespace Doors.Snake

open Cells Run Game

/-! ## numbered cells -/

/-- The cell with a number. -/
def spot (k : Nat) : Pos := ⟨(k / 100 : Nat), (k % 100 : Nat)⟩

/-- The number of a cell. -/
def number (p : Pos) : Nat := p.row.toNat * 100 + p.col.toNat

/-- The cells with these numbers, as bits. -/
def mask (l : List Nat) : Nat := l.foldr (fun k m => m ||| 2 ^ k) 0

variable {k j : Nat} {p : Pos} {d : Dir} {g h : Game}

/-- Cells with one number are one cell. -/
theorem spot_inj : spot k = spot j ↔ k = j := by
  refine ⟨fun h => ?_, congrArg spot⟩
  simp only [spot, Pos.mk.injEq] at h
  omega

/-- A cell of the board has a number. -/
theorem spot_number (hp : OnBoard p) : spot (number p) = p := by
  obtain ⟨hr, hr', hc, hc'⟩ := hp
  unfold boardCols at hc'
  rw [pos_eq_iff, spot, number]
  dsimp only
  omega

/-- Numbers stand for their cells. -/
theorem spot_mem {l : List Nat} : spot k ∈ l.map spot ↔ k ∈ l := by
  simp [spot_inj]

/-- A bit of the mask says whether the cell is in the list. -/
theorem testBit_mask (l : List Nat) : (mask l).testBit k = true ↔ k ∈ l := by
  induction l with
  | nil => simp [mask]
  | cons a l ih =>
    unfold mask at ih ⊢
    rw [List.foldr_cons, Nat.testBit_or, Bool.or_eq_true, ih, Nat.testBit_two_pow,
      decide_eq_true_eq, List.mem_cons, or_comm, eq_comm]

/-! ## trails -/

/-- Digit `i` of a trail. -/
def cellOf (trail i : Nat) : Nat := trail / 4096 ^ i % 4096

/-- The head is in the lowest digits. -/
theorem cellOf_zero (t : Nat) : cellOf t 0 = t % 4096 := by
  simp [cellOf]

/-- After a move the new cell is the head. -/
theorem cellOf_push_zero (t : Nat) (hk : k < 4096) : cellOf (t * 4096 + k) 0 = k := by
  rw [cellOf_zero]
  omega

/-- After a move the old cells are one place further back. -/
theorem cellOf_push_succ (t i : Nat) (hk : k < 4096) :
    cellOf (t * 4096 + k) (i + 1) = cellOf t i := by
  have hdiv : (t * 4096 + k) / 4096 = t := by omega
  rw [cellOf, Nat.pow_succ', ← Nat.div_div_eq_div_mul, hdiv, cellOf]

/-- The snake after a move, of which `n + 1` cells are left. -/
theorem cells_push (t n : Nat) (hk : k < 4096) :
    (List.range (n + 1)).map (cellOf (t * 4096 + k)) = k :: (List.range n).map (cellOf t) := by
  rw [List.range_succ_eq_map, List.map_cons, cellOf_push_zero t hk, List.map_map]
  congr 1
  exact List.map_congr_left fun i _ => cellOf_push_succ t i hk

/-! ## moves -/

/-- The number of the cell a move leads to, round the edge if need be. -/
def hop (d : Dir) (k : Nat) : Nat :=
  match d with
  | .up => bif Nat.ble 200 k then k - 100 else k + 2200
  | .down => bif Nat.ble 2300 k then k - 2200 else k + 100
  | .left => bif Nat.beq (k % 100) 1 then k + 77 else k - 1
  | .right => bif Nat.beq (k % 100) 78 then k - 77 else k + 1

/-- A hop of the number is a move of the cell. -/
theorem spot_hop (hk : OnBoard (spot k)) : spot (hop d k) = goes true d (spot k) := by
  simp only [OnBoard, spot, boardRows, boardCols] at hk
  rw [pos_eq_iff]
  cases d <;>
    simp only [spot, hop, goes, beside, along, wrap, rowStep, colStep, boardRows, boardCols,
      if_true, Bool.cond_eq_ite, Nat.ble_eq, Nat.beq_eq] <;>
    split_ifs <;> omega

/-! ## shadows -/

structure Shadow where
  /-- the cells of the head, the last one in the lowest 12 bits -/
  trail : Nat
  /-- the cells of the snake and of the obstacles -/
  taken : Nat
  length : Nat
  dir : Dir
  food : Nat
  /-- how many obstacles there are -/
  obstacles : Nat
  eats : Nat
  lcg : Nat

namespace Shadow

def head (s : Shadow) : Nat := s.trail % 4096

/-- The snake from head to tail. -/
def cells (s : Shadow) : List Nat := (List.range s.length).map (cellOf s.trail)

/-- The test for an empty board comes first so that the test of a drawn cell is not
evaluated for a board that is not known. -/
def isTaken (s : Shadow) (p : Pos) : Bool := !Nat.beq s.taken 0 && s.taken.testBit (number p)

/-- The next free cell. -/
def freeCell (s : Shadow) : Option Pos × Nat := place s.isTaken (maxCells * 2) s.lcg

def putFood (s : Shadow) : Shadow :=
  match s.freeCell with
  | (some p, lcg) => { s with food := number p, lcg }
  | (none, lcg) => { s with lcg }

def putObstacle (s : Shadow) : Shadow :=
  match s.freeCell with
  | (some p, lcg) => { s with taken := s.taken ||| 2 ^ number p, obstacles := s.obstacles + 1, lcg }
  | (none, lcg) => { s with lcg }

/-- The head moves on and the tail follows. -/
def move (s : Shadow) (d : Dir) (k : Nat) : Shadow :=
  { s with
    trail := s.trail * 4096 + k, taken := (s.taken ^^^ 2 ^ cellOf s.trail (s.length - 1)) ||| 2 ^ k,
    dir := d }

def obstacleDue (s : Shadow) : Bool := !Nat.ble maxObstacles s.obstacles &&
    Nat.ble obstacleStepInterval (s.eats + 1)

/-- The head moves on to the food. -/
def grow (s : Shadow) (d : Dir) (k : Nat) : Shadow :=
  { s with
    trail := s.trail * 4096 + k, taken := s.taken ||| 2 ^ k, length := s.length + 1, dir := d
    eats := bif Nat.ble maxObstacles s.obstacles then s.eats
      else bif Nat.ble obstacleStepInterval (s.eats + 1) then 0 else s.eats + 1 }

def eat (s : Shadow) (d : Dir) (k : Nat) : Shadow :=
  bif s.obstacleDue then (s.grow d k).putObstacle else s.grow d k

/-- A step in the direction `d` would eat without room for it. -/
def isFull (s : Shadow) (d : Dir) : Bool := Nat.beq (hop d s.head) s.food &&
    Nat.beq s.length snakeMax

/-- A step in the direction `d`. -/
def go (s : Shadow) (d : Dir) : Shadow :=
  let k := hop d s.head
  bif Nat.beq k s.food then (s.eat d k).putFood else s.move d k

end Shadow

/-- **What a shadow says of a game.** -/
structure Shows (s : Shadow) (g : Game) : Prop where
  segments : g.segments = s.cells.map spot
  nodup : s.cells.Nodup
  apart : ∀ k ∈ s.cells, spot k ∉ g.obstacles
  taken : ∀ k, s.taken.testBit k = true ↔ k ∈ s.cells ∨ spot k ∈ g.obstacles
  onBoard : OnBoard (spot s.head)
  length_pos : 0 < s.length
  length_le : s.length ≤ snakeMax
  dir : g.dir = s.dir
  food : g.food = spot s.food
  obstacles : g.obstacles.length = s.obstacles
  eats : g.eatsSinceObstacle = s.eats
  lcg : g.lcg = s.lcg
  wrapMode : g.wrapMode = true
  bonusActive : g.bonusActive = false
  elapsed : g.bonusElapsedMs = 0
  cooldown : g.boostCooldownMs = 0

variable {s : Shadow}

/-- A placement looks at cells of the board only. -/
theorem place_congr {t t' : Pos → Bool} (h : ∀ p, OnBoard p → t p = t' p) (n lcg : Nat) :
    place t n lcg = place t' n lcg := by
  induction n generalizing lcg with
  | zero => rfl
  | succ n ih =>
    unfold place
    dsimp only
    rw [h _ (draw_onBoard lcg), ih]

/-- A test of a cell is one of a bit. -/
theorem isTaken_eq (s : Shadow) (p : Pos) : s.isTaken p = s.taken.testBit (number p) := by
  unfold Shadow.isTaken
  cases htaken : Nat.beq s.taken 0 with
  | false => rfl
  | true =>
    rw [Nat.eq_of_beq_eq_true htaken]
    simp

/-- The shadow knows the snake and the obstacles. -/
theorem Shows.isTaken (h : Shows s g) (hp : OnBoard p) :
    s.isTaken p = true ↔ p ∈ g.segments ∨ p ∈ g.obstacles := by
  have hmem : p ∈ g.segments ↔ number p ∈ s.cells := by
    rw [h.segments, ← spot_mem, spot_number hp]
  rw [isTaken_eq, h.taken, hmem, spot_number hp]

/-- Food goes to the next free cell. -/
theorem Shows.foodCell (h : Shows s g) : g.foodCell = s.freeCell := by
  unfold Game.foodCell Shadow.freeCell
  rw [h.lcg]
  apply place_congr
  intro p hp
  rw [Bool.eq_iff_iff, decide_eq_true_eq, h.isTaken hp]

/-- An obstacle goes to the next free cell while the food is under the snake. -/
theorem Shows.obstacleCell (h : Shows s g) (hfood : g.food ∈ g.segments) :
    g.obstacleCell = s.freeCell := by
  unfold Game.obstacleCell Shadow.freeCell
  rw [h.lcg]
  apply place_congr
  intro p hp
  rw [Bool.eq_iff_iff, decide_eq_true_eq, h.isTaken hp, h.bonusActive]
  grind

/-- A free cell is on the board and not taken. -/
theorem freeCell_spec {lcg : Nat} (hcell : s.freeCell = (some p, lcg)) :
    OnBoard p ∧ s.isTaken p = false := by
  have hfst : (place s.isTaken (maxCells * 2) s.lcg).1 = some p := by
    rw [← Shadow.freeCell, hcell]
  exact place_spec hfst

/-- New food, in the shadow. -/
theorem Shows.putFood (h : Shows s g) : Shows s.putFood g.placeFood := by
  unfold Shadow.putFood placeFood
  rw [h.foodCell]
  cases hcell : s.freeCell with
  | mk q lcg =>
    cases q with
    | none => exact { h with lcg := rfl }
    | some p =>
      obtain ⟨hp, -⟩ := freeCell_spec hcell
      exact { h with lcg := rfl, food := (spot_number hp).symm }

/-- A new obstacle, in the shadow. -/
theorem Shows.putObstacle (h : Shows s g) (hfood : g.food ∈ g.segments) :
    Shows s.putObstacle g.spawnObstacle := by
  unfold Shadow.putObstacle spawnObstacle
  rw [h.obstacleCell hfood]
  cases hcell : s.freeCell with
  | mk q lcg =>
    cases q with
    | none => exact { h with lcg := rfl }
    | some p =>
      obtain ⟨hp, hfree⟩ := freeCell_spec hcell
      have hnot : number p ∉ s.cells := fun hmem => by
        have htaken := (h.taken (number p)).mpr (.inl hmem)
        rw [isTaken_eq, htaken] at hfree
        contradiction
      have hspot (k : Nat) : spot k = p ↔ k = number p := by rw [← spot_inj, spot_number hp]
      constructor
      case segments => exact h.segments
      case nodup => exact h.nodup
      case apart =>
        intro k hk hmem
        simp only [List.mem_append, List.mem_singleton, hspot] at hmem
        rcases hmem with hmem | rfl
        · exact h.apart k hk hmem
        · exact hnot hk
      case taken =>
        intro k
        simp only [Nat.testBit_or, Bool.or_eq_true, Nat.testBit_two_pow, decide_eq_true_eq,
          List.mem_append, List.mem_singleton, hspot]
        rw [h.taken, or_assoc, eq_comm]
        rfl
      case onBoard => exact h.onBoard
      case length_pos => exact h.length_pos
      case length_le => exact h.length_le
      case dir => exact h.dir
      case food => exact h.food
      case obstacles => simp [h.obstacles]
      case eats => exact h.eats
      case lcg => rfl
      case wrapMode => exact h.wrapMode
      case bonusActive => exact h.bonusActive
      case elapsed => exact h.elapsed
      case cooldown => exact h.cooldown

/-! ## the move -/

/-- A segment is a digit of the trail. -/
theorem Shows.segment (h : Shows s g) {i : Nat} (hi : i < s.length) :
    g.segment i = spot (cellOf s.trail i) := by
  have hlen : g.length = s.length := by
    have hlen := congrArg List.length h.segments
    simpa [Game.segments, Shadow.cells] using hlen
  have hget := congrArg (·[i]?) h.segments
  simpa [Game.segments, Shadow.cells, hlen, hi] using hget

/-- The head is the lowest digit. -/
theorem Shows.head (h : Shows s g) : g.segment 0 = spot s.head := by
  rw [h.segment h.length_pos, cellOf_zero, Shadow.head]

/-- Where the head goes. -/
theorem Shows.next (h : Shows s g) (hd : g.dir = d) : g.next = spot (hop d s.head) := by
  rw [next_eq, h.wrapMode, hd, h.head, spot_hop h.onBoard]

/-- The game does not end on a free cell. -/
theorem Shows.free (h : Shows s g) {k : Nat} (hnext : g.next = spot k)
    (hfree : s.taken.testBit k = false) : g.collides = false := by
  have hnot : ¬ (k ∈ s.cells ∨ spot k ∈ g.obstacles) := by
    rw [← h.taken, hfree]
    exact Bool.false_ne_true
  rw [not_or] at hnot
  have hself : spot k ∉ g.segments.tail := fun hmem =>
    hnot.1 (spot_mem.mp (h.segments ▸ List.mem_of_mem_tail hmem))
  simp [collides, h.wrapMode, selfCollision, obstacleCollision, hnext, hself, hnot.2]

/-- The number of a cell of the board is a digit. -/
theorem lt_of_onBoard (hk : OnBoard (spot k)) : k < 4096 := by
  obtain ⟨-, hrow, -, -⟩ := hk
  simp only [spot, boardRows] at hrow
  omega

/-- The length of the snake. -/
theorem Shows.length (h : Shows s g) : g.length = s.length := by
  have hlen := congrArg List.length h.segments
  simpa [Game.segments, Shadow.cells] using hlen

/-- The free cell is new to the snake. -/
theorem Shows.fresh (h : Shows s g) (hfree : s.taken.testBit k = false) :
    k ∉ s.cells ∧ spot k ∉ g.obstacles := by
  rw [← not_or, ← h.taken, hfree]
  exact Bool.false_ne_true

/-- The head moves on, and `n` cells of the old snake are left. -/
theorem Shows.advance (h : Shows s g) {n m l : Nat} (hn : n ≤ s.length) (hmax : n < snakeMax)
    (hl : l = n + 1) (hd : g.dir = d) (hnext : g.next = spot k)
    (hfree : s.taken.testBit k = false)
    (hm : ∀ j, m.testBit j = true ↔ (j = k ∨ j ∈ (List.range n).map (cellOf s.trail)) ∨
    spot j ∈ g.obstacles) :
    Shows { s with trail := s.trail * 4096 + k, taken := m, length := n + 1, dir := d }
      { g.advance g.next with length := l } := by
  subst hl
  have hboard : OnBoard (spot k) := hnext ▸ next_onBoard (h.free hnext hfree)
  have hk := lt_of_onBoard hboard
  obtain ⟨hcells, hobst⟩ := h.fresh hfree
  have hpush := cells_push s.trail n hk
  have hsub : ((List.range n).map (cellOf s.trail)).Sublist s.cells :=
    (List.range_sublist.mpr hn).map _
  constructor
  case segments =>
    unfold Game.segments Shadow.cells
    dsimp only
    have htrail := advance_trail g g.next hmax
    rw [hpush, List.map_cons, List.map_map, ← hnext]
    refine htrail.trans (congrArg _ (List.map_congr_left fun i hi => ?_))
    exact h.segment (Nat.lt_of_lt_of_le (List.mem_range.mp hi) hn)
  case nodup =>
    unfold Shadow.cells
    rw [hpush]
    exact List.nodup_cons.mpr ⟨fun hmem => hcells (hsub.subset hmem), hsub.nodup h.nodup⟩
  case apart =>
    unfold Shadow.cells
    rw [hpush]
    intro j hj
    rcases List.mem_cons.mp hj with rfl | hj
    · exact hobst
    · exact h.apart j (hsub.subset hj)
  case taken =>
    intro j
    unfold Shadow.cells
    rw [hpush, List.mem_cons]
    exact hm j
  case onBoard =>
    have hhead : (s.trail * 4096 + k) % 4096 = k := by omega
    unfold Shadow.head
    dsimp only
    rw [hhead]
    exact hboard
  case length_pos => exact Nat.succ_pos _
  case length_le => exact hmax
  case dir => exact hd
  case food => exact h.food
  case obstacles => exact h.obstacles
  case eats => exact h.eats
  case lcg => exact h.lcg
  case wrapMode => exact h.wrapMode
  case bonusActive => exact h.bonusActive
  case elapsed => exact h.elapsed
  case cooldown => exact h.cooldown

/-- The snake moves and grows. -/
theorem Shows.grow (h : Shows s g) (hlt : s.length < snakeMax) (hd : g.dir = d)
    (hnext : g.next = spot k) (hfree : s.taken.testBit k = false) :
    Shows (s.grow d k) (g.advance g.next).grow := by
  have hstep := h.advance (Nat.le_refl _) hlt (congrArg (· + 1) h.length) hd hnext hfree
      (m := s.taken ||| 2 ^ k) fun j => by
    rw [Nat.testBit_or, Bool.or_eq_true, h.taken, Nat.testBit_two_pow, decide_eq_true_eq,
      Shadow.cells]
    grind
  have heats : (g.advance g.next).grow.eatsSinceObstacle = (s.grow d k).eats := by
    unfold Game.grow Game.advance Shadow.grow
    simp only [h.obstacles, h.eats, Bool.cond_eq_ite, Nat.ble_eq]
    grind
  exact { hstep with eats := heats }

/-- The snake moves. -/
theorem Shows.move (h : Shows s g) (hd : g.dir = d) (hnext : g.next = spot k)
    (hfree : s.taken.testBit k = false) :
    Shows (s.move d k) (g.advance g.next) := by
  have hpos := h.length_pos
  have hle := h.length_le
  have hsucc : s.length - 1 + 1 = s.length := by omega
  have htail : s.cells = (List.range (s.length - 1)).map (cellOf s.trail) ++
      [cellOf s.trail (s.length - 1)] := by
    rw [Shadow.cells, ← hsucc, List.range_succ, List.map_append]
    rfl
  have hnodup := h.nodup
  have hapart := h.apart (cellOf s.trail (s.length - 1)) (by simp [htail])
  have htaken := h.taken
  simp only [htail, List.mem_append, List.mem_singleton] at htaken
  rw [htail] at hnodup
  have hstep :=
    h.advance (n := s.length - 1) (by omega) (by omega) (h.length.trans hsucc.symm) hd hnext hfree
    (m := (s.taken ^^^ 2 ^ cellOf s.trail (s.length - 1)) ||| 2 ^ k)
  rw [hsucc] at hstep
  apply hstep
  intro j
  rw [Nat.testBit_or, Nat.testBit_xor, Nat.testBit_two_pow, Nat.testBit_two_pow]
  have hbit := htaken j
  -- the bit of the tail is cleared, and no other cell of the snake has it
  generalize (List.range (s.length - 1)).map (cellOf s.trail) = rest at hnodup hbit ⊢
  generalize cellOf s.trail (s.length - 1) = last at hnodup hbit hapart ⊢
  have hlast : last ∉ rest := fun hmem => (List.nodup_append.mp hnodup).2.2 last hmem last
    (List.mem_singleton_self last) rfl
  by_cases hj : last = j
  · subst hj
    simp [hbit.mpr (.inl (.inr rfl)), hlast, hapart, eq_comm]
  · have hne : ¬ j = last := fun heq => hj heq.symm
    simp only [hj, decide_false, Bool.xor_false, Bool.or_eq_true, hbit, hne, or_false,
      decide_eq_true_eq]
    grind

/-- Whether an obstacle is due after the meal. -/
theorem Shows.obstacleDue (h : Shows s g) (p : Pos) :
    (g.advance p).obstacleDue = s.obstacleDue := by
  unfold Game.obstacleDue Game.advance Shadow.obstacleDue
  simp only [h.obstacles, h.eats]
  rw [Bool.eq_iff_iff, decide_eq_true_eq, Bool.and_eq_true, Bool.not_eq_true', ← Bool.not_eq_true,
    Nat.ble_eq, Nat.ble_eq, Nat.not_le]

/-- The snake eats. -/
theorem Shows.eat (h : Shows s g) (hlt : s.length < snakeMax) (hd : g.dir = d)
    (hnext : g.next = spot k) (hfree : s.taken.testBit k = false)
    (hfood : g.food = spot k) : Shows (s.eat d k) (g.advance g.next).eat := by
  have hgrow := h.grow hlt hd hnext hfree
  have hmem : (g.advance g.next).grow.food ∈ (g.advance g.next).grow.segments := by
    have hpush :=
      cells_push s.trail s.length (lt_of_onBoard (hnext ▸ next_onBoard (h.free hnext hfree)))
    rw [hgrow.segments]
    have hhead : k ∈ (s.grow d k).cells := by
      unfold Shadow.cells Shadow.grow
      dsimp only
      simp [hpush]
    exact (hfood : (g.advance g.next).grow.food = spot k) ▸ spot_mem.mpr hhead
  unfold Shadow.eat Game.eat
  rw [h.obstacleDue]
  cases s.obstacleDue with
  | false => exact hgrow
  | true => exact hgrow.putObstacle hmem

/-- A shadow does not show the boosts. -/
theorem Shows.boosts (h : Shows s g) (boostZones : List Pos) (boostActive : Bool)
    (boostTimerMs scoreHighlightRemainingMs : Nat) :
    Shows s { g with boostZones, boostActive, boostTimerMs, scoreHighlightRemainingMs } :=
  ⟨h.segments, h.nodup, h.apart, h.taken, h.onBoard, h.length_pos, h.length_le, h.dir, h.food,
    h.obstacles, h.eats, h.lcg, h.wrapMode,
    h.bonusActive, h.elapsed, h.cooldown⟩

/-- There is no bonus food to eat. -/
theorem Shows.eatBonus (h : Shows s g) (p : Pos) : Shows s (g.eatBonus p) := by
  unfold Game.eatBonus
  rw [h.bonusActive]
  simpa using h

/-- A boost leaves the shadow as it is. -/
theorem Shows.consumeBoost (h : Shows s g) (p : Pos) : Shows s (g.consumeBoost p) := by
  unfold Game.consumeBoost
  split
  · exact h.boosts ..
  · exact h

/-- The timer of the boost leaves the shadow as it is. -/
theorem Shows.runBoost (h : Shows s g) (dtMs : Nat) : Shows s (g.runBoost dtMs) := by
  unfold Game.runBoost
  split
  · split <;> exact h.boosts ..
  · exact h

/-- In no time no boost zone comes back. -/
theorem Shows.respawnBoost (h : Shows s g) : Shows s (g.respawnBoost 0) := by
  have hcooldown : addMs g.boostCooldownMs 0 = g.boostCooldownMs := by
    rw [h.cooldown]
    rfl
  have hearly : ¬ g.boostCooldownMs ≥ boostRespawnMs := by
    rw [h.cooldown]
    decide
  unfold Game.respawnBoost
  dsimp only
  rw [hcooldown, if_neg hearly]
  split <;> exact h

/-- In no time no bonus food goes. -/
theorem Shows.runBonus (h : Shows s g) : Shows s (g.runBonus 0) := by
  have helapsed : addMs g.bonusElapsedMs 0 = g.bonusElapsedMs := by
    rw [h.elapsed]
    rfl
  unfold Game.runBonus
  rw [if_neg (by simp [h.bonusActive]), helapsed]
  exact h

/-- Bonus food leaves the shadow as it is. -/
theorem Shows.spawnBonus (h : Shows s g) : Shows s g.spawnBonus := by
  unfold Game.spawnBonus bonusDue
  rw [h.elapsed]
  simpa [bonusIntervalMs] using h

/-- Whether the snake eats. -/
theorem Shows.ate (h : Shows s g) (hd : g.dir = d) : g.ate = Nat.beq (hop d s.head) s.food := by
  rw [Game.ate, Bool.eq_iff_iff, decide_eq_true_eq, Nat.beq_eq, h.next hd, h.food, spot_inj]

/-- On to a free cell the game goes on. -/
theorem Shows.runs (h : Shows s g) (hd : g.dir = d) (hfree : s.taken.testBit (hop d s.head) = false)
    (dtMs : Nat) :
    (g.step dtMs).1 = true := by
  rw [Game.step, h.free (h.next hd) hfree]
  rfl

/-- **A game does what its shadow does**, as long as the snake has room. -/
theorem Shows.step (h : Shows s g) (hfits : s.isFull d = false) (hd : g.dir = d)
    (hfree : s.taken.testBit (hop d s.head) = false) :
    Shows (s.go d) (g.step 0).2 := by
  have hnext := h.next hd
  have hate := h.ate hd
  have hfed : Shows (s.go d) g.fed := by
    unfold Game.fed Game.moved Shadow.go
    dsimp only
    cases heat : g.ate with
    | false =>
      rw [heat] at hate
      rw [← hate]
      exact ((h.move hd hnext hfree).eatBonus _).consumeBoost _
    | true =>
      rw [heat] at hate
      rw [← hate]
      have hfood : g.food = spot (hop d s.head) := by
        rw [h.food, Nat.eq_of_beq_eq_true hate.symm]
      have hlt : s.length < snakeMax := by
        rw [Shadow.isFull, ← hate, Bool.true_and] at hfits
        exact Nat.lt_of_le_of_ne h.length_le (Nat.ne_of_beq_eq_false hfits)
      exact (((h.eat hlt hd hnext hfree hfood).eatBonus _).consumeBoost _).putFood
  have hbonus := ((hfed.runBoost 0).respawnBoost).runBonus
  unfold Game.step
  rw [h.free hnext hfree]
  exact (hbonus.boosts ..).spawnBonus

/-! ## the opening -/

/-- A game that has not begun, in wrap mode. -/
def Opening (g : Game) : Prop :=
  g.length = 1 ∧ OnBoard (g.segment 0) ∧ OnBoard g.food ∧
    (∀ p ∈ g.obstacles, OnBoard p ∧ p ≠ g.segment 0) ∧ g.wrapMode = true ∧
    g.bonusActive = false ∧ g.bonusElapsedMs = 0 ∧ g.boostCooldownMs = 0

instance (g : Game) : Decidable (Opening g) := inferInstanceAs (Decidable (_ ∧ _))

namespace Shadow

/-- The shadow of an opening. -/
def ofGame (g : Game) : Shadow where
  trail := number (g.segment 0)
  taken := mask (number (g.segment 0) :: g.obstacles.map number)
  length := 1
  dir := g.dir
  food := number g.food
  obstacles := g.obstacles.length
  eats := g.eatsSinceObstacle
  lcg := g.lcg

/-- A number is a digit of the trail. -/
theorem number_lt (hp : OnBoard p) : number p < 4096 := by
  rw [← spot_number hp] at hp
  exact lt_of_onBoard hp

/-- The shadow of a game that begins. -/
theorem ofGame_shows (h : Opening g) : Shows (ofGame g) g := by
  obtain ⟨hlen, hhead, hfood, hobst, hwrap, hbonus, helapsed, hcooldown⟩ := h
  have hcells : (ofGame g).cells = [number (g.segment 0)] := by
    simp [cells, ofGame, cellOf_zero, Nat.mod_eq_of_lt (number_lt hhead)]
  have hspot (k : Nat) : spot k ∈ g.obstacles ↔ k ∈ g.obstacles.map number := by
    rw [List.mem_map]
    refine ⟨fun hmem => ⟨_, hmem, spot_inj.mp (spot_number (hobst _ hmem).1)⟩, ?_⟩
    rintro ⟨p, hp, rfl⟩
    rwa [spot_number (hobst p hp).1]
  constructor
  case segments =>
    rw [hcells, Game.segments, hlen]
    simp [spot_number hhead]
  case nodup => simp [hcells]
  case apart =>
    rw [hcells]
    intro k hk hmem
    rw [List.mem_singleton.mp hk, spot_number hhead] at hmem
    exact (hobst _ hmem).2 rfl
  case taken =>
    intro k
    rw [ofGame, testBit_mask, ← ofGame, hcells, hspot, List.mem_cons, List.mem_singleton]
  case onBoard =>
    have hfirst : (ofGame g).head = number (g.segment 0) := Nat.mod_eq_of_lt (number_lt hhead)
    rwa [hfirst, spot_number hhead]
  case length_pos => exact Nat.one_pos
  case length_le => exact Nat.succ_le_of_lt (by decide)
  case dir => rfl
  case food => exact (spot_number hfood).symm
  case obstacles => rfl
  case eats => rfl
  case lcg => rfl
  case wrapMode => exact hwrap
  case bonusActive => exact hbonus
  case elapsed => exact helapsed
  case cooldown => exact hcooldown

/-! ## the pilot -/

/-- The way to the food: up or down to its row first, and round what is in the way. -/
def pilot (s : Shadow) : Option Dir :=
  let side (b : Bool) : Dir := bif b then .right else .left
  let height (b : Bool) : Dir := bif b then .down else .up
  let right := Nat.ble ((s.food % 100 + 78 - s.head % 100) % 78) 39
  let down := Nat.ble ((s.food / 100 + 23 - s.head / 100) % 23) 11
  let ways := bif Nat.beq (s.food / 100) (s.head / 100)
    then [side right, height down, height !down, side !right]
    else [height down, side right, side !right, height !down]
  ways.find? fun d => !isOpposite s.dir d && !s.taken.testBit (hop d s.head)

/-- The game the pilot plays for `n` steps. -/
def fly : Nat → Shadow → Option Shadow
  | 0, s => some s
  | n + 1, s =>
    match s.pilot with
    | some d => bif s.isFull d then none else fly n (s.go d)
    | none => none

/-- The pilot neither turns back nor runs into something. -/
theorem pilot_spec {s : Shadow} (h : s.pilot = some d) :
    isOpposite s.dir d = false ∧ s.taken.testBit (hop d s.head) = false := by
  have hfound := List.find?_some h
  simpa using hfound

end Shadow

/-- The player turns. -/
theorem Shows.turn (h : Shows s g) (hd : isOpposite s.dir d = false) :
    Shows { s with dir := d } (g.setDir d) := by
  have hturn : g.setDir d = { g with dir := d } := by
    rw [setDir, h.dir, hd]
    rfl
  rw [hturn]
  exact { h with dir := rfl }

/-- The game in which the player has turned as the pilot does can take a step. -/
theorem Shows.aim {t : Track} (h : Shows s t.game) (hpilot : s.pilot = some d) :
    ∃ t₁, t.play (.setDir d) = .ok t₁ ∧ Shows { s with dir := d } t₁.game ∧ t₁.game.dir = d ∧
      ∀ dtMs, t₁.play (.step dtMs) = .ok (t₁.after dtMs) := by
  obtain ⟨hd, hfree⟩ := Shadow.pilot_spec hpilot
  have hturn := h.turn hd
  exact ⟨_, rfl, hturn, hturn.dir, fun dtMs => if_pos (hturn.runs hturn.dir hfree dtMs)⟩

/-- **The pilot's game is a game.** -/
theorem fly_reach {t₀ t : Track} {tr : List GameOp} {n : Nat} {s' : Shadow}
    (hrun : Reach Track.play Free t₀ tr t) (h : Shows s t.game)
    (hfly : s.fly n = some s') : ∃ tr' t', Reach Track.play Free t₀ tr' t' ∧ Shows s' t'.game := by
  induction n generalizing s t tr with
  | zero => exact ⟨tr, t, hrun, Option.some.inj hfly ▸ h⟩
  | succ n ih =>
    rw [Shadow.fly] at hfly
    split at hfly
    · next d hpilot =>
      cases hfull : s.isFull d with
      | true => simp [hfull] at hfly
      | false =>
        rw [hfull, cond_false] at hfly
        obtain ⟨t₁, hturn, hshows, hd, hstep⟩ := h.aim hpilot
        have hgo := hshows.step hfull hd (Shadow.pilot_spec hpilot).2
        exact ih ((hrun.snoc trivial hturn).snoc trivial (hstep 0)) hgo hfly
    · contradiction

/-- A game in wrap mode whose shadow comes to meet `P`. -/
theorem fly_any (g₀ : Game) (prngSeed n : Nat) (withObstacles : Bool) (P : Shadow → Bool)
    (hopen : Opening ((g₀.init prngSeed withObstacles).setWrapMode true))
    (hfly : ((Shadow.ofGame ((g₀.init prngSeed withObstacles).setWrapMode true)).fly n).any P =
    true) :
    ∃ tr t s, Reach Track.play Free (Track.start g₀ prngSeed withObstacles) tr t ∧ Shows s t.game ∧
      P s = true := by
  obtain ⟨s, hsome, hP⟩ := (Option.any_eq_true _ _).mp hfly
  have hshows := Shadow.ofGame_shows hopen
  generalize Shadow.ofGame ((g₀.init prngSeed withObstacles).setWrapMode true) = s₀ at hsome hshows
  have hrun : Reach Track.play Free (Track.start g₀ prngSeed withObstacles) [.setWrapMode true]
      { Track.start g₀ prngSeed withObstacles with
        game := (g₀.init prngSeed withObstacles).setWrapMode true } :=
    Reach.nil.snoc trivial rfl
  obtain ⟨tr, t, hreach, hs⟩ := fly_reach hrun hshows hsome
  exact ⟨tr, t, s, hreach, hs, hP⟩

end Doors.Snake
