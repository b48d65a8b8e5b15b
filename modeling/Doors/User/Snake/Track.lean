import Doors.User.Snake

/-!
# Doors.User.Snake.Track

Games of snake together with what has happened in them.

A `Track` is a game with the cells its head has been on, the direction of its
last move, whether that move went round the edge of the board, and how many
bonuses were placed.

* `step_snake` — what a step makes of the snake itself;
* `Track.reach_game`, `Track.exists_reach` — they are the games of `Game.play`;
* `Track.Inv.reach` — in every game the ring buffer holds the last cells of the
  head, as far as it has room.
-/

namespace Doors.Snake

open Cells Run Game

/-! ## the snake in a step -/

namespace Game

/-- The snake itself is the same in both games. -/
structure Same (g h : Game) : Prop where
  body : h.body = g.body
  front : h.front = g.front
  head : h.head = g.head
  length : h.length = g.length
  dir : h.dir = g.dir
  wrapMode : h.wrapMode = g.wrapMode

/-- The bonus food is the same in both games. -/
structure SameBonus (g h : Game) : Prop where
  active : h.bonusActive = g.bonusActive
  bonusFood : h.bonusFood = g.bonusFood
  elapsed : h.bonusElapsedMs = g.bonusElapsedMs
  remaining : h.bonusRemainingMs = g.bonusRemainingMs

/-- The snake and the bonus food are the same in both games. -/
structure Still (g h : Game) : Prop where
  same : g.Same h
  bonus : g.SameBonus h

variable {g g₁ g₂ : Game} {p : Pos}

theorem Same.trans (h : g.Same g₁) (h' : g₁.Same g₂) : g.Same g₂ :=
  ⟨h'.body.trans h.body, h'.front.trans h.front, h'.head.trans h.head, h'.length.trans h.length,
    h'.dir.trans h.dir,
    h'.wrapMode.trans h.wrapMode⟩

theorem SameBonus.trans (h : g.SameBonus g₁) (h' : g₁.SameBonus g₂) : g.SameBonus g₂ :=
  ⟨h'.active.trans h.active, h'.bonusFood.trans h.bonusFood, h'.elapsed.trans h.elapsed,
    h'.remaining.trans h.remaining⟩

theorem Still.trans (h : g.Still g₁) (h' : g₁.Still g₂) : g.Still g₂ :=
  ⟨h.same.trans h'.same, h.bonus.trans h'.bonus⟩

/-- The same snake has the same segments. -/
theorem Same.segment (h : g.Same g₁) (i : Nat) : g₁.segment i = g.segment i := by
  unfold Game.segment cell
  rw [h.body, h.front, h.head]

/-- What lies about the snake may change. -/
theorem still_scenery (g : Game) (food : Pos) (obstacles boostZones : List Pos)
    (lcg boostTimerMs boostCooldownMs scoreHighlightRemainingMs : Nat)
    (boostActive : Bool) :
    g.Still
      { g with
        food, obstacles, boostZones, lcg, boostTimerMs, boostCooldownMs, scoreHighlightRemainingMs,
        boostActive } :=
  ⟨⟨rfl, rfl, rfl, rfl, rfl, rfl⟩, ⟨rfl, rfl, rfl, rfl⟩⟩

/-- A new obstacle leaves the snake and the bonus food alone. -/
theorem spawnObstacle_still (g : Game) : g.Still g.spawnObstacle := by
  unfold spawnObstacle
  split <;> exact still_scenery ..

/-- New food leaves the snake and the bonus food alone. -/
theorem placeFood_still (g : Game) : g.Still g.placeFood := by
  unfold placeFood
  split <;> exact still_scenery ..

/-- The first obstacles leave the snake and the bonus food alone. -/
theorem placeObstacles_still (g : Game) : g.Still g.placeObstacles := still_scenery ..

/-- The boost zones leave the snake and the bonus food alone. -/
theorem placeBoostZones_still (g : Game) : g.Still g.placeBoostZones := still_scenery ..

/-- A boost changes timers and zones only. -/
theorem consumeBoost_still (g : Game) (p : Pos) : g.Still (g.consumeBoost p) := by
  unfold consumeBoost
  split <;> exact still_scenery ..

/-- The timer of the boost runs by itself. -/
theorem runBoost_still (g : Game) (dtMs : Nat) : g.Still (g.runBoost dtMs) := by
  unfold runBoost
  split
  · split <;> exact still_scenery ..
  · exact still_scenery ..

/-- A new boost zone leaves the snake and the bonus food alone. -/
theorem respawnBoost_still (g : Game) (dtMs : Nat) : g.Still (g.respawnBoost dtMs) := by
  unfold respawnBoost
  dsimp only
  split
  · split
    · exact (still_scenery ..).trans (placeBoostZones_still _) |>.trans (still_scenery ..)
    · exact still_scenery ..
  · exact still_scenery ..

/-- The highlight of the score runs by itself. -/
theorem runHighlight_still (g : Game) (dtMs : Nat) : g.Still (g.runHighlight dtMs) :=
  still_scenery ..

/-- Bonus food does not touch the snake. -/
theorem placeBonusFood_same (g : Game) : g.Same g.placeBonusFood := by
  unfold placeBonusFood
  split <;> exact ⟨rfl, rfl, rfl, rfl, rfl, rfl⟩

/-- Eating bonus food changes the score, not the snake. -/
theorem eatBonus_same (g : Game) (p : Pos) : g.Same (g.eatBonus p) := by
  unfold eatBonus
  split <;> exact ⟨rfl, rfl, rfl, rfl, rfl, rfl⟩

/-- The timer of the bonus food does not touch the snake. -/
theorem runBonus_same (g : Game) (dtMs : Nat) : g.Same (g.runBonus dtMs) := by
  unfold runBonus
  split
  · split <;> exact ⟨rfl, rfl, rfl, rfl, rfl, rfl⟩
  · exact ⟨rfl, rfl, rfl, rfl, rfl, rfl⟩

/-- Placing bonus food does not touch the snake. -/
theorem spawnBonus_same (g : Game) : g.Same g.spawnBonus := by
  unfold spawnBonus
  split
  · have hplace := placeBonusFood_same { g with bonusElapsedMs := 0 }
    exact ⟨hplace.body, hplace.front, hplace.head, hplace.length, hplace.dir, hplace.wrapMode⟩
  · exact ⟨rfl, rfl, rfl, rfl, rfl, rfl⟩

/-- The snake after a step: it has moved on, and grown if there was food. -/
def onward (g : Game) : Game :=
  { g.advance g.next with length := if g.ate then g.length + 1 else g.length }

/-- After the move the rest of the step keeps the snake, unless it grows. -/
theorem moved_same (g : Game) : g.onward.Same g.moved := by
  unfold moved onward
  dsimp only
  refine Same.trans ?_ ((eatBonus_same _ _).trans (consumeBoost_still _ _).same)
  cases g.ate with
  | false => exact ⟨rfl, rfl, rfl, rfl, rfl, rfl⟩
  | true =>
    have hgrow : { g.advance g.next with length := g.length + 1 }.Same (g.advance g.next).grow :=
      ⟨rfl, rfl, rfl, rfl, rfl, rfl⟩
    rw [if_pos rfl, if_pos rfl]
    unfold eat
    split
    · exact hgrow.trans (spawnObstacle_still _).same
    · exact hgrow

/-- What follows the meal keeps the snake and the bonus food. -/
theorem fed_still (g : Game) : g.moved.Still g.fed := by
  unfold fed
  split
  · exact placeFood_still _
  · exact still_scenery ..

/-- The timers of a step keep the snake. -/
theorem ticked_same (g : Game) (dtMs : Nat) : g.onward.Same (g.ticked dtMs) := by
  have hboost := ((fed_still g).trans (runBoost_still _ dtMs)).trans (respawnBoost_still _ dtMs)
  exact (((moved_same g).trans hboost.same).trans (runBonus_same _ dtMs)).trans
    (runHighlight_still _ dtMs).same

/-- **What a step makes of the snake.** -/
theorem step_snake {dtMs : Nat} (h : (g.step dtMs).1 = true) :
    g.collides = false ∧ (g.step dtMs).2 = (g.ticked dtMs).spawnBonus ∧
      g.onward.Same (g.step dtMs).2 := by
  unfold step at h ⊢
  split at h
  · contradiction
  · next hc =>
    rw [if_neg hc]
    exact ⟨Bool.eq_false_iff.mpr hc, rfl, (ticked_same g dtMs).trans (spawnBonus_same _)⟩

/-- The head moves to the next cell. -/
theorem onward_zero (g : Game) : g.onward.segment 0 = g.next := advance_zero g g.next

/-- The other segments move up by one. -/
theorem onward_succ (g : Game) {i : Nat} (h : i + 1 < snakeMax) :
    g.onward.segment (i + 1) = g.segment i := advance_succ g g.next h

/-- After the reset, `init` only places things. -/
theorem init_still (g : Game) (prngSeed : Nat) (withObstacles : Bool) :
    (g.reset prngSeed).Still (g.init prngSeed withObstacles) := by
  unfold init initFood
  have hfood := placeFood_still (g.reset prngSeed)
  generalize (g.reset prngSeed).placeFood = g₁ at hfood ⊢
  cases withObstacles with
  | false =>
    simp only [Bool.false_eq_true, if_false]
    exact hfood.trans (placeBoostZones_still g₁)
  | true =>
    simp only [if_true]
    exact (hfood.trans (placeObstacles_still g₁)).trans (placeBoostZones_still g₁.placeObstacles)

/-- A turn keeps the ring. -/
theorem setDir_frame (g : Game) (d : Dir) : (g.setDir d).segment = g.segment ∧
    (g.setDir d).length = g.length ∧ (g.setDir d).head = g.head := by
  unfold setDir
  split <;> exact ⟨rfl, rfl, rfl⟩

end Game

/-! ## games with their past -/

/-- A game, the cells its head has been on, the last one first, and its last move. -/
structure Track where
  game : Game
  trail : List Pos
  /-- the direction of the last move -/
  moved : Dir := .right
  /-- whether the last move went round the edge of the board -/
  around : Bool := false
  /-- how many bonuses were placed -/
  placed : Nat := 0

namespace Track

/-- The game after `init`. -/
def start (g₀ : Game) (prngSeed : Nat) (withObstacles : Bool) : Track where
  game := g₀.init prngSeed withObstacles
  trail := [center]

/-- After a step of the game. -/
def after (t : Track) (dtMs : Nat) : Track where
  game := (t.game.step dtMs).2
  trail := t.game.next :: t.trail
  moved := t.game.dir
  around := t.game.next ≠ t.game.ahead
  placed := if (t.game.ticked dtMs).bonusDue then t.placed + 1 else t.placed

/-- One operation, as `Game.play`. -/
def play (t : Track) : GameOp → Except Over Track
  | .setDir d => .ok { t with game := t.game.setDir d }
  | .setWrapMode on => .ok { t with game := t.game.setWrapMode on }
  | .step dtMs => if (t.game.step dtMs).1 then .ok (t.after dtMs) else .error .gameOver

variable {t t' : Track} {g₀ : Game} {prngSeed dtMs : Nat} {withObstacles : Bool} {tr : List GameOp}
  {op : GameOp}

/-- The trail runs beside the game. -/
theorem play_game (h : t.play op = .ok t') : t.game.play op = .ok t'.game := by
  cases op with
  | step dtMs =>
    rw [play] at h
    split at h
    · next hrun =>
      rw [← Except.ok.inj h, Game.play, if_pos hrun]
      rfl
    · contradiction
  | _ =>
    rw [← Except.ok.inj h]
    rfl

/-- Whatever the game does, the trail can follow. -/
theorem play_exists {g : Game} (h : t.game.play op = .ok g) :
    ∃ t', t.play op = .ok t' ∧ t'.game = g := by
  cases op with
  | step dtMs =>
    rw [Game.play] at h
    split at h
    · next hrun =>
      refine ⟨t.after dtMs, ?_, Except.ok.inj h⟩
      rw [play, if_pos hrun]
    · contradiction
  | _ => exact ⟨_, rfl, Except.ok.inj h⟩

/-- A run of the trail is a run of the game. -/
theorem reach_game (hrun : Reach play Free (start g₀ prngSeed withObstacles) tr t) :
    Reach Game.play Free (g₀.init prngSeed withObstacles) tr t.game := by
  induction hrun with
  | nil => exact .nil
  | snoc _ _ hnext ih => exact ih.snoc trivial (play_game hnext)

/-- Every game has a past. -/
theorem exists_reach {g : Game}
    (hrun : Reach Game.play Free (g₀.init prngSeed withObstacles) tr g) :
    ∃ t, Reach play Free (start g₀ prngSeed withObstacles) tr t ∧ t.game = g := by
  induction hrun with
  | nil => exact ⟨_, .nil, rfl⟩
  | snoc _ _ hnext ih =>
    obtain ⟨t, ht, rfl⟩ := ih
    obtain ⟨t', hplay, hgame⟩ := play_exists hnext
    exact ⟨t', ht.snoc trivial hplay, hgame⟩

/-- A step that does not end the game. -/
theorem play_step (h : t.play (.step dtMs) = .ok t') :
    (t.game.step dtMs).1 = true ∧ t' = t.after dtMs := by
  rw [play] at h
  split at h
  · next hrun => exact ⟨hrun, (Except.ok.inj h).symm⟩
  · contradiction

/-- **The ring holds the last cells of the head**, as far as it has room. -/
structure Inv (t : Track) : Prop where
  head_lt : t.game.head < snakeMax
  length_pos : 0 < t.game.length
  length_le : t.game.length ≤ t.trail.length
  ring : ∀ i p, i < snakeMax → t.trail[i]? = some p → t.game.segment i = p
  onBoard : ∀ p ∈ t.trail, OnBoard p

/-- The trail of a new game. -/
theorem start_inv : (start g₀ prngSeed withObstacles).Inv := by
  have hsame := (init_still g₀ prngSeed withObstacles).same
  have hhead : (g₀.reset prngSeed).segment 0 = center := by
    rw [segment_eq _ (Nat.zero_le _)]
    simp only [reset, snakeMax, Nat.reduceAdd, Nat.reduceSub, Nat.reduceMod, set_self]
  rw [← hsame.segment] at hhead
  have hzero : (g₀.init prngSeed withObstacles).head = 0 := hsame.head
  have hone : (g₀.init prngSeed withObstacles).length = 1 := hsame.length
  unfold start
  generalize g₀.init prngSeed withObstacles = g at hhead hzero hone
  constructor
  case head_lt => simp [hzero, snakeMax]
  case length_pos => simp [hone]
  case length_le => simp [hone]
  case ring =>
    intro i p _ hp
    cases i with
    | zero => exact hhead.trans (Option.some.inj hp)
    | succ i => simp at hp
  case onBoard =>
    intro p hp
    rw [List.mem_singleton.mp hp]
    decide

/-- A step moves every cell one place on. -/
theorem Inv.after (h : t.Inv) (hrun : (t.game.step dtMs).1 = true) : (t.after dtMs).Inv := by
  obtain ⟨hfree, -, hsame⟩ := step_snake hrun
  have hlength : (t.game.step dtMs).2.length = if t.game.ate then t.game.length + 1
    else t.game.length := hsame.length
  have hpos := h.length_pos
  have hle := h.length_le
  constructor
  case head_lt =>
    rw [Track.after, hsame.head]
    exact Nat.mod_lt _ (by decide)
  case length_pos =>
    rw [Track.after, hlength]
    split <;> omega
  case length_le =>
    rw [Track.after, hlength, List.length_cons]
    split <;> omega
  case ring =>
    intro i p hi hp
    rw [Track.after, hsame.segment]
    cases i with
    | zero => exact (onward_zero _).trans (Option.some.inj hp)
    | succ i => exact (onward_succ _ hi).trans (h.ring i p (by omega) hp)
  case onBoard =>
    intro p hp
    rcases List.mem_cons.mp hp with rfl | hp
    · exact next_onBoard hfree
    · exact h.onBoard p hp

/-- **One operation**: the trail and the counter stay in step with the game. -/
theorem Inv.play (h : t.Inv) (hplay : t.play op = .ok t') : t'.Inv := by
  cases op with
  | setDir d =>
    obtain rfl := Except.ok.inj hplay
    obtain ⟨hsegment, hlength, hhead⟩ := t.game.setDir_frame d
    exact ⟨hhead ▸ h.head_lt, hlength ▸ h.length_pos, hlength ▸ h.length_le,
      fun i p hi hp => hsegment ▸ h.ring i p hi hp, h.onBoard⟩
  | setWrapMode on =>
    obtain rfl := Except.ok.inj hplay
    exact ⟨h.head_lt, h.length_pos, h.length_le, h.ring, h.onBoard⟩
  | step dtMs =>
    obtain ⟨hrun, rfl⟩ := play_step hplay
    exact h.after hrun

/-- **The ring holds the last cells of the head** in every game. -/
theorem Inv.reach {C : Track → GameOp → Prop}
    (hrun : Reach Track.play C (start g₀ prngSeed withObstacles) tr t) : t.Inv :=
  hrun.inv start_inv fun _ _ _ h _ hplay => h.play hplay

end Track

end Doors.Snake
