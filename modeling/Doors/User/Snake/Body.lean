import Doors.User.Snake.Shadow

/-!
# Doors.User.Snake.Body

Whether the body of the snake is in the ring buffer.

The ring has `snakeMax` cells; the length has no bound.

* `Track.Kept` — no index leaves the ring, and the segments are the last cells of
  the head, in order;
* `body_kept_iff` — the body is kept until food is eaten by a snake that fills the
  ring, and is lost then.
-/

namespace Doors.Snake

open Cells Run Game

namespace Track

/-- `oldTailIdx` of `step`. -/
def tailIndex (head length : Nat) : Int := Int.tmod (head - length + 1 + snakeMax) snakeMax

/-- **The body is kept**: no index leaves the ring, and the segments are the last
cells of the head, in order. -/
structure Kept (t : Track) : Prop where
  head : t.game.head < snakeMax
  tail : 0 ≤ tailIndex t.game.head t.game.length ∧ tailIndex t.game.head t.game.length < snakeMax
  index : ∀ i, i < t.game.length → 0 ≤ ringIndex t.game.head i ∧ ringIndex t.game.head i < snakeMax
  segments : t.game.segments = t.trail.take t.game.length

/-- No food is eaten by a snake that fills the ring. -/
def Fits (t : Track) : GameOp → Prop
  | .step _ => t.game.length < snakeMax ∨ t.game.ate = false
  | _ => True

variable {t t' : Track} {g₀ : Game} {prngSeed dtMs : Nat} {withObstacles : Bool} {tr : List GameOp}
  {op : GameOp}

/-- The body is kept while the snake fits the ring. -/
theorem Inv.kept (h : t.Inv) (hlen : t.game.length ≤ snakeMax) : t.Kept := by
  have hpos := h.length_pos
  have hmax : (0 : Int) < snakeMax := by decide
  constructor
  case head => exact h.head_lt
  case tail =>
    unfold tailIndex
    rw [Int.tmod_eq_emod_of_nonneg (by omega)]
    exact ⟨Int.emod_nonneg _ (by decide), Int.emod_lt_of_pos _ hmax⟩
  case index =>
    intro i hi
    rw [ringIndex_eq (by omega)]
    have hlt := Nat.mod_lt (t.game.head + snakeMax - i) (show 0 < snakeMax by decide)
    omega
  case segments =>
    apply List.ext_getElem (by simp [Game.segments, h.length_le])
    intro i hi hi'
    simp only [Game.segments, List.length_map, List.length_range] at hi
    rw [List.getElem_take]
    simp only [Game.segments, List.getElem_map, List.getElem_range]
    exact h.ring i _ (by omega) (List.getElem?_eq_getElem _)

/-- The trail has the segments. -/
theorem trail_eq_segment (h : t.game.segments = t.trail.take t.game.length) {i : Nat}
    (hi : i < t.game.length) :
    t.trail[i]? = some (t.game.segment i) := by
  have hget : t.game.segments[i]? = some (t.game.segment i) := by
    simp [Game.segments, hi]
  rw [h, List.getElem?_take_of_lt hi] at hget
  exact hget

/-- A step that eats at the capacity loses the last cell. -/
theorem Inv.lost (h : t.Inv) (hlen : t.game.length = snakeMax) (hate : t.game.ate = true)
    (hrun : (t.game.step dtMs).1 = true) :
    (t.after dtMs).game.length = snakeMax + 1 ∧
      (t.after dtMs).game.segments ≠ (t.after dtMs).trail.take (t.after dtMs).game.length := by
  obtain ⟨hfree, -, hsame⟩ := step_snake hrun
  have hgrown : (t.after dtMs).game.length = snakeMax + 1 := by
    rw [Track.after, hsame.length, onward, hate, if_pos rfl, hlen]
  refine ⟨hgrown, fun hkept => ?_⟩
  -- the index of the new tail is a whole round behind the head
  have hround : (t.after dtMs).game.segment snakeMax = t.game.next := by
    rw [Track.after, hsame.segment, ← onward_zero, segment_eq _ (by omega), segment_eq _ (by omega)]
    simp [snakeMax]
  have hold : t.trail[snakeMax - 1]? = some t.game.next := by
    have hget := trail_eq_segment hkept (i := snakeMax) (by omega)
    rw [hround] at hget
    exact hget
  have hmem : t.game.next ∈ t.game.segments.tail := by
    rw [← h.ring _ _ (by decide) hold, Game.segments, hlen]
    apply List.mem_of_getElem? (i := snakeMax - 2)
    simp [snakeMax]
  simp [collides, selfCollision, hmem] at hfree

/-- One operation keeps the snake in the ring. -/
theorem length_play (hfits : t.Fits op) (hlen : t.game.length ≤ snakeMax)
    (hplay : t.play op = .ok t') :
    t'.game.length ≤ snakeMax := by
  cases op with
  | setDir d =>
    obtain rfl := Except.ok.inj hplay
    obtain ⟨-, hlength, -⟩ := t.game.setDir_frame d
    exact hlength ▸ hlen
  | setWrapMode on =>
    obtain rfl := Except.ok.inj hplay
    exact hlen
  | step dtMs =>
    obtain ⟨hrun, rfl⟩ := play_step hplay
    obtain ⟨-, -, hsame⟩ := step_snake hrun
    rw [after, hsame.length, onward]
    rcases hfits with hlt | hate
    · dsimp only
      split <;> omega
    · simp [hate, hlen]

/-- **The body is kept** until food is eaten by a snake that fills the ring, and is
lost then. -/
theorem body_kept_iff (hrun : Reach Track.play Fits (start g₀ prngSeed withObstacles) tr t) :
    t.Kept ∧ ∀ op t', t.play op = .ok t' → (t'.Kept ↔ t.Fits op) := by
  have hinv := Inv.reach hrun
  have hlen : t.game.length ≤ snakeMax := by
    refine hrun.inv (P := fun t => t.game.length ≤ snakeMax) ?_ fun _ _ _ hlen hfits hplay =>
      length_play hfits hlen hplay
    have hone : (start g₀ prngSeed withObstacles).game.length = 1 :=
      (init_still g₀ prngSeed withObstacles).same.length
    simp [hone, snakeMax]
  refine ⟨hinv.kept hlen, fun op t' hplay => ⟨fun hkept => ?_,
      fun hfits => (hinv.play hplay).kept (length_play hfits hlen hplay)⟩⟩
  cases op with
  | step dtMs =>
    obtain ⟨hok, rfl⟩ := play_step hplay
    by_cases hfull : t.game.length < snakeMax
    · exact .inl hfull
    · exact .inr
        (Bool.eq_false_iff.mpr fun hate => (hinv.lost (by omega) hate hok).2 hkept.segments)
  | _ => trivial

instance (t : Track) (op : GameOp) : Decidable (t.Fits op) := by
  apply @GameOp.casesOn _ op <;> intros <;> unfold Fits <;> infer_instance

/-- Twice food, with turns in between: the three cells of the snake are the last three of its
head. -/
theorem body_kept_fed :
    ∃ t, Reach Track.play Fits (start {} 18944 true)
      ([.setDir .up, .step 900, .setDir .left, .step 900, .setDir .up, .step 900,
          .step 900, .step 900,
        .setDir .right, .step 900, .step 900]) t ∧ t.game.length = 3 ∧ t.Kept := by
  obtain ⟨t, hrun, hlen⟩ := Reach.of_runsTo Track.play Fits (start {} 18944 true)
    ([.setDir .up, .step 900, .setDir .left, .step 900, .setDir .up, .step 900,
        .step 900, .step 900,
      .setDir .right, .step 900, .step 900]) (fun t => t.game.length = 3) (by decide +kernel)
  exact ⟨t, hrun, of_decide_eq_true hlen, (body_kept_iff hrun).1⟩

/-- A game whose snake eats a hundred times. -/
theorem body_lost :
    ∃ tr t, Reach Track.play Free (start {} 311 true) tr t ∧ t.game.length = 101 ∧
      t.game.segments ≠ t.trail.take t.game.length := by
  obtain ⟨tr, t, s, hrun, hshows, hs⟩ := fly_any {} 311 2481 true
    (fun s => Nat.beq s.length snakeMax && s.pilot.any fun d => Nat.beq (hop d s.head) s.food)
      (by decide +kernel) (by decide +kernel)
  rw [Bool.and_eq_true, Option.any_eq_true] at hs
  obtain ⟨hlen, d, hpilot, hfood⟩ := hs
  obtain ⟨t₁, hturn, hshows₁, hd, hstep⟩ := hshows.aim hpilot
  have hrun₁ := hrun.snoc trivial hturn
  have hlost := (Inv.reach hrun₁).lost (hshows₁.length.trans (Nat.eq_of_beq_eq_true hlen))
    ((hshows₁.ate hd).trans hfood)
    (play_step (hstep 0)).1
  exact ⟨_, _, hrun₁.snoc trivial (hstep 0), hlost⟩

end Track

end Doors.Snake
