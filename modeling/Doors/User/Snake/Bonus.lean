import Mathlib.Algebra.GroupWithZero.Nat
import Doors.User.Snake.Shadow

/-!
# Doors.User.Snake.Bonus

How long the bonus food stays.

`bonusDurationMs` subtracts from an interval of 8000 ms and takes the minimum of
4000 ms for what comes out below it.  The difference is unsigned, so it is far above
the interval for a snake of more than 40 cells.

* `step_bonus` — what a step makes of the bonus food;
* `bonus_expires` — it is gone after an interval, in every game that places it for
  snakes of at most 40 cells;
* `bonusDurationMs_long` — for longer snakes it is not.
-/

namespace Doors.Snake

open Cells Run Game

namespace Game

/-! ## the bonus in a step -/

variable {g h : Game} {p : Pos} {dtMs : Nat}

/-- The bonus food is still there after the move. -/
def bonusLeft (g : Game) : Bool := g.bonusActive && g.next ≠ g.bonusFood

/-- The bonus food is still there after a step. -/
def bonusStays (g : Game) (dtMs : Nat) : Bool := g.bonusLeft && dtMs < g.bonusRemainingMs

/-- The time without a new bonus, after a step. -/
def elapsedIn (g : Game) (dtMs : Nat) : Nat :=
  if g.bonusLeft ∧ g.bonusRemainingMs ≤ dtMs then addMs g.bonusElapsedMs (dtMs - g.bonusRemainingMs)
  else addMs g.bonusElapsedMs dtMs

/-- A step places new bonus food. -/
def bonusComes (g : Game) (dtMs : Nat) : Bool :=
  !g.bonusStays dtMs && bonusIntervalMs ≤ g.elapsedIn dtMs

/-- A meal keeps the bonus food. -/
theorem eat_sameBonus (g : Game) : g.SameBonus g.eat := by
  have hgrow : g.SameBonus g.grow := ⟨rfl, rfl, rfl, rfl⟩
  unfold eat
  split
  · exact hgrow.trans (spawnObstacle_still _).bonus
  · exact hgrow

/-- The move takes the bonus food that is in its way. -/
theorem moved_bonus (g : Game) :
    g.moved.bonusActive = g.bonusLeft ∧ g.moved.bonusElapsedMs = g.bonusElapsedMs ∧
      g.moved.bonusRemainingMs = g.bonusRemainingMs := by
  have hmove : g.SameBonus (if g.ate then (g.advance g.next).eat else g.advance g.next) := by
    have hadvance : g.SameBonus (g.advance g.next) := ⟨rfl, rfl, rfl, rfl⟩
    split
    · exact hadvance.trans (eat_sameBonus _)
    · exact hadvance
  unfold moved
  dsimp only
  generalize (if g.ate then (g.advance g.next).eat else g.advance g.next) = h at hmove ⊢
  have hboost := (consumeBoost_still (h.eatBonus g.next) g.next).bonus
  rw [hboost.active, hboost.elapsed, hboost.remaining]
  unfold eatBonus bonusLeft
  split <;> simp_all [hmove.active, hmove.bonusFood, hmove.elapsed, hmove.remaining]

/-- The timer of the bonus food, after the timers of a step. -/
theorem ticked_bonus (g : Game) (dtMs : Nat) :
    (g.ticked dtMs).bonusActive = g.bonusStays dtMs ∧
      (g.ticked dtMs).bonusElapsedMs = g.elapsedIn dtMs ∧
      (g.ticked dtMs).bonusRemainingMs = if g.bonusStays dtMs then g.bonusRemainingMs - dtMs
        else g.bonusRemainingMs := by
  have hboost :=
    (((fed_still g).trans (runBoost_still _ dtMs)).trans (respawnBoost_still _ dtMs)).bonus
  obtain ⟨hactive, helapsed, hremaining⟩ := moved_bonus g
  rw [← hboost.active] at hactive
  rw [← hboost.elapsed] at helapsed
  rw [← hboost.remaining] at hremaining
  unfold ticked runHighlight runBonus bonusStays elapsedIn
  generalize (g.fed.runBoost dtMs).respawnBoost dtMs = h at hactive helapsed hremaining ⊢
  rw [hactive, helapsed, hremaining]
  cases g.bonusLeft with
  | false => simp
  | true =>
    by_cases hdt : g.bonusRemainingMs ≤ dtMs
    · simp [hdt, Nat.not_lt.mpr hdt]
    · simp [hdt, Nat.not_le.mp hdt]

/-- Bonus food that stays is there and has time left. -/
theorem bonusStays_spec (hstays : g.bonusStays dtMs = true) :
    g.bonusActive = true ∧ dtMs < g.bonusRemainingMs := by
  simp only [bonusStays, bonusLeft, Bool.and_eq_true, decide_eq_true_eq] at hstays
  exact ⟨hstays.1.1, hstays.2⟩

/-- Whether bonus food comes is known before the step. -/
theorem bonusDue_ticked (g : Game) (dtMs : Nat) : (g.ticked dtMs).bonusDue = g.bonusComes dtMs := by
  obtain ⟨hactive, helapsed, -⟩ := ticked_bonus g dtMs
  unfold bonusDue bonusComes
  rw [hactive, helapsed]
  simp

/-- **What a step makes of the bonus food.** -/
theorem step_bonus (hrun : (g.step dtMs).1 = true) :
    (g.step dtMs).2.bonusActive = (g.bonusStays dtMs || g.bonusComes dtMs) ∧
      (g.step dtMs).2.bonusRemainingMs =
        if g.bonusComes dtMs then (g.step dtMs).2.bonusDurationMs
        else if g.bonusStays dtMs then g.bonusRemainingMs - dtMs else g.bonusRemainingMs := by
  obtain ⟨-, hstep, -⟩ := step_snake hrun
  obtain ⟨hactive, -, hremaining⟩ := ticked_bonus g dtMs
  rw [hstep, spawnBonus, bonusDue_ticked]
  split
  · next hcomes =>
    rw [hcomes, Bool.or_true]
    exact ⟨rfl, rfl⟩
  · next hcomes =>
    rw [hactive, hremaining]
    simp [hcomes]

/-! ## the duration -/

/-- Bonus food for a snake of at most 40 cells lasts an interval at most. -/
theorem bonusDurationMs_short (hlen : g.length ≤ 40) :
    bonusDurationMinMs ≤ g.bonusDurationMs ∧ g.bonusDurationMs ≤ bonusIntervalMs := by
  have hms : (bonusIntervalMs + 2 ^ 64 - g.length * 200) % 2 ^ 64 =
      bonusIntervalMs - g.length * 200 := by
    have hsub : bonusIntervalMs + 2 ^ 64 - g.length * 200 =
        bonusIntervalMs - g.length * 200 + 2 ^ 64 := by
      unfold bonusIntervalMs
      omega
    rw [hsub, Nat.add_mod_right, Nat.mod_eq_of_lt (Nat.lt_of_le_of_lt (Nat.sub_le ..) (by decide))]
  unfold bonusDurationMs
  rw [hms]
  unfold bonusDurationMinMs bonusIntervalMs
  dsimp only
  split <;> omega

/-- The difference wraps around for a snake of more than 40 cells. -/
theorem bonusDurationMs_long (hlen : 40 < g.length) (hint : g.length < 2 ^ 31) :
    g.bonusDurationMs = bonusIntervalMs + 2 ^ 64 - g.length * 200 := by
  unfold bonusDurationMs bonusDurationMinMs bonusIntervalMs
  rw [Nat.mod_eq_of_lt (by omega)]
  dsimp only
  split <;> omega

end Game

/-- The time an operation takes. -/
def GameOp.span : GameOp → Nat
  | .step dtMs => dtMs
  | _ => 0

namespace Track

variable {t t' : Track} {g₀ : Game} {prngSeed dtMs : Nat} {withObstacles : Bool}
  {tr tr' : List GameOp} {op : GameOp}

/-- Bonus food is placed for snakes of at most 40 cells. -/
def Modest (t : Track) : GameOp → Prop
  | .step dtMs => t.game.bonusComes dtMs = true → t.game.length + t.game.ate.toNat ≤ 40
  | _ => True

/-- The bonus food has time left, and at most an interval. -/
def Timely (t : Track) : Prop :=
  t.game.bonusActive = true → 0 < t.game.bonusRemainingMs ∧
    t.game.bonusRemainingMs ≤ bonusIntervalMs

/-- How often bonus food was placed. -/
theorem after_placed (t : Track) (dtMs : Nat) :
    (t.after dtMs).placed = if t.game.bonusComes dtMs then t.placed + 1 else t.placed := by
  rw [after, bonusDue_ticked]

/-- The length after a step. -/
theorem after_length (hrun : (t.game.step dtMs).1 = true) :
    (t.after dtMs).game.length = t.game.length + t.game.ate.toNat := by
  obtain ⟨-, -, hsame⟩ := step_snake hrun
  rw [after, hsame.length, onward]
  cases t.game.ate <;> rfl

/-- The time left of a bonus that a step places. -/
theorem after_comes (hrun : (t.game.step dtMs).1 = true) (hcomes : t.game.bonusComes dtMs = true) :
    (t.after dtMs).game.bonusRemainingMs = (t.after dtMs).game.bonusDurationMs := by
  rw [after, (step_bonus hrun).2, if_pos hcomes]

/-- The time that new bonus food has. -/
theorem modest_bounds (hrun : (t.game.step dtMs).1 = true) (hcomes : t.game.bonusComes dtMs = true)
    (hmodest : t.Modest (.step dtMs)) :
    bonusDurationMinMs ≤ (t.after dtMs).game.bonusRemainingMs ∧
      (t.after dtMs).game.bonusRemainingMs ≤ bonusIntervalMs := by
  rw [after_comes hrun hcomes]
  exact bonusDurationMs_short (after_length hrun ▸ hmodest hcomes)

/-- Bonus food for a longer snake lasts more than an interval. -/
theorem immodest_long (hrun : (t.game.step dtMs).1 = true) (hlong : ¬ t.Modest (.step dtMs))
    (hint : (t.after dtMs).game.length < 2 ^ 31) :
    bonusIntervalMs < (t.after dtMs).game.bonusRemainingMs := by
  simp only [Modest, Classical.not_imp, Nat.not_le] at hlong
  obtain ⟨hcomes, hlong⟩ := hlong
  rw [after_comes hrun hcomes, bonusDurationMs_long (after_length hrun ▸ hlong) hint]
  omega

/-- A bonus that stays has used up the time of the step. -/
theorem after_stays (hrun : (t.game.step dtMs).1 = true) (hcomes : t.game.bonusComes dtMs = false)
    (hactive : (t.after dtMs).game.bonusActive = true) :
    t.game.bonusActive = true ∧ dtMs < t.game.bonusRemainingMs ∧
      (t.after dtMs).game.bonusRemainingMs + dtMs = t.game.bonusRemainingMs := by
  obtain ⟨hstep, hremaining⟩ := step_bonus hrun
  rw [after, hstep, hcomes, Bool.or_false] at hactive
  obtain ⟨hold, hdt⟩ := bonusStays_spec hactive
  rw [hcomes, hactive] at hremaining
  refine ⟨hold, hdt, ?_⟩
  rw [after, hremaining]
  simp only [Bool.false_eq_true, if_false, if_true]
  omega

/-- One operation keeps the time of the bonus food in bounds. -/
theorem timely_play (h : t.Timely) (hmodest : t.Modest op) (hplay : t.play op = .ok t') :
    t'.Timely := by
  cases op with
  | setDir d =>
    obtain rfl := Except.ok.inj hplay
    unfold Timely setDir
    split <;> exact h
  | setWrapMode on =>
    obtain rfl := Except.ok.inj hplay
    exact h
  | step dtMs =>
    obtain ⟨hrun, rfl⟩ := play_step hplay
    intro hactive
    cases hcomes : t.game.bonusComes dtMs with
    | true =>
      obtain ⟨hmin, hmax⟩ := modest_bounds hrun hcomes hmodest
      exact ⟨Nat.lt_of_lt_of_le (by decide) hmin, hmax⟩
    | false =>
      obtain ⟨hold, hdt, hsum⟩ := after_stays hrun hcomes hactive
      obtain ⟨-, hmax⟩ := h hold
      omega

/-- What is left of the bonus of an earlier state: it is the same one, and the time
that has passed is missing. -/
structure Lasts (t : Track) (span : Nat) (t' : Track) : Prop where
  placed : t.placed ≤ t'.placed
  same : t'.placed = t.placed → t'.game.bonusActive = true →
    t.game.bonusActive = true ∧ 0 < t'.game.bonusRemainingMs ∧
      t'.game.bonusRemainingMs + span = t.game.bonusRemainingMs

/-- One operation uses up its time. -/
theorem lasts_play {t₁ : Track} {ms : Nat} (h : t.Lasts ms t₁) (hplay : t₁.play op = .ok t') :
    t.Lasts (ms + op.span) t' := by
  cases op with
  | setDir d =>
    obtain rfl := Except.ok.inj hplay
    have hframe : (t₁.game.setDir d).bonusActive = t₁.game.bonusActive ∧
        (t₁.game.setDir d).bonusRemainingMs = t₁.game.bonusRemainingMs := by
      unfold setDir
      split <;> exact ⟨rfl, rfl⟩
    refine ⟨h.placed, fun hplaced hactive => ?_⟩
    rw [hframe.1] at hactive
    rw [hframe.2]
    exact h.same hplaced hactive
  | setWrapMode on =>
    obtain rfl := Except.ok.inj hplay
    exact ⟨h.placed, h.same⟩
  | step dtMs =>
    obtain ⟨hrun, rfl⟩ := play_step hplay
    have hle := h.placed
    rw [GameOp.span]
    cases hcomes : t₁.game.bonusComes dtMs with
    | true =>
      have hplaced : (t₁.after dtMs).placed = t₁.placed + 1 := by
        rw [after_placed, hcomes, if_pos rfl]
      exact ⟨by omega, fun hsame => by omega⟩
    | false =>
      have hplaced : (t₁.after dtMs).placed = t₁.placed := by
        rw [after_placed, hcomes]
        rfl
      refine ⟨hplaced ▸ hle, fun hsame hactive => ?_⟩
      obtain ⟨hold, hdt, hsum⟩ := after_stays hrun hcomes hactive
      obtain ⟨hfirst, -, hrest⟩ := h.same (hplaced ▸ hsame) hold
      exact ⟨hfirst, by omega, by omega⟩

/-- A run uses up its time. -/
theorem lasts_reach (htimely : t.Timely) (hrun : Reach play Free t tr t') :
    t.Lasts (tr.map GameOp.span).sum t' := by
  induction hrun with
  | nil => exact ⟨Nat.le_refl _, fun _ hactive => ⟨hactive, (htimely hactive).1, rfl⟩⟩
  | snoc _ _ hplay ih =>
    rw [List.map_append, List.sum_append, List.map_singleton, List.sum_singleton]
    exact lasts_play ih hplay

/-- **The bonus food expires** in every game that places it for snakes of at most 40
cells: its time is between the minimum and the interval, and once an interval has passed
it is gone. -/
theorem bonus_expires (hrun : Reach play Modest (start g₀ prngSeed withObstacles) tr t) :
    (t.game.bonusActive = true → t.game.bonusRemainingMs ≤ bonusIntervalMs) ∧
      (∀ dtMs t', t.play (.step dtMs) = .ok t' → t'.placed = t.placed + 1 →
        t'.game.length < 2 ^ 31 →
        (bonusDurationMinMs ≤ t'.game.bonusRemainingMs ∧
          t'.game.bonusRemainingMs ≤ bonusIntervalMs ↔ t.Modest (.step dtMs))) ∧
      ∀ tr' t', Reach play Free t tr' t' → bonusIntervalMs ≤ (tr'.map GameOp.span).sum →
        t'.placed = t.placed →
        t'.game.bonusActive = false := by
  have htimely : t.Timely := by
    refine hrun.inv (P := Timely) ?_ fun _ _ _ h hmodest hplay => timely_play h hmodest hplay
    intro hactive
    have hnone : (start g₀ prngSeed withObstacles).game.bonusActive = false :=
      (init_still g₀ prngSeed withObstacles).bonus.active
    rw [hnone] at hactive
    contradiction
  refine ⟨fun hactive => (htimely hactive).2, fun dtMs t' hplay hplaced hint => ?_,
    fun tr' t' hrest hspan hplaced => ?_⟩
  · obtain ⟨hok, rfl⟩ := play_step hplay
    have hcomes : t.game.bonusComes dtMs = true := by
      rw [after_placed] at hplaced
      split at hplaced
      · assumption
      · omega
    refine ⟨fun hbounds => Classical.byContradiction fun hlong => ?_, modest_bounds hok hcomes⟩
    have hover := immodest_long hok hlong hint
    omega
  · apply Bool.eq_false_iff.mpr
    intro hactive
    obtain ⟨hfirst, hleft, hsum⟩ := (lasts_reach htimely hrest).same hplaced hactive
    obtain ⟨-, hmax⟩ := htimely hfirst
    omega

instance (t : Track) (op : GameOp) : Decidable (t.Modest op) := by
  apply @GameOp.casesOn _ op <;> intros <;> unfold Modest <;> infer_instance

/-- A game with a bonus for a snake of one cell. -/
theorem bonus_expires_short :
    ∃ t, Reach Track.play Modest (start {} 1 true)
      [.setDir .up, .step 100, .setDir .left, .step 8000] t ∧ t.game.bonusActive = true ∧
      t.game.bonusRemainingMs ≤ bonusIntervalMs := by
  obtain ⟨t, hrun, hactive⟩ := Reach.of_runsTo Track.play Modest
    (start {} 1 true) [.setDir .up, .step 100, .setDir .left, .step 8000]
    (fun t => t.game.bonusActive) (by decide +kernel)
  exact ⟨t, hrun, hactive, (bonus_expires hrun).1 hactive⟩

/-- A game in which a snake of 41 cells gets a bonus of more than 500 million years. -/
theorem bonus_lasts :
    ∃ tr t t', Reach Track.play Free (start {} 311 true) tr t ∧ t.play (.step 8000) = .ok t' ∧
      t'.placed = t.placed + 1 ∧
      t'.game.bonusActive = true ∧ t'.game.bonusRemainingMs = 2 ^ 64 - 200 := by
  obtain ⟨tr, t, s, hrun, hshows, hs⟩ := fly_any {} 311 889 true
    (fun s => Nat.beq s.length 41 && s.pilot.any fun d => !Nat.beq (hop d s.head) s.food)
      (by decide +kernel) (by decide +kernel)
  rw [Bool.and_eq_true, Option.any_eq_true] at hs
  obtain ⟨hlen, d, hpilot, hfood⟩ := hs
  obtain ⟨t₁, hturn, hshows₁, hd, hstep⟩ := hshows.aim hpilot
  obtain ⟨hok, -⟩ := play_step (hstep 8000)
  have hate : t₁.game.ate = false := (hshows₁.ate hd).trans ((Bool.not_eq_true' _).mp hfood)
  have hcomes : t₁.game.bonusComes 8000 = true := by
    simp [bonusComes, bonusStays, elapsedIn, bonusLeft, hshows₁.bonusActive, hshows₁.elapsed,
      bonusIntervalMs, addMs]
  have hgrown : (t₁.after 8000).game.length = 41 := by
    rw [after_length hok, hate, hshows₁.length]
    exact Nat.eq_of_beq_eq_true hlen
  refine ⟨_, t₁, _, hrun.snoc trivial hturn, hstep 8000, ?_, ?_, ?_⟩
  · rw [after_placed, hcomes, if_pos rfl]
  · rw [after, (step_bonus hok).1, hcomes, Bool.or_true]
  · rw [after_comes hok hcomes, bonusDurationMs_long (by omega) (by omega), hgrown]
    rfl

end Track

end Doors.Snake
