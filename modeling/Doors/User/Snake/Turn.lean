import Doors.User.Snake.Track

/-!
# Doors.User.Snake.Turn

Turning the snake between two moves.

`setDir` compares with the direction asked for last, not with the one moved last, so
two key presses turn the snake round.

* `neck_free_iff` — the next move leaves the neck alone exactly when the direction
  in force is not against the last move;
* `neck_hit` — a snake of two cells that is turned onto its neck.
-/

namespace Doors.Snake

open Cells Run Game

/-! ## neighbouring cells -/

def rowStep : Dir → Int
  | .up => -1
  | .down => 1
  | _ => 0

def colStep : Dir → Int
  | .left => -1
  | .right => 1
  | _ => 0

/-- The cell beside `p`. -/
def beside (d : Dir) (p : Pos) : Pos := ⟨p.row + rowStep d, p.col + colStep d⟩

/-- A coordinate after a move, in a row of `n` cells. -/
def along (wrapMode : Bool) (n : Nat) (x : Int) : Int := if wrapMode then wrap n x else x

/-- The cell a move leads to. -/
def goes (wrapMode : Bool) (d : Dir) (p : Pos) : Pos :=
  ⟨along wrapMode boardRows (beside d p).row, along wrapMode boardCols (beside d p).col⟩

variable {g : Game} {p : Pos} {m d : Dir} {w v : Bool} {n : Nat} {a b x : Int}

/-- A cell is its row and column. -/
theorem pos_eq_iff {p q : Pos} : p = q ↔ p.row = q.row ∧ p.col = q.col := by
  cases p
  cases q
  rw [Pos.mk.injEq]

/-- The cell ahead of the head. -/
theorem ahead_eq (g : Game) : g.ahead = beside g.dir (g.segment 0) := by
  unfold ahead beside
  cases g.dir <;> simp [rowStep, colStep, Int.sub_eq_add_neg]

/-- Where the head goes. -/
theorem next_eq (g : Game) : g.next = goes g.wrapMode g.dir (g.segment 0) := by
  rw [next, ahead_eq, goes, along, along]
  split <;> rfl

/-- Only the opposite step leads back, and round the edge only with wrapping. -/
theorem along_back (hn : 3 ≤ n) (ha : -1 ≤ a ∧ a ≤ 1) (hb : -1 ≤ b ∧ b ≤ 1) (hx : 1 ≤ x ∧ x ≤ n)
    (hy : 1 ≤ along w n (x + a) ∧ along w n (x + a) ≤ n) :
    along v n (along w n (x + a) + b) = x ↔ a + b = 0 ∧ (v = true ∨ along w n (x + a) = x + a) := by
  have hwrap (y : Int) : wrap n y = if y < 1 then (n : Int) else if y > n then 1 else y := rfl
  generalize hy' : along w n (x + a) = y at hy ⊢
  have hy'' : y = x + a ∨ y = x + a + n ∨ y = x + a - n := by
    rw [← hy']
    unfold along wrap
    grind
  cases v with
  | false =>
    simp only [along, Bool.false_eq_true, if_false, false_or]
    omega
  | true =>
    simp only [along, if_true, hwrap, true_or, and_true]
    split
    · omega
    · split <;> omega

/-- Opposite directions cancel. -/
theorem isOpposite_iff (m d : Dir) : isOpposite m d = true ↔
    rowStep m + rowStep d = 0 ∧ colStep m + colStep d = 0 := by
  cases m <;> cases d <;> decide

/-- A move leads back to `p` when it is against the one that led away, unless that one
went round the edge and this one does not. -/
theorem goes_back (hp : OnBoard p) (hq : OnBoard (goes w m p)) :
    goes v d (goes w m p) = p ↔ isOpposite m d = true ∧ (v = true ∨ goes w m p = beside m p) := by
  have hrow (d : Dir) : -1 ≤ rowStep d ∧ rowStep d ≤ 1 := by cases d <;> decide
  have hcol (d : Dir) : -1 ≤ colStep d ∧ colStep d ≤ 1 := by cases d <;> decide
  obtain ⟨hr, hr', hc, hc'⟩ := hp
  obtain ⟨hqr, hqr', hqc, hqc'⟩ := hq
  have hback := along_back (v := v) (by decide) (hrow m) (hrow d) ⟨hr, hr'⟩ ⟨hqr, hqr'⟩
  have hback' := along_back (v := v) (by decide) (hcol m) (hcol d) ⟨hc, hc'⟩ ⟨hqc, hqc'⟩
  rw [isOpposite_iff, pos_eq_iff, pos_eq_iff (p := goes w m p)]
  exact (and_congr hback hback').trans (by simp only [goes, beside]; grind)

/-! ## the neck -/

/-- The direction keys between two steps. -/
def Game.turned (g : Game) (ds : List Dir) : Game := ds.foldl setDir g

/-- Turns keep the ring and the mode. -/
theorem turned_frame (g : Game) (ds : List Dir) :
    (g.turned ds).segment = g.segment ∧ (g.turned ds).wrapMode = g.wrapMode := by
  induction ds generalizing g with
  | nil => exact ⟨rfl, rfl⟩
  | cons d ds ih =>
    obtain ⟨hsegment, hwrap⟩ := ih (g.setDir d)
    have hframe : (g.setDir d).segment = g.segment ∧ (g.setDir d).wrapMode = g.wrapMode := by
      unfold setDir
      split <;> exact ⟨rfl, rfl⟩
    exact ⟨hsegment.trans hframe.1, hwrap.trans hframe.2⟩

namespace Track

variable {t t' : Track} {g₀ : Game} {prngSeed : Nat} {withObstacles : Bool} {tr : List GameOp}
  {op : GameOp}

/-- The last move led from the second cell of the trail to the first. -/
def Came (t : Track) : Prop :=
  ∀ q p rest, t.trail = q :: p :: rest → ∃ w, q = goes w t.moved p ∧
    (t.around = true ↔ q ≠ beside t.moved p)

/-- One operation. -/
theorem came_play (hinv : t.Inv) (h : t.Came) (hplay : t.play op = .ok t') : t'.Came := by
  cases op with
  | step dtMs =>
    obtain ⟨-, rfl⟩ := play_step hplay
    intro q p rest htrail
    obtain ⟨rfl, hold⟩ := List.cons.inj htrail
    have hhead : t.game.segment 0 = p := hinv.ring 0 p (by decide) (by rw [hold]; rfl)
    refine ⟨t.game.wrapMode, hhead ▸ next_eq t.game, ?_⟩
    rw [after, ahead_eq, hhead]
    exact decide_eq_true_iff
  | _ =>
    obtain rfl := Except.ok.inj hplay
    exact h

/-- **The neck is free** for the next move exactly when the direction in force is not
against the last move, or that move went round the edge and the next one does not. -/
theorem neck_free_iff (hrun : Reach Track.play Free (start g₀ prngSeed withObstacles) tr t)
    (hlen : 2 ≤ t.game.length) (ds : List Dir) :
    (t.game.turned ds).next ≠ (t.game.turned ds).segment 1 ↔
      isOpposite t.moved (t.game.turned ds).dir = false ∨ t.around = true ∧
        t.game.wrapMode = false := by
  have hinv := Inv.reach hrun
  have hcame : t.Came := by
    refine (hrun.inv (P := fun t => t.Inv ∧ t.Came) ⟨start_inv, ?_⟩ fun _ _ _ h _ hplay =>
      ⟨h.1.play hplay, came_play h.1 h.2 hplay⟩).2
    intro q p rest htrail
    simp [start] at htrail
  obtain ⟨hsegment, hwrap⟩ := turned_frame t.game ds
  rw [next_eq, hsegment, hwrap]
  have hlong := Nat.le_trans hlen hinv.length_le
  rcases htrail : t.trail with _ | ⟨q, _ | ⟨p, rest⟩⟩
  · simp [htrail] at hlong
  · simp [htrail] at hlong
  have hhead : t.game.segment 0 = q := hinv.ring 0 q (by decide) (by rw [htrail]; rfl)
  have hneck : t.game.segment 1 = p := hinv.ring 1 p (by decide) (by rw [htrail]; rfl)
  obtain ⟨w, hq, haround⟩ := hcame q p rest htrail
  have hp := hinv.onBoard p (by simp [htrail])
  have hboard := hinv.onBoard q (by simp [htrail])
  rw [hq] at hboard
  rw [hhead, hneck, haround, hq, Ne, goes_back hp hboard]
  grind

/-- A snake of two cells that is turned up. -/
theorem neck_free_up :
    ∃ t, Reach Track.play Free (start {} 2252 true) [.step 0] t ∧
      (t.game.turned [.up]).next ≠ (t.game.turned [.up]).segment 1 := by
  obtain ⟨t, hrun, hp⟩ := Reach.of_runsTo Track.play Free (start {} 2252 true) [.step 0]
    (fun t => 2 ≤ t.game.length ∧ isOpposite t.moved (t.game.turned [.up]).dir = false)
      (by decide +kernel)
  obtain ⟨hlen, hdir⟩ := of_decide_eq_true hp
  exact ⟨t, hrun, (neck_free_iff hrun hlen [.up]).mpr (.inl hdir)⟩

/-- The snake of two cells is turned onto its neck by two keys. -/
theorem neck_hit :
    ∃ t, Reach Track.play Free (start {} 2252 true) [.step 0] t ∧
      t.game.length = 2 ∧ (t.game.turned [.up, .left]).next =
        (t.game.turned [.up, .left]).segment 1 := by
  obtain ⟨t, hrun, hp⟩ := Reach.of_runsTo Track.play Free (start {} 2252 true) [.step 0]
    (fun t => t.game.length = 2 ∧ (t.game.turned [.up, .left]).next =
      (t.game.turned [.up, .left]).segment 1) (by decide +kernel)
  exact ⟨t, hrun, of_decide_eq_true hp⟩

end Track

end Doors.Snake
