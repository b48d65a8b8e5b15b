import Doors.Lib.Post

/-!
# Doors.Lib.Scan

Loops that look for an index.

`up p n i` tries the `n` indices from `i` on, `down p n` those below `n`, the last one
first, and `downFrom p i` is the same loop with its test for 0 at the end.  The
condition `p` may end with an error, as one that reads through a pointer does.
-/

namespace Scan

open Run

variable {ε : Type}

/-- `for (k = i; k < i + n; ++k) if (p(k)) return k;` -/
def up (p : Nat → Except ε Bool) : Nat → Nat → Except ε (Option Nat)
  | 0, _ => .ok none
  | n + 1, i => do
      let hit ← p i
      if hit then return some i else up p n (i + 1)

/-- `k = n; while (k > 0) { --k; if (p(k)) return k; }` -/
def down (p : Nat → Except ε Bool) : Nat → Except ε (Option Nat)
  | 0 => .ok none
  | i + 1 => do
      let hit ← p i
      if hit then return some i else down p i

/-- `for (k = i;; --k) { if (p(k)) return k; if (k == 0) break; }` -/
def downFrom (p : Nat → Except ε Bool) : Nat → Except ε (Option Nat)
  | 0 => do
      let hit ← p 0
      if hit then return some 0 else return none
  | i + 1 => do
      let hit ← p (i + 1)
      if hit then return some (i + 1) else downFrom p i

variable {ok : ε → Prop} {p : Nat → Except ε Bool} {n i : Nat}

/-- The two loops that go down. -/
theorem downFrom_eq : downFrom p i = down p (i + 1) := by
  induction i with
  | zero => rfl
  | succ i ih =>
    unfold downFrom
    rw [ih]
    rfl

/-- The first index is tried first. -/
theorem up_hit (h : p i = .ok true) : up p (n + 1) i = .ok (some i) := by
  unfold up
  rw [h]
  rfl

theorem downFrom_hit (h : p i = .ok true) : downFrom p i = .ok (some i) := by
  rw [downFrom_eq]
  unfold down
  rw [h]
  rfl

/-- An index that is found is one of those tried. -/
theorem up_post (hp : ∀ k, i ≤ k → k < i + n → Post ok (p k) fun _ => True) :
    Post ok (up p n i) fun o => ∀ k, o = some k → k < i + n := by
  induction n generalizing i with
  | zero => exact fun k hk => nomatch hk
  | succ n ih =>
    refine Post.bind (hp i (Nat.le_refl _) (by omega)) fun hit _ => ?_
    cases hit with
    | true =>
      intro k hk
      cases hk
      omega
    | false =>
      refine Post.mono (ih fun k hle hlt => hp k (by omega) (by omega)) fun o ho k hk => ?_
      have := ho k hk
      omega

theorem down_post (hp : ∀ k, k < n → Post ok (p k) fun _ => True) :
    Post ok (down p n) fun o => ∀ k, o = some k → k < n := by
  induction n with
  | zero => exact fun k hk => nomatch hk
  | succ n ih =>
    refine Post.bind (hp n (Nat.lt_succ_self n)) fun hit _ => ?_
    cases hit with
    | true =>
      intro k hk
      cases hk
      omega
    | false =>
      refine Post.mono (ih fun k hlt => hp k (by omega)) fun o ho k hk => ?_
      have := ho k hk
      omega

end Scan
