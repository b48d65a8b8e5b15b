import Mathlib.Tactic.Common

/-!
# Doors.Lib.Run

Labelled runs of a fallible step function, independent of what the states
and the labels are.

`step : σ → ι → Except ε σ` takes one labelled step or stops with an error.
`Reach step C s₀ tr s` says that `s` is reached from `s₀` by the labels `tr`,
each of them taken in a state where the step condition `C` holds.  The rules
used by the rest of the development are

* `Reach.inv` — what holds initially and is kept by every conditioned step
  holds in every reached state;
* `Reach.of_runsTo` and `Reach.of_follow` — a computed run is a run, which is
  how concrete traces are produced;
* `bind_eq_ok` — a successful bind splits into two successful halves, so that
  proofs about monadic code peel it apart instead of unfolding it.
-/

namespace Run

variable {σ ε ι α β : Type}

/-! ## binds in `Except` -/

/-- A bind succeeds exactly when both halves do. -/
theorem bind_eq_ok {x : Except ε α} {f : α → Except ε β} {b : β} :
    (x >>= f) = .ok b ↔ ∃ a, x = .ok a ∧ f a = .ok b := by
  cases x with
  | error e => simp [bind, Except.bind]
  | ok a => simp [bind, Except.bind]

/-- A bind fails exactly when one of its halves does. -/
theorem bind_eq_error {x : Except ε α} {f : α → Except ε β} {e : ε} :
    (x >>= f) = .error e ↔ x = .error e ∨ ∃ a, x = .ok a ∧ f a = .error e := by
  cases x with
  | error e => simp [bind, Except.bind]
  | ok a => simp [bind, Except.bind]

/-! ## runs -/

/-- `s` is reached from `s₀` by the labels `tr`, every label taken in a state
that meets the step condition `C`. -/
inductive Reach (step : σ → ι → Except ε σ) (C : σ → ι → Prop) (s₀ : σ) : List ι → σ → Prop where
  | nil : Reach step C s₀ [] s₀
  | snoc {tr : List ι} {s s' : σ} {i : ι} (run : Reach step C s₀ tr s) (cond : C s i)
      (next : step s i = .ok s') : Reach step C s₀ (tr ++ [i]) s'

/-- The step condition of unrestricted runs. -/
def Free : σ → ι → Prop := fun _ _ => True

instance (s : σ) (i : ι) : Decidable (Free s i) := inferInstanceAs (Decidable True)

variable {step : σ → ι → Except ε σ} {C : σ → ι → Prop} {s₀ s : σ} {tr : List ι}

/-- **Invariant rule**: a property of the initial state that every
conditioned step keeps holds in every reached state. -/
theorem Reach.inv {P : σ → Prop} (init : P s₀)
    (keep : ∀ s i s', P s → C s i → step s i = .ok s' → P s')
    (h : Reach step C s₀ tr s) : P s := by
  induction h with
  | nil => exact init
  | snoc _ cond next ih => exact keep _ _ _ ih cond next

/-- A run may be extended at its start. -/
theorem Reach.head {i : ι} {s₁ : σ} (cond : C s₀ i) (next : step s₀ i = .ok s₁)
    (h : Reach step C s₁ tr s) : Reach step C s₀ (i :: tr) s := by
  induction h with
  | nil => exact .snoc .nil cond next
  | snoc _ cond' next' ih => exact .snoc ih cond' next'

/-- Run the labels `tr` and test the final state, checking the step condition
on the way. -/
def runsTo (step : σ → ι → Except ε σ) (C : σ → ι → Prop) [∀ s i, Decidable (C s i)] :
    List ι → (σ → Bool) → σ → Bool
  | [], p, s => p s
  | i :: tr, p, s =>
      decide (C s i) &&
        match step s i with
        | .ok s => runsTo step C tr p s
        | .error _ => false

/-- A trace that evaluates to a state with property `p` is a run to such a
state. -/
theorem Reach.of_runsTo (step : σ → ι → Except ε σ) (C : σ → ι → Prop) [∀ s i, Decidable (C s i)]
    (s₀ : σ) (tr : List ι) (p : σ → Bool) (h : runsTo step C tr p s₀ = true) :
    ∃ s, Reach step C s₀ tr s ∧ p s = true := by
  induction tr generalizing s₀ with
  | nil => exact ⟨s₀, .nil, h⟩
  | cons i tr ih =>
      simp only [runsTo, Bool.and_eq_true, decide_eq_true_eq] at h
      obtain ⟨hc, h⟩ := h
      split at h
      · next s₁ hs =>
          obtain ⟨s, hr, hp⟩ := ih s₁ h
          exact ⟨s, hr.head hc hs, hp⟩
      · contradiction

/-- The state after a step; a step that fails changes nothing. -/
def follow (step : σ → ι → Except ε σ) (s : σ) (i : ι) : σ :=
  match step s i with
  | .ok s => s
  | .error _ => s

theorem step_follow {i : ι} (h : (step s i).isOk = true) : step s i = .ok (follow step s i) := by
  unfold follow
  cases hs : step s i with
  | ok s' => rfl
  | error e =>
      rw [hs] at h
      contradiction

/-- The state that a computed run ends in. -/
theorem Reach.of_follow [∀ s i, Decidable (C s i)]
    (h : runsTo step C tr (fun _ => true) s₀ = true) :
    Reach step C s₀ tr (tr.foldl (follow step) s₀) := by
  induction tr generalizing s₀ with
  | nil => exact .nil
  | cons i tr ih =>
      simp only [runsTo, Bool.and_eq_true, decide_eq_true_eq] at h
      obtain ⟨hc, h⟩ := h
      split at h
      · next s₁ hs =>
          have hfollow : follow step s₀ i = s₁ := by
            unfold follow
            rw [hs]
          rw [List.foldl_cons, hfollow]
          exact (ih h).head hc hs
      · contradiction

end Run
