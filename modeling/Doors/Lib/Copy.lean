import Mathlib.Tactic.Common
import Mathlib.Logic.Function.Basic

/-!
# Doors.Lib.Copy

Copies within one memory, cell by cell.

A memory maps addresses to values.  The cells of the destination and of the source are
named by their numbers, through `dst` and `src`, so that an address may be a number, a
machine word or anything else that can be compared.

* `up_copied` — from the first cell on, a copy is right when no cell is written before it
  is read;
* `down_copied` — from the last cell on, it is under the same condition for that order.
-/

namespace Copy

variable {α β : Type}

/-- Memory `mem'` is `mem` with the cells `lo .. hi - 1` of the source copied to those of
the destination. -/
structure Copied (dst src : Nat → α) (lo hi : Nat) (mem mem' : α → β) : Prop where
  inside : ∀ i, lo ≤ i → i < hi → mem' (dst i) = mem (src i)
  outside : ∀ x, (∀ i, lo ≤ i → i < hi → x ≠ dst i) → mem' x = mem x

/-- No two of the first `n` cells have one address. -/
def Apart (dst : Nat → α) (n : Nat) : Prop := ∀ i j, i < j → j < n → dst i ≠ dst j

variable {dst src : Nat → α} {mem mem₁ : α → β} {n i lo hi lo' hi' : Nat}

theorem Copied.nil : Copied dst src i i mem mem where
  inside := fun _ hlo hhi => absurd hhi (Nat.not_lt.mpr hlo)
  outside := fun _ _ => rfl

section

variable [DecidableEq α]

/-- `n` rounds of `dst[i] = src[i]; i++`. -/
def up (dst src : Nat → α) : Nat → Nat → (α → β) → α → β
  | 0, _, mem => mem
  | n + 1, i, mem => up dst src n (i + 1) (Function.update mem (dst i) (mem (src i)))

/-- `dst[i - 1] = src[i - 1]`, for `i` from `n` down to 1. -/
def down (dst src : Nat → α) : Nat → (α → β) → α → β
  | 0, mem => mem
  | i + 1, mem => down dst src i (Function.update mem (dst i) (mem (src i)))

/-- Cell `i` first, then the cells `lo .. hi - 1`.  None of them has the address of cell
`i`, and none is read there. -/
theorem Copied.after (h : Copied dst src lo hi (Function.update mem (dst i) (mem (src i))) mem₁)
    (hcells : ∀ j, lo' ≤ j ∧ j < hi' ↔ j = i ∨ lo ≤ j ∧ j < hi)
    (hdst : ∀ j, lo ≤ j → j < hi → dst i ≠ dst j)
    (hsrc : ∀ j, lo ≤ j → j < hi → dst i ≠ src j) : Copied dst src lo' hi' mem mem₁ where
  inside := fun j hlo hhi => by
    rcases (hcells j).mp ⟨hlo, hhi⟩ with rfl | ⟨hlo, hhi⟩
    · rw [h.outside (dst j) hdst, Function.update_self]
    · rw [h.inside j hlo hhi, Function.update_of_ne (hsrc j hlo hhi).symm]
  outside := fun x hx => by
    obtain ⟨hlo, hhi⟩ := (hcells i).mpr (.inl rfl)
    rw [h.outside x fun j hl hh => ?_, Function.update_of_ne (hx i hlo hhi)]
    obtain ⟨hl, hh⟩ := (hcells j).mpr (.inr ⟨hl, hh⟩)
    exact hx j hl hh

/-- **Upwards**: no cell is written before it is read. -/
theorem up_copied (hdst : Apart dst (i + n)) (hsrc : ∀ j k, j < k → k < i + n → dst j ≠ src k)
    (mem : α → β) :
    Copied dst src i (i + n) mem (up dst src n i mem) := by
  induction n generalizing i mem with
  | zero => exact Copied.nil
  | succ n ih =>
      rw [show i + (n + 1) = i + 1 + n by omega] at hdst hsrc ⊢
      exact (ih hdst hsrc _).after (fun j => by omega) (fun j => hdst i j) fun j => hsrc i j

/-- **Downwards**: no cell is written before it is read. -/
theorem down_copied (hdst : Apart dst n) (hsrc : ∀ j k, j < k → k < n → dst k ≠ src j)
    (mem : α → β) :
    Copied dst src 0 n mem (down dst src n mem) := by
  induction n generalizing mem with
  | zero => exact Copied.nil
  | succ n ih =>
      have hrest := ih (fun j k hjk hk => hdst j k hjk (Nat.lt_succ_of_lt hk))
        (fun j k hjk hk => hsrc j k hjk (Nat.lt_succ_of_lt hk))
        (Function.update mem (dst n) (mem (src n)))
      exact hrest.after (fun j => by omega) (fun j _ hj => (hdst j n hj (Nat.lt_succ_self n)).symm)
        fun j _ hj => hsrc j n hj (Nat.lt_succ_self n)

end

end Copy
