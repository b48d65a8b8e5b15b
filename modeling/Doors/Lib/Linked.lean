import Mathlib.Tactic.Common
import Mathlib.Data.List.Basic

/-!
# Doors.Lib.Linked

Singly linked lists of addresses, in any memory.

`Linked next p l` says that the nodes `l` are linked from the pointer `p` on; 0
ends the list.  `walk` is a loop over such a list that a step may leave early:

* `walk_eq` — over a linked list it is a fold over its nodes (`foldUntil`), and
  any fuel above their number is enough;
* `Linked.splice` — the nodes behind a prefix are replaced by writing one pointer;
* `Linked.unique`, `Linked.nodup` — the memory says which nodes are linked, and since the
  list ends, none is twice in it;
* `not_linked_of_closed` — nodes that lead to each other only are no list.
-/

namespace Chain

variable {α : Type}

/-- The nodes `l` are linked from `p` on. -/
def Linked (next : Nat → Nat) : Nat → List Nat → Prop
  | p, [] => p = 0
  | p, a :: l => p = a ∧ a ≠ 0 ∧ Linked next (next a) l

/-- A loop over a linked list; a step that returns `true` leaves it.  `none` when
the fuel does not suffice. -/
def walk (next : Nat → Nat) (step : α → Nat → α × Bool) : Nat → Nat → α → Option α
  | 0, _, _ => none
  | k + 1, p, acc =>
      if p = 0 then some acc
      else
        match step acc p with
        | (acc, true) => some acc
        | (acc, false) => walk next step k (next p) acc

/-- The same loop over a list. -/
def foldUntil (step : α → Nat → α × Bool) : List Nat → α → α
  | [], acc => acc
  | a :: l, acc =>
      match step acc a with
      | (acc, true) => acc
      | (acc, false) => foldUntil step l acc

variable {next next' : Nat → Nat} {p x : Nat} {l pre rest new : List Nat}

/-- With enough fuel the loop is a fold over the list. -/
theorem walk_eq {step : α → Nat → α × Bool} {k : Nat} (acc : α) (h : Linked next p l)
    (hk : l.length < k) :
    walk next step k p acc = some (foldUntil step l acc) := by
  induction l generalizing p k acc with
  | nil =>
      obtain ⟨k, rfl⟩ : ∃ j, k = j + 1 := ⟨k - 1, by simp only [List.length_nil] at hk; omega⟩
      obtain rfl : p = 0 := h
      simp [walk, foldUntil]
  | cons a l ih =>
      obtain ⟨k, rfl⟩ : ∃ j, k = j + 1 := ⟨k - 1, by omega⟩
      obtain ⟨rfl, hne, h⟩ := h
      rw [walk, if_neg hne, foldUntil]
      split
      · rfl
      · exact ih _ h (by simpa using hk)

/-- No node is the null pointer. -/
theorem Linked.ne_zero (h : Linked next p l) : ∀ a ∈ l, a ≠ 0 := by
  induction l generalizing p with
  | nil => simp
  | cons a l ih => exact List.forall_mem_cons.mpr ⟨h.2.1, ih h.2.2⟩

/-- The first node. -/
theorem Linked.head (h : Linked next p l) : p = l.headD 0 := by
  cases l with
  | nil => exact h
  | cons a l => exact h.1

/-- There is one list. -/
theorem Linked.unique {l' : List Nat} (h : Linked next p l) (h' : Linked next p l') : l = l' := by
  induction l generalizing p l' with
  | nil =>
      cases l' with
      | nil => rfl
      | cons a l' => exact absurd (h'.1 ▸ h : a = 0) h'.2.1
  | cons a l ih =>
      cases l' with
      | nil => exact absurd (h.1 ▸ h' : a = 0) h.2.1
      | cons b l' =>
          obtain ⟨rfl, _, h⟩ := h
          obtain ⟨rfl, _, h'⟩ := h'
          rw [ih h h']

/-- A pointer into the list is null or a node. -/
theorem Linked.head_mem (h : Linked next p l) : p = 0 ∨ p ∈ l := by
  cases l with
  | nil => exact .inl h
  | cons a l => exact .inr (by simp [h.1])

/-- Links that stay. -/
theorem Linked.congr (h : Linked next p l) (hsame : ∀ a ∈ l, next' a = next a) :
    Linked next' p l := by
  induction l generalizing p with
  | nil => exact h
  | cons a l ih =>
      obtain ⟨rfl, hne, h⟩ := h
      obtain ⟨ha, hl⟩ := List.forall_mem_cons.mp hsame
      exact ⟨rfl, hne, ha ▸ ih h hl⟩

/-- The pointer to the rest of the list. -/
theorem Linked.drop (h : Linked next p (pre ++ x :: rest)) : Linked next (next x) rest := by
  induction pre generalizing p with
  | nil => exact h.2.2
  | cons a pre ih => exact ih h.2.2

/-- A node that came twice would be followed by itself forever. -/
theorem Linked.nodup (h : Linked next p l) : l.Nodup := by
  induction l generalizing p with
  | nil => exact List.nodup_nil
  | cons a l ih =>
      refine List.nodup_cons.mpr ⟨fun hmem => ?_, ih h.2.2⟩
      obtain ⟨pre, post, rfl⟩ := List.append_of_mem hmem
      have hlen := congrArg List.length (h.2.2.unique h.2.2.drop)
      simp only [List.length_append, List.length_cons] at hlen
      omega

/-- **A list that never ends**: nodes that lead to each other only. -/
theorem not_linked_of_closed {S : Set Nat} (hp : p ∈ S) (hS : ∀ a ∈ S, a ≠ 0 ∧ next a ∈ S) :
    ¬ Linked next p l := by
  induction l generalizing p with
  | nil => exact fun h => (hS p hp).1 h
  | cons a l ih =>
      rintro ⟨rfl, -, h⟩
      exact ih (hS p hp).2 h

/-- **Splicing**: behind the prefix `pre` the list goes on with `new`, once its
last node, or the list head, points there. -/
theorem Linked.splice (h : Linked next p (pre ++ rest)) (hnew : Linked next' x new)
    (hsame : ∀ a ∈ pre.dropLast, next' a = next a)
    (hlast : ∀ a, pre.getLast? = some a → next' a = x) :
    Linked next' (if pre = [] then x else p) (pre ++ new) := by
  induction pre generalizing p with
  | nil => exact hnew
  | cons a pre ih =>
      obtain ⟨rfl, hne, h⟩ := h
      refine ⟨by simp, hne, ?_⟩
      cases pre with
      | nil =>
          rw [hlast p rfl]
          exact hnew
      | cons b pre =>
          rw [hsame p (by simp)]
          have hrest := ih h (fun c hc => hsame c (by simp [hc])) fun c hc =>
            hlast c (by simpa using hc)
          rwa [if_neg (by simp)] at hrest

end Chain
