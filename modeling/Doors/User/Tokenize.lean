import Doors.Lib.Words
import Doors.Lib.Text
import Doors.Libcxx.Numerals

/-!
# Doors.User.Tokenize

How the shell splits a command line (`user/shell/Tokenize.cc`).

A token is a view into the line, by its place there.  The static buffer for the views
has 32 cells, and `tokenize` writes one behind the tokens that it returns.

* `tokenizeLoop_eq` — the loop writes the words of the line from where it is, as far as
  there is room;
* `tokenize_words` — the tokens are the first 31 words of the line.
-/

namespace Doors.Shell

open Cells Words Text Doors.Libcxx

/-- A `string_view` into the line; the default one is `nullptr`. -/
structure View where
  data : Option Nat := none
  size : Nat := 0
  deriving DecidableEq, Repr

/-- What a view shows of the line. -/
def View.text (v : View) (line : List (BitVec 8)) : List (BitVec 8) :=
  match v.data with
  | some start => (line.drop start).take v.size
  | none => []

/-- How `tokenize` can go wrong. -/
inductive Fault where
  /-- a write outside `buf` -/
  | overrun
  /-- the loop does not end -/
  | endless
  deriving DecidableEq

/-- `buf.size()`. -/
def bufSize : Nat := 32

def isDelimiter (c : BitVec 8) : Bool := c = chr ' ' ∨ c = chr '\t' ∨ c = chr '\n'

/-- The loop of `tokenize`; the line is passed within its length. -/
def tokenizeLoop (line : List (BitVec 8)) : Nat → Nat → Nat → (Nat → View) →
    Except Fault (Nat × (Nat → View))
  | fuel, i, argc, buf =>
      if i < line.length then
        match fuel with
        | 0 => .error .endless
        | fuel + 1 =>
            let i := i + stretch isDelimiter line i
            if i ≥ line.length then .ok (argc, buf)
            else if argc ≥ bufSize - 1 then .ok (argc, buf)
            else do
              let start := i
              let i := i + stretch (fun c => !isDelimiter c) line i
              let buf ← write .overrun bufSize buf argc ⟨some start, i - start⟩
              tokenizeLoop line fuel i (argc + 1) buf
      else .ok (argc, buf)

/-- `tokenize`; `buf` is what an earlier call left. -/
def tokenize (line : List (BitVec 8)) (buf : Nat → View) : Except Fault (List View) := do
  let (argc, buf) ← tokenizeLoop line line.length 0 0 buf
  let buf ← write .overrun bufSize buf argc {}
  return toList buf argc

/-! ## tokens are words -/

/-- The view of a word. -/
def View.of (w : Nat × Nat) : View := ⟨some w.1, w.2⟩

variable {line : List (BitVec 8)} {buf : Nat → View} {i argc fuel : Nat}

/-- The loop stands at the start of the line, behind it, or at a delimiter. -/
def AtEdge (l : List (BitVec 8)) (i : Nat) : Prop :=
  i = 0 ∨ ∀ c, l[i]? = some c → isDelimiter c = true

/-- Behind the delimiters a word begins. -/
theorem AtEdge.starts (h : AtEdge line i) (hlt : i + stretch isDelimiter line i < line.length) :
    starts isDelimiter line (i + stretch isDelimiter line i) = true := by
  obtain ⟨d, hget⟩ : ∃ d, (line)[i + stretch isDelimiter line i]? = some d :=
    ⟨_, List.getElem?_eq_getElem hlt⟩
  refine starts_iff.mpr ⟨⟨_, hget, stretch_end hget⟩, fun k c hk hc => ?_⟩
  rcases Nat.eq_zero_or_pos (stretch isDelimiter line i) with hzero | hpos
  · rw [hzero, Nat.add_zero] at hk hget
    rcases h with rfl | hdelim
    · exact absurd hk (Nat.succ_ne_zero k)
    · have hend := stretch_end (p := isDelimiter) (l := line) (i := i) (by rw [hzero]; exact hget)
      exact absurd (hdelim _ hget) (by simp [hend])
  · obtain ⟨d, hd, hdelim⟩ := stretch_mem (p := isDelimiter) (l := line) (i := i)
      (k := stretch isDelimiter line i - 1) (by omega)
    rw [show i + (stretch isDelimiter line i - 1) = k by omega, hc] at hd
    exact Option.some.inj hd ▸ hdelim

/-- Behind a word there is a delimiter. -/
theorem atEdge_word (i : Nat) : AtEdge line (i + stretch (fun c => !isDelimiter c) line i) :=
  .inr fun c hc => by simpa using stretch_end hc

/-- **The loop** writes the words from `i` on, up to the last cell but one. -/
theorem tokenizeLoop_eq (hedge : AtEdge line i) (hargc : argc ≤ bufSize - 1)
    (hfuel : line.length - i ≤ fuel) :
    tokenizeLoop line fuel i argc buf =
      .ok (argc + (((wordsFrom isDelimiter line i).take (bufSize - 1 - argc)).map View.of).length,
        put buf argc (((wordsFrom isDelimiter line i).take (bufSize - 1 - argc)).map View.of)) := by
  induction fuel generalizing i argc buf with
  | zero =>
    unfold tokenizeLoop
    rw [if_neg (by omega), wordsFrom_end (by omega), List.take_nil, List.map_nil, put_nil]
    rfl
  | succ fuel ih =>
    unfold tokenizeLoop
    by_cases hlt : i < line.length
    · rw [if_pos hlt, wordsFrom_skip]
      dsimp only
      by_cases hend : i + stretch isDelimiter line i ≥ line.length
      · rw [if_pos hend, wordsFrom_end hend, List.take_nil, List.map_nil, put_nil]
        rfl
      · rw [if_neg hend]
        by_cases hfull : argc ≥ bufSize - 1
        · rw [if_pos hfull, Nat.sub_eq_zero_of_le hfull, List.take_zero, List.map_nil, put_nil]
          rfl
        · have hstarts := hedge.starts (Nat.lt_of_not_le hend)
          have hpos := (isWord_of_starts hstarts).pos
          have hin : argc < bufSize := by omega
          rw [if_neg hfull, write_of_lt hin]
          change tokenizeLoop .. = _
          rw [ih (atEdge_word _) (by omega) (by omega), wordsFrom_word hstarts,
            Nat.add_sub_cancel_left,
            show bufSize - 1 - argc = bufSize - 1 - (argc + 1) + 1 by
              omega, List.take_succ_cons, List.map_cons, List.length_cons,
            put_cons]
          exact congrArg Except.ok (Prod.ext (by dsimp only; omega) rfl)
    · rw [if_neg hlt, wordsFrom_end (by omega), List.take_nil, List.map_nil, put_nil]
      rfl

/-- `tokenize` ends, within its buffer, with the first words of the line. -/
theorem tokenize_eq (line : List (BitVec 8)) (buf : Nat → View) :
    tokenize line buf = .ok (((words isDelimiter line).take (bufSize - 1)).map View.of) := by
  have hlen : (((words isDelimiter line).take (bufSize - 1)).map View.of).length < bufSize := by
    rw [List.length_map]
    exact Nat.lt_of_le_of_lt (List.length_take_le _ _) (by decide)
  unfold tokenize
  rw [tokenizeLoop_eq (.inl rfl) (Nat.zero_le _) (by omega), Nat.zero_add, Nat.sub_zero]
  dsimp only [bind, Except.bind]
  rw [← words, write_of_lt hlen]
  refine congrArg Except.ok (List.ext_getElem (by rw [length_toList]) fun k hk hk' => ?_)
  have hput := put_at buf 0 hk'
  rw [Nat.zero_add] at hput
  rw [getElem_toList, set_of_ne _ _ (Nat.ne_of_lt hk'), hput]

/-- **Tokenizing splits at delimiters**: the tokens are views of the first 31 of the maximal runs of
other
characters, in order. -/
theorem tokenize_words (line : List (BitVec 8)) (buf : Nat → View) :
    ∃ runs : List (Nat × Nat), (∀ i n, (i, n) ∈ runs ↔ IsWord isDelimiter line i n) ∧
      (runs.Pairwise fun r s => r.1 < s.1) ∧
      tokenize line buf = .ok ((runs.take 31).map fun r => ⟨some r.1, r.2⟩) :=
  ⟨words isDelimiter line, fun _ _ => mem_words, words_sorted, tokenize_eq line buf⟩

end Doors.Shell
