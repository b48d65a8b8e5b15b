import Doors.Lib.Words
import Doors.Libcxx.Numerals

/-!
# Doors.TestFlag

The test flag on the command line of the kernel (`kernel/Kernel.cc`), which is looked
for with `strstr` (`libc++/string/strstr.cc`).

* `strstr_some`, `strstr_none` — `strstr` finds the first occurrence;
* `hasTestFlag_iff` — the flag is recognised if that occurrence is a word;
* `test_flag_iff` — which is to say whether it is one of the words, unless a longer
  word before it contains it.
-/

namespace Doors.TestFlag

open Words Doors.Libcxx

/-- A command line: a C string, without its terminator. -/
structure Cmdline where
  text : List (BitVec 8)
  nul : ∀ c ∈ text, c ≠ 0

/-- The inner loop of `strstr`: whether it comes to the end of `substr`. -/
def agrees : List (BitVec 8) → List (BitVec 8) → Bool
  | _, [] => true
  | [], _ :: _ => false
  | h :: str, n :: substr => h = n && agrees str substr

/-- The outer loop, with the place of `str`. -/
def strstrLoop (substr : List (BitVec 8)) : List (BitVec 8) → Nat → Option Nat
  | [], _ => none
  | c :: str, i => if agrees (c :: str) substr then some i else strstrLoop substr str (i + 1)

/-- `strstr`. -/
def strstr (str substr : List (BitVec 8)) : Option Nat :=
  if substr = [] then some 0 else strstrLoop substr str 0

/-- `"--test"`. -/
def testFlag : List (BitVec 8) := ['-', '-', 't', 'e', 's', 't'].map chr

/-- `cmdline[k]`, with the terminator behind the text. -/
def charAt (cmdline : List (BitVec 8)) (k : Nat) : BitVec 8 := cmdline[k]?.getD 0

/-- `hasTestFlag`. -/
def hasTestFlag (cmdline : List (BitVec 8)) : Bool :=
  match strstr cmdline testFlag with
  | some p =>
      (p = 0 || charAt cmdline (p - 1) = chr ' ') &&
        (charAt cmdline (p + 6) = 0 || charAt cmdline (p + 6) = chr ' ')
  | none => false

/-! ## occurrences -/

/-- `s` stands at place `p` of `l`. -/
def OccursAt (s l : List (BitVec 8)) (p : Nat) : Prop := s <+: l.drop p

/-- The first place of `s` in `l`. -/
def FirstAt (s l : List (BitVec 8)) (p : Nat) : Prop :=
  OccursAt s l p ∧ ∀ q, q < p → ¬ OccursAt s l q

variable {s l : List (BitVec 8)} {i p q : Nat}

/-- The inner loop looks for a prefix. -/
theorem agrees_iff : agrees l s = true ↔ s <+: l := by
  induction s generalizing l with
  | nil => exact iff_of_true (by cases l <;> rfl) List.nil_prefix
  | cons n s ih =>
    cases l with
    | nil => exact iff_of_false Bool.false_ne_true (by simp)
    | cons h l =>
      rw [agrees, Bool.and_eq_true, decide_eq_true_iff, ih, List.cons_prefix_cons]
      exact and_congr_left fun _ => eq_comm

/-- A text that is not empty occurs inside. -/
theorem OccursAt.lt (h : OccursAt s l p) (hs : s ≠ []) : p < l.length := by
  have hle := h.length_le
  have hpos := List.length_pos_iff.mpr hs
  rw [List.length_drop] at hle
  omega

/-- The loop finds the first place. -/
theorem strstrLoop_some (h : strstrLoop s l i = some p) : ∃ k, p = i + k ∧ FirstAt s l k := by
  induction l generalizing i with
  | nil => contradiction
  | cons c l ih =>
    unfold strstrLoop at h
    split at h
    · next hagrees => exact ⟨0, (Option.some.inj h).symm, agrees_iff.mp hagrees,
        fun q hq => absurd hq (Nat.not_lt_zero q)⟩
    · next hagrees =>
      obtain ⟨k, rfl, hoccurs, hfirst⟩ := ih h
      refine ⟨k + 1, by omega, hoccurs, fun q hq => ?_⟩
      cases q with
      | zero => exact fun hocc => hagrees (agrees_iff.mpr hocc)
      | succ q => exact hfirst q (Nat.lt_of_succ_lt_succ hq)

/-- The loop misses no place. -/
theorem strstrLoop_none (hs : s ≠ []) (h : strstrLoop s l i = none) : ¬ OccursAt s l q := by
  induction l generalizing i q with
  | nil => exact fun hocc => absurd (hocc.lt hs) (Nat.not_lt_zero q)
  | cons c l ih =>
    unfold strstrLoop at h
    split at h
    · contradiction
    · next hagrees =>
      cases q with
      | zero => exact fun hocc => hagrees (agrees_iff.mpr hocc)
      | succ q => exact ih h

/-- **`strstr`** finds the first occurrence of a text. -/
theorem strstr_some (hs : s ≠ []) (h : strstr l s = some p) : FirstAt s l p := by
  unfold strstr at h
  rw [if_neg hs] at h
  obtain ⟨k, hk, hfirst⟩ := strstrLoop_some h
  rw [hk, Nat.zero_add]
  exact hfirst

/-- `strstr` misses no place. -/
theorem strstr_none (hs : s ≠ []) (h : strstr l s = none) : ¬ OccursAt s l q := by
  unfold strstr at h
  rw [if_neg hs] at h
  exact strstrLoop_none hs h

/-- There is one first place. -/
theorem FirstAt.unique (hp : FirstAt s l p) (hq : FirstAt s l q) : p = q := by
  rcases Nat.lt_trichotomy p q with hlt | heq | hgt
  · exact absurd hp.1 (hq.2 p hlt)
  · exact heq
  · exact absurd hq.1 (hp.2 q hgt)

/-! ## words -/

/-- The words of a command line are separated by spaces. -/
def isSpace (c : BitVec 8) : Bool := c = chr ' '

/-- **The flag is a word**, at place `p`. -/
def FlagAt (cmdline : Cmdline) (p : Nat) : Prop :=
  IsWord isSpace cmdline.text p testFlag.length ∧ OccursAt testFlag cmdline.text p

/-- The flag is not the empty text. -/
theorem testFlag_ne_nil : testFlag ≠ [] := by decide

/-- What is looked at around an occurrence. -/
theorem flagAt_iff {cmdline : Cmdline} (h : OccursAt testFlag cmdline.text p) :
    FlagAt cmdline p ↔ (p = 0 ∨ charAt cmdline.text (p - 1) = chr ' ') ∧
      (charAt cmdline.text (p + 6) = 0 ∨ charAt cmdline.text (p + 6) = chr ' ') := by
  have hlt := h.lt testFlag_ne_nil
  constructor
  · rintro ⟨hword, -⟩
    constructor
    · rcases Nat.eq_zero_or_pos p with hzero | hpos
      · exact .inl hzero
      · have hget := List.getElem?_eq_getElem (l := cmdline.text) (i := p - 1) (by omega)
        have hsep := hword.left (p - 1) _ (by omega) hget
        rw [isSpace, decide_eq_true_iff] at hsep
        exact .inr (by rw [charAt, hget, ← hsep]; rfl)
    · unfold charAt
      cases hget : cmdline.text[p + 6]? with
      | none => exact .inl rfl
      | some c => exact .inr (of_decide_eq_true (hword.right c hget))
  · rintro ⟨hleft, hright⟩
    refine ⟨⟨by decide, fun k hk => ?_, fun k c hk hc => ?_, fun c hc => ?_⟩, h⟩
    · obtain ⟨t, ht⟩ := h
      have hget : cmdline.text[p + k]? = testFlag[k]? := by
        rw [← List.getElem?_drop, ← ht, List.getElem?_append_left hk]
      have hflag : ∀ k, k < testFlag.length →
        ∃ c, testFlag[k]? = some c ∧ isSpace c = false := by decide
      rw [hget]
      exact hflag k hk
    · subst hk
      have hspace := hleft.resolve_left (Nat.succ_ne_zero k)
      rw [Nat.add_sub_cancel, charAt, hc] at hspace
      exact decide_eq_true hspace
    · have hchar : charAt cmdline.text (p + 6) = c := by
        rw [charAt, show p + 6 = p + testFlag.length from rfl, hc]
        rfl
      rw [hchar] at hright
      exact decide_eq_true (hright.resolve_left (cmdline.nul c (List.mem_of_getElem? hc)))

/-- **The flag is recognised** where it occurs first, if it is a word there. -/
theorem hasTestFlag_iff {cmdline : Cmdline} :
    hasTestFlag cmdline.text = true ↔ ∃ p, FirstAt testFlag cmdline.text p ∧ FlagAt cmdline p := by
  unfold hasTestFlag
  cases hfound : strstr cmdline.text testFlag with
  | none =>
    refine iff_of_false Bool.false_ne_true ?_
    rintro ⟨p, hfirst, -⟩
    exact strstr_none testFlag_ne_nil hfound hfirst.1
  | some p =>
    have hfirst := strstr_some testFlag_ne_nil hfound
    have hflag := flagAt_iff hfirst.1
    simp only [Bool.and_eq_true, Bool.or_eq_true, decide_eq_true_eq]
    rw [← hflag]
    refine ⟨fun h => ⟨p, hfirst, h⟩, ?_⟩
    rintro ⟨q, hq, h⟩
    rw [hfirst.unique hq]
    exact h

/-- **The test flag** is recognised as one of the words exactly when none of them is the flag, or
the text of the flag
first occurs as a word. -/
theorem test_flag_iff (cmdline : Cmdline) :
    (hasTestFlag cmdline.text = true ↔ ∃ i, FlagAt cmdline i) ↔
      ((∃ i, FlagAt cmdline i) → ∀ p, FirstAt testFlag cmdline.text p → FlagAt cmdline p) := by
  constructor
  · intro hiff hflag p hfirst
    obtain ⟨q, hq, h⟩ := hasTestFlag_iff.mp (hiff.mpr hflag)
    rw [hfirst.unique hq]
    exact h
  · intro hcond
    refine ⟨fun h => ?_, fun hflag => ?_⟩
    · obtain ⟨p, -, h⟩ := hasTestFlag_iff.mp h
      exact ⟨p, h⟩
    · obtain ⟨i, hi⟩ := hflag
      -- the flag occurs, and so it occurs first somewhere
      cases hfound : strstr cmdline.text testFlag with
      | none => exact absurd hi.2 (strstr_none testFlag_ne_nil hfound)
      | some p =>
        have hfirst := strstr_some testFlag_ne_nil hfound
        exact hasTestFlag_iff.mpr ⟨p, hfirst, hcond ⟨i, hi⟩ p hfirst⟩

/-- `x--test --test`. -/
def hiddenFlag : Cmdline where
  text := ['x', '-', '-', 't', 'e', 's', 't', ' ', '-', '-', 't', 'e', 's', 't'].map chr
  nul := by decide +kernel

/-- **A flag that is not recognised**: an earlier word ends with its text. -/
theorem test_flag_hidden : hasTestFlag hiddenFlag.text = false ∧ FlagAt hiddenFlag 8 := by
  have hoccurs : OccursAt testFlag hiddenFlag.text 8 := ⟨[], by decide⟩
  exact ⟨by decide +kernel, (flagAt_iff hoccurs).mpr (by decide +kernel)⟩

end Doors.TestFlag
