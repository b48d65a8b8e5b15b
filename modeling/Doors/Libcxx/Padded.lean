import Doors.Libcxx.Grammar
import Doors.Libcxx.Pieces

/-!
# Doors.Libcxx.Padded

Integers printed with a width, and read back.

Padding with spaces, on either side, is passed by the parser.  Padding with zeros is put
before the sign, where the second scan of `strtoll` does not find it.

* `snprintf_padded` — the text of `%wd`, `%-wd` and `%0wd`;
* `padded_reads_back_iff` — when it is read back as the number.
-/

namespace Doors.Libcxx

open Run Cells Text

/-- The forms of a directive with a width. -/
inductive Form where
  | right
  | left
  | zero
  deriving DecidableEq

namespace Form

def flag : Form → List (BitVec 8)
  | right => []
  | left => [chr '-']
  | zero => [chr '0']

/-- `%wd`, `%-wd` and `%0wd`. -/
def format (form : Form) (w : Nat) : List (BitVec 8) :=
  chr '%' :: (form.flag ++ numeral 10 false w ++ [chr 'd'])

/-- A text in a field of that form. -/
def pad (form : Form) (w : Nat) (cs : List (BitVec 8)) : List (BitVec 8) :=
  match form with
  | right => List.replicate (w - cs.length) (chr ' ') ++ cs
  | left => cs ++ List.replicate (w - cs.length) (chr ' ')
  | zero => List.replicate (w - cs.length) (chr '0') ++ cs

end Form

variable {form : Form} {w n k : Nat} {junk : Nat → BitVec 8} {cs rest : List (BitVec 8)}

theorem readable_ten : Readable 10 := .inl ⟨by decide, by decide⟩

/-! ## the directives -/

/-- A numeral begins with `0` for 0 only. -/
theorem numeral_head {base : Nat} (upcase : Bool) (hbase : Readable base) (hn : n ≠ 0) :
    (numeral base upcase n).head? ≠ some (chr '0') := by
  have hzero : ∀ u, ∀ d : Fin 16, digitChar u d = chr '0' → (d : Nat) = 0 := by decide
  have hne : Nat.digits base n ≠ [] := fun hnil => hn (Nat.digits_eq_nil_iff_eq_zero.mp hnil)
  have hlt := Nat.digits_lt_base hbase.one_lt (List.getLast_mem hne)
  have hbound : (Nat.digits base n).getLast hne < 16 := by
    unfold Readable at hbase
    omega
  unfold numeral
  rw [if_neg hn, List.head?_reverse, List.getLast?_map, List.getLast?_eq_some_getLast hne]
  exact fun heq => Nat.getLast_digit_ne_zero base hn
    (hzero upcase ⟨_, hbound⟩ (Option.some.inj heq))

theorem numeral_isdigit : ∀ c ∈ numeral 10 false n, isdigit c = true :=
  fun c hc => numeral_accepts readable_ten false n c hc

/-- The flags of each form: a width 0 is the flag `0`. -/
theorem exists_flags (form : Form) (w : Nat) :
    ∃ f : Flags, f.text = form.flag ++ numeral 10 false w ∧ f.width = BitVec.ofNat 32 w ∧
    f.left = decide (form = .left) ∧
      (w ≠ 0 → f.pad = if form = .zero then chr '0' else chr ' ') := by
  have hwidth : BitVec.ofNat 32 (valueOf 10 0 (numeral 10 false w)) = BitVec.ofNat 32 w := by
    rw [valueOf_numeral readable_ten]
  by_cases hw : w = 0
  · subst hw
    cases form with
    | right => exact ⟨⟨0, some 0, [], fun _ hin => absurd hin List.not_mem_nil, fun _ => by decide⟩,
        rfl, rfl, rfl, fun h => absurd rfl h⟩
    | left => exact ⟨⟨1, some 0, [], fun _ hin => absurd hin List.not_mem_nil, fun _ => by decide⟩,
        rfl, rfl, rfl, fun h => absurd rfl h⟩
    | zero =>
        exact ⟨⟨0, some 0, numeral 10 false 0, numeral_isdigit,
          fun h => absurd h (Option.some_ne_none 0)⟩, rfl, hwidth, rfl, fun h => absurd rfl h⟩
  · have hhead := numeral_head false readable_ten hw
    cases form with
    | right => exact ⟨⟨0, none, numeral 10 false w, numeral_isdigit, fun _ => hhead⟩, rfl, hwidth,
        rfl, fun _ => rfl⟩
    | left => exact ⟨⟨1, none, numeral 10 false w, numeral_isdigit, fun _ => hhead⟩, rfl, hwidth,
        rfl, fun _ => rfl⟩
    | zero =>
        exact ⟨⟨0, some 0, numeral 10 false w, numeral_isdigit,
          fun h => absurd h (Option.some_ne_none 0)⟩, rfl, hwidth, rfl, fun _ => rfl⟩

/-- The output of such a directive. -/
theorem exists_piece (form : Form) (hw : w < 1024) (v : BitVec 32) :
    ∃ ps, formatText ps = form.format w ∧ conversions ps = [chr 'd'] ∧
    printed [.int v] ps = form.pad w (signedNumeral 10 false v.toInt) := by
  obtain ⟨f, htext, hwidth, hleft, hpad⟩ := exists_flags form w
  have hends : f.Ends (chr 'd') := ⟨by decide, fun _ => by decide, fun _ _ => by decide⟩
  refine ⟨[.conversion f (chr 'd') hends], ?_, rfl, ?_⟩
  · show (chr '%' :: (f.text ++ [chr 'd'])) ++ [] = _
    rw [List.append_nil, htext]
    rfl
  · show padded (signedNumeral 10 false v.toInt) f.width f.left f.pad ++ [] = _
    have hnat : (BitVec.ofNat 32 w).toNat = w := by
      rw [BitVec.toNat_ofNat, Nat.mod_eq_of_lt (by omega)]
    have hfill : (if (BitVec.ofNat 32 w).toInt > 0 then
        List.replicate ((BitVec.ofNat 32 w).toNat - (signedNumeral 10 false v.toInt).length) f.pad
          else []) =
        List.replicate (w - (signedNumeral 10 false v.toInt).length)
          (if form = .zero then chr '0' else chr ' ') := by
      rw [toInt_length (by omega), hnat]
      by_cases h0 : w = 0
      · subst h0
        rw [if_neg (by decide), Nat.zero_sub, List.replicate_zero]
      · rw [if_pos (by omega), hpad h0]
    unfold padded
    rw [List.append_nil, hwidth, hfill, hleft]
    cases form with
    | right => rfl
    | left => rfl
    | zero => rfl

theorem Form.pad_length (form : Form) (w : Nat) (cs : List (BitVec 8)) :
    (form.pad w cs).length = max w cs.length := by
  have hmax : w - cs.length + cs.length = max w cs.length := by omega
  cases form with
  | right => rw [Form.pad, List.length_append, List.length_replicate, hmax]
  | left => rw [Form.pad, List.length_append, List.length_replicate, Nat.add_comm, hmax]
  | zero => rw [Form.pad, List.length_append, List.length_replicate, hmax]

theorem Form.pad_plain (form : Form) (w : Nat) (h : 0 ∉ cs) : 0 ∉ form.pad w cs := by
  have hfill : ∀ {c : BitVec 8} (k : Nat), c ≠ 0 → 0 ∉ List.replicate k c :=
    fun k hc hin => hc (List.eq_of_mem_replicate hin).symm
  cases form with
  | right => exact fun hin => (List.mem_append.mp hin).elim (hfill _ (by decide)) h
  | left => exact fun hin => (List.mem_append.mp hin).elim h (hfill _ (by decide))
  | zero => exact fun hin => (List.mem_append.mp hin).elim (hfill _ (by decide)) h

/-! ## reading back -/

theorem isDigit_digitChar {base d : Nat} (upcase : Bool) (hbase : Readable base) (hd : d < base) :
    IsDigit base (digitChar upcase d) d := by
  have hall : ∀ u, ∀ d : Fin 16, digitValue (digitChar u d) = some (d : Nat) := by decide
  have hlt : d < 16 := by
    unfold Readable at hbase
    omega
  exact ⟨hall upcase ⟨d, hlt⟩, hd⟩

theorem digits_reverse {base : Nat} (upcase : Bool) (hbase : Readable base) {ds : List Nat}
    (hne : ds ≠ []) (hds : ∀ d ∈ ds, d < base) :
    Digits base (ds.map (digitChar upcase)).reverse (Nat.ofDigits base ds) := by
  induction ds with
  | nil => contradiction
  | cons d ds ih =>
      have hd := isDigit_digitChar upcase hbase (hds d List.mem_cons_self)
      rw [List.map_cons, List.reverse_cons, Nat.ofDigits_cons]
      by_cases hnil : ds = []
      · subst hnil
        exact .one hd
      · rw [Nat.mul_comm, Nat.add_comm]
        exact (ih hnil fun d h => hds d (List.mem_cons_of_mem _ h)).snoc hd

/-- A numeral is one of the grammar. -/
theorem digits_numeral {base : Nat} (upcase : Bool) (hbase : Readable base) (n : Nat) :
    Digits base (numeral base upcase n) n := by
  unfold numeral
  split
  · next h0 =>
      rw [h0]
      exact .one ⟨by decide, Nat.lt_of_succ_lt hbase.one_lt⟩
  · next hn =>
      have hdigits :=
        digits_reverse upcase hbase (fun hnil => hn (Nat.digits_eq_nil_iff_eq_zero.mp hnil))
        fun d => Nat.digits_lt_base hbase.one_lt
      rwa [Nat.ofDigits_digits] at hdigits

/-- The sign of an integer. -/
theorem signedNumeral_parts (z : Int) : ∃ sign,
    signedNumeral 10 false z = sign ++ numeral 10 false z.natAbs ∧ Sign sign (decide (z < 0)) ∧
    signed (decide (z < 0)) z.natAbs = z := by
  unfold signedNumeral signed
  by_cases hneg : z < 0
  · refine ⟨[chr '-'], by rw [if_pos hneg], by rw [decide_eq_true hneg]; exact .minus, ?_⟩
    rw [if_pos (decide_eq_true hneg)]
    omega
  · refine ⟨[], by rw [if_neg hneg], by rw [decide_eq_false hneg]; exact .none, ?_⟩
    rw [if_neg (by rw [decide_eq_false hneg]; exact Bool.false_ne_true)]
    omega

/-- Spaces behind a number change nothing. -/
theorem strtoullLoop_spaces {base i : Nat} {res : BitVec 64} :
    (strtoullLoop (List.replicate k (chr ' ')) base res i).1 = res := by
  induction k generalizing i with
  | zero => rfl
  | succ k ih =>
      rw [List.replicate_succ, strtoullLoop.eq_def]
      dsimp only
      rw [if_neg (by decide)]
      split
      · exact ih
      · rw [if_neg fun h => absurd h.2.2 (by decide), if_pos]
        split <;> decide

/-- White space around a signed numeral is passed. -/
theorem strtol_spaces (v : BitVec 32) (j k : Nat) :
    (strtol (List.replicate j (chr ' ') ++ signedNumeral 10 false v.toInt ++ List.replicate k
        (chr ' ')) 10).1 = v := by
  obtain ⟨sign, hparts, hsign, hsigned⟩ := signedNumeral_parts v.toInt
  have hws : ∀ ch ∈ List.replicate j (chr ' '), isspace ch = true := fun ch hch => by
    rw [List.eq_of_mem_replicate hch]
    decide
  have hds : Body 10 10 (numeral 10 false v.toInt.natAbs) v.toInt.natAbs :=
    .plain (by decide) (digits_numeral false readable_ten _)
  have hread := loop_numeral (List.replicate k (chr ' ')) (.inr readable_ten) hws hsign hds
    fun h0 => absurd h0 (by decide)
  have hvalue := congrArg Prod.fst hread
  rw [strtoullLoop_spaces] at hvalue
  have hsecond := strtoll_numeral hws hsign hds (Prod.ext hvalue rfl)
  unfold strtol
  rw [hparts, ← List.append_assoc, hsecond, hsigned]
  dsimp only
  rw [setWidth_ofInt, BitVec.ofInt_toInt]

theorem digits_zeros {base v : Nat} {ds : List (BitVec 8)} (h : Digits base ds v)
    (hbase : 0 < base) :
    Digits base (List.replicate k (chr '0') ++ ds) v := by
  induction k with
  | zero => exact h
  | succ k ih =>
      rw [List.replicate_succ, List.cons_append]
      exact ih.cons_zero hbase

/-- Zeros before a number that is not negative are digits. -/
theorem strtol_zeros_nonneg {v : BitVec 32} (hv : 0 ≤ v.toInt) (k : Nat) :
    (strtol (List.replicate k (chr '0') ++ signedNumeral 10 false v.toInt) 10).1 = v := by
  have htext : signedNumeral 10 false v.toInt = numeral 10 false v.toInt.natAbs := by
    unfold signedNumeral
    rw [if_neg (by omega), List.nil_append]
  have hws : ∀ ch ∈ ([] : List (BitVec 8)), isspace ch = true :=
    fun _ hin => absurd hin List.not_mem_nil
  have hds : Body 10 10 (List.replicate k (chr '0') ++ numeral 10 false v.toInt.natAbs)
      v.toInt.natAbs :=
    .plain (by decide) (digits_zeros (digits_numeral false readable_ten _) (by decide))
  have hread := loop_numeral [] (.inr readable_ten) hws .none hds fun h0 => absurd h0 (by decide)
  have hsecond := strtoll_numeral hws .none hds hread
  rw [List.append_nil, List.append_nil, List.nil_append] at hsecond
  unfold strtol
  rw [htext, hsecond]
  show (BitVec.ofInt 64 (v.toInt.natAbs : Int)).setWidth 32 = v
  rw [setWidth_ofInt, Int.natAbs_of_nonneg hv, BitVec.ofInt_toInt]

theorem valueOf_zeros (base k : Nat) : valueOf base 0 (List.replicate k (chr '0')) = 0 := by
  induction k with
  | zero => rfl
  | succ k ih =>
      have hzero : 0 * base + digitOf (chr '0') = 0 := by
        rw [Nat.zero_mul]
        decide
      rw [List.replicate_succ, valueOf_cons, hzero, ih]

/-- Zeros before a sign hide it. -/
theorem strtol_zeros_neg {v : BitVec 32} (hv : v.toInt < 0) (hk : 0 < k) :
    (strtol (List.replicate k (chr '0') ++ signedNumeral 10 false v.toInt) 10).1 = -v := by
  have hten : (10 : Nat) ≠ 0 := by decide
  have htext : signedNumeral 10 false v.toInt = chr '-' :: numeral 10 false (-v).toNat := by
    unfold signedNumeral
    rw [if_pos hv, natAbs_toInt hv, List.singleton_append]
  have hzeros : ∀ ch ∈ List.replicate k (chr '0'), accepts 10 ch = true := fun ch hch => by
    rw [List.eq_of_mem_replicate hch]
    decide
  have hread : strtoull (List.replicate k (chr '0') ++ chr '-' :: numeral 10 false (-v).toNat) 10 =
      (BitVec.ofNat 64 (-v).toNat, 0 + (List.replicate k (chr '0')).length + 1 +
        (numeral 10 false (-v).toNat).length) := by
    have hrun := strtoull_digits (s := chr '-' :: numeral 10 false (-v).toNat) (a := 0)
      (i := 0) hten hzeros
    have hdigits :=
      strtoull_digits (s := []) (a := 0) (i := 0 + (List.replicate k (chr '0')).length + 1) hten
      (numeral_accepts readable_ten false (-v).toNat)
    rw [valueOf_zeros, strtoullLoop_sign (.inl rfl)] at hrun
    rw [List.append_nil, valueOf_numeral readable_ten] at hdigits
    exact hrun.trans hdigits
  have hfirst : minusFirst (List.replicate k (chr '0') ++ chr '-' :: numeral 10 false (-v).toNat) =
      false := by
    obtain ⟨k, rfl⟩ := Nat.exists_eq_add_of_lt hk
    rw [Nat.zero_add, List.replicate_succ]
    rfl
  unfold strtol strtoll
  rw [htext, hread, hfirst]
  show (if _ then _ else _ : BitVec 64 × Nat).1.setWidth 32 = -v
  rw [if_neg Bool.false_ne_true, ite_self, BitVec.setWidth_ofNat_of_le (by omega),
    BitVec.ofNat_toNat, BitVec.setWidth_eq]

theorem neg_eq_self_iff {v : BitVec 32} (hv : v.toInt < 0) : -v = v ↔ v = 0x80000000 := by
  constructor
  · intro heq
    have hnat := congrArg BitVec.toNat heq
    rw [BitVec.toNat_neg] at hnat
    rw [BitVec.toInt_eq_toNat_cond] at hv
    have hlt := v.isLt
    split at hv
    · omega
    · apply BitVec.eq_of_toNat_eq
      show v.toNat = 0x80000000
      rw [Nat.mod_eq_of_lt (by omega)] at hnat
      omega
  · rintro rfl
    decide

/-- Whether the text of a form is read back as its number. -/
theorem strtol_pad_iff (form : Form) (w : Nat) (v : BitVec 32) :
    (strtol (form.pad w (signedNumeral 10 false v.toInt)) 10).1 = v ↔
    (form = .zero → v.toInt < 0 → w ≤ (signedNumeral 10 false v.toInt).length ∨
      v = 0x80000000) := by
  cases form with
  | right =>
      have hread := strtol_spaces v (w - (signedNumeral 10 false v.toInt).length) 0
      rw [List.replicate_zero, List.append_nil] at hread
      exact iff_of_true hread fun h => absurd h (by decide)
  | left => exact iff_of_true (strtol_spaces v 0 _) fun h => absurd h (by decide)
  | zero =>
      by_cases hv : v.toInt < 0
      · by_cases hk : w ≤ (signedNumeral 10 false v.toInt).length
        · have hread := strtol_spaces v 0 0
          rw [List.replicate_zero, List.append_nil, List.nil_append] at hread
          refine iff_of_true ?_ fun _ _ => .inl hk
          rwa [Form.pad, Nat.sub_eq_zero_of_le hk, List.replicate_zero, List.nil_append]
        · rw [Form.pad, strtol_zeros_neg hv (by omega), neg_eq_self_iff hv]
          exact ⟨fun heq _ _ => .inr heq, fun h => (h rfl hv).resolve_left hk⟩
      · exact iff_of_true (strtol_zeros_nonneg (by omega) _) fun _ hneg => absurd hneg hv

/-- **The text of a padded integer.** -/
theorem snprintf_padded (form : Form) (v : BitVec 32) (hw : w < 1024)
    (hn : max w (signedNumeral 10 false v.toInt).length < n)
    (junk s : Nat → BitVec 8) : ∃ out, snprintf junk s n (form.format w) [.int v] =
      .ok ((form.pad w (signedNumeral 10 false v.toInt)).length, out) ∧
        Holds 0 out 0 (form.pad w (signedNumeral 10 false v.toInt)) := by
  obtain ⟨ps, hformat, hconv, hprinted⟩ := exists_piece form hw v
  have hfit : Fit [.int v] (conversions ps) := by
    rw [hconv]
    exact fit_cons.mpr ⟨rfl, fun _ hp => absurd hp List.not_mem_nil⟩
  have hlength := form.pad_length w (signedNumeral 10 false v.toInt)
  have hsigned := signedNumeral_length_le false readable_ten.one_lt (by omega) v
  have hlen : (printed [.int v] ps).length < 2 ^ 31 := by
    rw [hprinted, hlength]
    omega
  have hrun : snprintf junk s n (formatText ps) [.int v] = _ := snprintf_eq hfit hlen s n
  rw [hformat, hprinted] at hrun
  refine ⟨_, hrun, fun m hm => ?_, ?_, form.pad_plain w (signedNumeral_plain readable_ten)⟩
  · have hat := put_at s 0 hm
    rw [if_pos (by omega), Nat.min_eq_right (by omega), set_of_ne _ _ (by omega),
      if_pos (by omega), hat]
  · rw [if_pos (by omega), Nat.min_eq_right (by omega), Nat.zero_add, set_self]

/-- **Padded integers**: the text has the length that the width asks for, and it is read
back as the number unless zeros stand before a minus sign. -/
theorem padded_reads_back_iff (form : Form) (v : BitVec 32) (w n : Nat) (hw : w < 1024)
    (hn : max w (signedNumeral 10 false v.toInt).length < n) (junk s : Nat → BitVec 8) :
    ∃ text out, snprintf junk s n (form.format w) [.int v] = .ok (text.length, out) ∧
      Holds 0 out 0 text ∧
      ((text.length = max w (signedNumeral 10 false v.toInt).length ∧ (strtol text 10).1 = v) ↔
        (form = .zero → v.toInt < 0 → w ≤ (signedNumeral 10 false v.toInt).length ∨
          v = 0x80000000)) := by
  obtain ⟨out, hrun, hholds⟩ := snprintf_padded form v hw hn junk s
  exact ⟨_, out, hrun, hholds, (and_iff_right (form.pad_length w _)).trans
    (strtol_pad_iff form w v)⟩

/-- `%-5d` of 42. -/
theorem padded_reads_back_iff_left : ∃ text out,
    snprintf (fun _ => 0) (fun _ => 0) 64 (Form.left.format 5) [.int 42] = .ok (text.length, out) ∧
    Holds 0 out 0 text ∧ (strtol text 10).1 = 42 := by
  have hlen := signedNumeral_length_le false readable_ten.one_lt (by omega) (42 : BitVec 32)
  obtain ⟨text, out, hrun, hholds, hread⟩ :=
    padded_reads_back_iff .left 42 5 64 (by omega) (by omega) (fun _ => 0) (fun _ => 0)
  exact ⟨text, out, hrun, hholds, (hread.mpr fun h => absurd h (by decide)).2⟩

/-- `%05d` of -42 is read back as 42. -/
theorem padded_sign_lost : ∃ text out, snprintf (fun _ => 0) (fun _ => 0) 64
    (Form.zero.format 5) [.int (-42)] = .ok (text.length, out) ∧
    Holds 0 out 0 text ∧ (strtol text 10).1 = 42 := by
  have hlen := signedNumeral_length_le false readable_ten.one_lt (by omega) (-42 : BitVec 32)
  have hthree : (signedNumeral 10 false (-42 : BitVec 32).toInt).length = 3 := by
    rw [show (-42 : BitVec 32).toInt = -42 by decide]
    simp [signedNumeral, numeral]
  obtain ⟨out, hrun, hholds⟩ := snprintf_padded (w := 5) (n := 64) .zero (-42 : BitVec 32)
    (by omega) (by omega) (fun _ => 0) (fun _ => 0)
  exact ⟨_, out, hrun, hholds, strtol_zeros_neg (by decide) (by omega)⟩

end Doors.Libcxx
