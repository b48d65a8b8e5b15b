import Mathlib.Data.Nat.Digits.Lemmas
import Doors.Lib.Text

/-!
# Doors.Libcxx.Numerals

Numbers as text: the formatters `ltos`, `utos` and `itos`, the parsers `strtoull`,
`strtoll`, `strtoul` and `strtol` (`libc++/stdlib`), and the character classes that
they use (`libc++/include/ctype.h`).

The formatters write to an array of `cap` cells, from cell `off` on, and every access
is checked.  The parsers work on the characters before the terminator, and give the
number of characters that `endptr` is past the start.

* `ltos_eq`, `itos_eq` — what the formatters write, and when it fits;
* `strtoull_digits` — a run of digits is read as its value;
* `numbers_read_back` — parsing undoes formatting.
-/

namespace Doors.Libcxx

open Run Cells Text

/-- The character code of a literal. -/
def chr (c : Char) : BitVec 8 := BitVec.ofNat 8 c.toNat

/-- How a call can leave its arrays. -/
inductive Fault where
  /-- a write outside an array -/
  | overrun
  /-- a read outside an array, or of a cell that was not written -/
  | overread
  /-- a read behind the terminator of the format -/
  | pastEnd
  deriving DecidableEq, Repr

/-! ## character classes

`char` is signed, and all classes are within the non-negative half. -/

def isdigit (ch : BitVec 8) : Bool := 0x30 ≤ ch.toNat && ch.toNat ≤ 0x39

def isupper (ch : BitVec 8) : Bool := 0x41 ≤ ch.toNat && ch.toNat ≤ 0x46 || 0x47 ≤ ch.toNat &&
    ch.toNat ≤ 0x5A

def islower (ch : BitVec 8) : Bool := 0x61 ≤ ch.toNat && ch.toNat ≤ 0x66 || 0x67 ≤ ch.toNat &&
    ch.toNat ≤ 0x7A

def isxdigit (ch : BitVec 8) : Bool := isdigit ch || 0x41 ≤ ch.toNat && ch.toNat ≤ 0x46 ||
    0x61 ≤ ch.toNat && ch.toNat ≤ 0x66

def isspace (ch : BitVec 8) : Bool := ch.toNat = 0x20 || ch.toNat = 0x09 || 0x0A ≤ ch.toNat &&
    ch.toNat ≤ 0x0D

def tolower (ch : BitVec 8) : BitVec 8 := if ¬ isupper ch then ch else ch + (0x61 - 0x41)

def toupper (ch : BitVec 8) : BitVec 8 := if ¬ islower ch then ch else ch - (0x61 - 0x41)

/-! ## formatting -/

/-- The character of a remainder. -/
def digitChar (upcase : Bool) (rem : Nat) : BitVec 8 :=
  let ch := BitVec.ofNat 8 (if rem < 10 then rem + 0x30 else rem + 0x61 - 10)
  if upcase then toupper ch else ch

/-- `while (num > 0) { str[i++] = ...; num = num / base; }`; bases are at least 2. -/
def divLoop (cap off base : Nat) (upcase : Bool) (num i : Nat) (str : Nat → BitVec 8) :
    Except Fault (Nat × (Nat → BitVec 8)) :=
  if num > 0 ∧ 1 < base then do
    let str ← write .overrun cap str (off + i) (digitChar upcase (num % base))
    divLoop cap off base upcase (num / base) (i + 1) str
  else .ok (i, str)
termination_by num
decreasing_by exact Nat.div_lt_self (by omega) (by omega)

/-- The digits of a number, the least significant one first. -/
def digitLoop (cap off base : Nat) (upcase : Bool) (num : Nat) (str : Nat → BitVec 8) :
    Except Fault (Nat × (Nat → BitVec 8)) :=
  if num = 0 then do
    let str ← write .overrun cap str off (chr '0')
    .ok (1, str)
  else divLoop cap off base upcase num 0 str

/-- Terminates the digits and turns them round in place. -/
def formatReversed (cap off base : Nat) (upcase : Bool) (num : Nat) (str : Nat → BitVec 8) :
    Except Fault (Nat → BitVec 8) := do
  let (i, str) ← digitLoop cap off base upcase num str
  let str ← write .overrun cap str (off + i) 0
  reverseLoop .overrun cap off (i - 1) 0 str

/-- `ltos`. -/
def ltos (cap off : Nat) (num : BitVec 64) (str : Nat → BitVec 8) (base : Nat) (upcase : Bool) :
    Except Fault (Nat → BitVec 8) :=
  formatReversed cap off base upcase num.toNat str

/-- `utos`. -/
def utos (cap off : Nat) (num : BitVec 32) (str : Nat → BitVec 8) (base : Nat) (upcase : Bool) :
    Except Fault (Nat → BitVec 8) :=
  formatReversed cap off base upcase num.toNat str

/-- `while (i > 0) *str++ = buf[--i]`, from the scratch buffer of `itos`. -/
def copyBack (cap : Nat) (buf : Nat → BitVec 8) :
    Nat → Nat → (Nat → BitVec 8) → Except Fault (Nat × (Nat → BitVec 8))
  | 0, off, str => .ok (off, str)
  | i + 1, off, str => do
      let ch ← read .overread 33 buf i
      let str ← write .overrun cap str off ch
      copyBack cap buf i (off + 1) str

/-- `itos`; the scratch buffer is written before it is read. -/
def itos (cap off : Nat) (num : BitVec 32) (str : Nat → BitVec 8) (base : Nat) (upcase : Bool) :
    Except Fault (Nat → BitVec 8) := do
  let (off, unum, str) ← if num.toInt < 0 then do
      let str ← write .overrun cap str off (chr '-')
      pure (off + 1, -num, str)
    else pure (off, num, str)
  let (i, buf) ← digitLoop 33 0 base upcase unum.toNat fun _ => 0
  let (off, str) ← copyBack cap buf i off str
  write .overrun cap str off 0

/-! ## parsing -/

/-- The digit of a character, as `strtoull` computes it. -/
def digitOf (ch : BitVec 8) : Nat :=
  let ich := (if isupper ch then tolower ch else ch).toNat - 0x30
  if ich > 10 then ich - (0x30 - 10) - 1 else ich

/-- The loop of `strtoull`. -/
def strtoullLoop : List (BitVec 8) → Nat → BitVec 64 → Nat → BitVec 64 × Nat
  | [], _, res, i => (res, i)
  | ch :: str, base, res, i =>
      if ch = chr '-' ∨ ch = chr '+' then strtoullLoop str base res (i + 1)
      else if isspace ch ∧ res = 0 then strtoullLoop str base res (i + 1)
      else if base = 0 ∧ res = 0 ∧ ch = chr '0' then
        match str with
        | [] => strtoullLoop [] 8 res (i + 1)
        | x :: str => if x = chr 'x' ∨ x = chr 'X' then strtoullLoop str 16 res (i + 2)
            else strtoullLoop (x :: str) 8 res (i + 1)
      else if ¬ (if base ≠ 16 then isdigit ch else isxdigit ch) then (res, i)
      else
        let base := if base = 0 then 10 else base
        strtoullLoop str base (res * BitVec.ofNat 64 base + BitVec.ofNat 64 (digitOf ch)) (i + 1)

/-- `strtoull`, with the place of `endptr`. -/
def strtoull (str : List (BitVec 8)) (base : Nat) : BitVec 64 × Nat := strtoullLoop str base 0 0

/-- The scan for a sign in `strtoll`. -/
def minusFirst : List (BitVec 8) → Bool
  | [] => false
  | ch :: str => if isspace ch then minusFirst str else ch = chr '-'

/-- `strtoll`. -/
def strtoll (str : List (BitVec 8)) (base : Nat) : BitVec 64 × Nat :=
  let (res, i) := strtoull str base
  if res = 0 then (res, i) else if minusFirst str then (res * -1, i) else (res, i)

/-- `strtoul`. -/
def strtoul (str : List (BitVec 8)) (base : Nat) : BitVec 32 × Nat :=
  ((strtoull str base).1.setWidth 32, (strtoull str base).2)

/-- `strtol`. -/
def strtol (str : List (BitVec 8)) (base : Nat) : BitVec 32 × Nat :=
  ((strtoll str base).1.setWidth 32, (strtoll str base).2)

/-! ## the text of a number -/

/-- The numeral of `num`. -/
def numeral (base : Nat) (upcase : Bool) (num : Nat) : List (BitVec 8) :=
  if num = 0 then [chr '0'] else ((Nat.digits base num).map (digitChar upcase)).reverse

/-- The numeral of an integer. -/
def signedNumeral (base : Nat) (upcase : Bool) (num : Int) : List (BitVec 8) :=
  (if num < 0 then [chr '-'] else []) ++ numeral base upcase num.natAbs

variable {cap off base num i : Nat} {upcase : Bool} {str : Nat → BitVec 8} {ch : BitVec 8}

/-- The digits that the division loop writes. -/
def looseDigits (base : Nat) (upcase : Bool) (num : Nat) : List (BitVec 8) :=
  if num = 0 then [chr '0'] else (Nat.digits base num).map (digitChar upcase)

/-- A numeral is its digits, turned round. -/
theorem numeral_eq (base : Nat) (upcase : Bool) (num : Nat) :
    numeral base upcase num = (looseDigits base upcase num).reverse := by
  unfold numeral looseDigits
  split
  · rfl
  · rfl

/-- There is always a digit. -/
theorem looseDigits_ne_nil (base : Nat) (upcase : Bool) (num : Nat) :
    looseDigits base upcase num ≠ [] := by
  unfold looseDigits
  split
  · simp
  · next hnum =>
      exact fun hnil => hnum (Nat.digits_eq_nil_iff_eq_zero.mp (List.map_eq_nil_iff.mp hnil))

/-- The loop writes the digits, the least first. -/
theorem divLoop_eq (hbase : 1 < base) : divLoop cap off base upcase num i str =
    writeAll .overrun cap ((Nat.digits base num).map (digitChar upcase)) (off + i) str >>=
      fun str => .ok (i + (Nat.digits base num).length, str) := by
  induction num using Nat.strong_induction_on generalizing i str with
  | _ num ih =>
      rw [divLoop]
      by_cases hnum : num = 0
      · subst hnum
        rw [if_neg (by simp), Nat.digits_zero]
        rfl
      · rw [if_pos ⟨by omega, hbase⟩, Nat.digits_eq_cons_digits_div hbase hnum,
          List.map_cons, writeAll]
        cases hw : write Fault.overrun cap str (off + i) (digitChar upcase (num % base)) with
        | error e => rfl
        | ok str' =>
            show divLoop cap off base upcase (num / base) (i + 1) str' = _
            rw [ih _ (Nat.div_lt_self (by omega) hbase), List.length_cons,
              show i + 1 + (Nat.digits base (num / base)).length =
              i + ((Nat.digits base (num / base)).length + 1) by
                omega, show off + (i + 1) = off + i + 1 by omega]
            rfl

/-- So does the loop that begins with a zero. -/
theorem digitLoop_eq (hbase : 1 < base) : digitLoop cap off base upcase num str =
    writeAll .overrun cap (looseDigits base upcase num) off str >>= fun str =>
      .ok ((looseDigits base upcase num).length, str) := by
  unfold digitLoop looseDigits
  by_cases hnum : num = 0
  · rw [if_pos hnum, if_pos hnum, writeAll]
    cases write Fault.overrun cap str off (chr '0') with
    | error e => rfl
    | ok str' => rfl
  · rw [if_neg hnum, if_neg hnum, divLoop_eq hbase, Nat.zero_add, List.length_map]
    rfl

/-- **What `ltos` and `utos` write**: the numeral and its terminator, when they fit. -/
theorem formatReversed_eq (hbase : 1 < base) : formatReversed cap off base upcase num str =
    if off + (numeral base upcase num).length + 1 ≤ cap
      then .ok (put str off (numeral base upcase num ++ [0])) else .error .overrun := by
  have hne := looseDigits_ne_nil base upcase num
  have hpos := List.length_pos_iff.mpr hne
  have hlen : (numeral base upcase num).length = (looseDigits base upcase num).length := by
    rw [numeral_eq, List.length_reverse]
  have hsteps : formatReversed cap off base upcase num str =
    writeAll .overrun cap (looseDigits base upcase num ++ [0]) off str >>=
      fun str => reverseLoop .overrun cap off ((looseDigits base upcase num).length - 1) 0 str := by
    unfold formatReversed
    rw [digitLoop_eq hbase, writeAll_append]
    cases writeAll Fault.overrun cap (looseDigits base upcase num) off str with
    | error e => rfl
    | ok str' =>
        show (write Fault.overrun cap str' (off + (looseDigits base upcase num).length) 0 >>= _) =
          (_ >>= _) >>= _
        cases hw : write Fault.overrun cap str' (off + (looseDigits base upcase num).length) 0 with
        | error e =>
            show _ = (writeAll _ _ [0] _ _) >>= _
            rw [writeAll, hw]
            rfl
        | ok str'' =>
            show _ = (writeAll _ _ [0] _ _) >>= _
            rw [writeAll, hw]
            rfl
  rw [hsteps, writeAll_eq (by simp), List.length_append, List.length_singleton, hlen,
    ← Nat.add_assoc]
  split
  · next hfit =>
      show reverseLoop _ _ _ _ _ _ = _
      rw [reverseLoop_eq (by omega), reverse_put hne, numeral_eq]
  · rfl

/-- `ltos` writes the numeral, or runs out of the array. -/
theorem ltos_eq (hbase : 1 < base) (num : BitVec 64) : ltos cap off num str base upcase =
    if off + (numeral base upcase num.toNat).length + 1 ≤ cap
      then .ok (put str off (numeral base upcase num.toNat ++ [0]))
    else .error .overrun :=
  formatReversed_eq hbase

/-- `utos` writes the numeral, or runs out of the array. -/
theorem utos_eq (hbase : 1 < base) (num : BitVec 32) : utos cap off num str base upcase =
    if off + (numeral base upcase num.toNat).length + 1 ≤ cap
      then .ok (put str off (numeral base upcase num.toNat ++ [0]))
    else .error .overrun :=
  formatReversed_eq hbase

/-- No more digits than bits. -/
theorem digits_length_le {bits : Nat} (hbase : 1 < base) (hnum : num < 2 ^ bits) :
    (Nat.digits base num).length ≤ bits := by
  rw [Nat.digits_length_le_iff hbase]
  exact lt_of_lt_of_le hnum (Nat.pow_le_pow_left hbase bits)

/-- A number of at most `bits` bits has at most `bits` digits. -/
theorem numeral_length_le {bits : Nat} (upcase : Bool) (hbase : 1 < base) (hbits : 0 < bits)
    (hnum : num < 2 ^ bits) :
    (numeral base upcase num).length ≤ bits := by
  unfold numeral
  split
  · exact hbits
  · rw [List.length_reverse, List.length_map]
    exact digits_length_le hbase hnum

/-- The copy writes the scratch digits, the last one first. -/
theorem copyBack_eq {ds : List (BitVec 8)} {b : Nat → BitVec 8} {i : Nat} (hi : i ≤ ds.length)
    (hlen : ds.length ≤ 33) :
    copyBack cap (put b 0 ds) i off str =
      writeAll .overrun cap (ds.take i).reverse off str >>= fun str => .ok (off + i, str) := by
  induction i generalizing off str with
  | zero => rfl
  | succ i ih =>
      have hcell : put b 0 ds i = ds[i] := by
        have hput : put b 0 ds (0 + i) = ds[i] := put_at b 0 hi
        rwa [Nat.zero_add] at hput
      rw [copyBack, read_of_lt (by omega), hcell, List.take_succ_eq_append_getElem hi,
        List.reverse_append, List.reverse_singleton,
        List.singleton_append, writeAll]
      show (write Fault.overrun cap str off ds[i] >>= _) = _
      cases write Fault.overrun cap str off ds[i] with
      | error e => rfl
      | ok str' =>
          show copyBack cap (put b 0 ds) i (off + 1) str' = _
          rw [ih (by omega), show off + 1 + i = off + (i + 1) by omega]
          rfl

/-- The magnitude of a negative number is its complement. -/
theorem natAbs_toInt {bits : Nat} {num : BitVec bits} (h : num.toInt < 0) :
    num.toInt.natAbs = (-num).toNat := by
  have hlt := num.isLt
  rw [BitVec.toInt_eq_toNat_cond] at h ⊢
  rw [BitVec.toNat_neg]
  split at h
  · omega
  · rw [if_neg (by assumption), Nat.mod_eq_of_lt (by omega)]
    omega

/-- The magnitude of another is itself. -/
theorem toInt_natAbs {bits : Nat} {num : BitVec bits} (h : ¬ num.toInt < 0) :
    num.toInt.natAbs = num.toNat := by
  have hlt := num.isLt
  rw [BitVec.toInt_eq_toNat_cond] at h ⊢
  split at h
  · rw [if_pos (by assumption)]
    omega
  · omega

/-- **What `itos` writes.**  The scratch buffer holds the digits of every 32-bit number. -/
theorem itos_eq (hbase : 1 < base) (num : BitVec 32) : itos cap off num str base upcase =
    if off + (signedNumeral base upcase num.toInt).length + 1 ≤ cap
      then .ok (put str off (signedNumeral base upcase num.toInt ++ [0]))
    else .error .overrun := by
  -- the part behind the sign
  have hdigits : ∀ (unum : BitVec 32) (off : Nat) (str : Nat → BitVec 8),
      (digitLoop 33 0 base upcase unum.toNat (fun _ => 0) >>=
        fun (i, buf) => copyBack cap buf i off str >>= fun (off, str) =>
        write .overrun cap str off 0) = writeAll .overrun cap
          (numeral base upcase unum.toNat ++ [0]) off str := by
    intro unum off str
    have hlen : (looseDigits base upcase unum.toNat).length ≤ 32 := by
      have := numeral_length_le upcase hbase (by omega) unum.isLt
      rwa [numeral_eq, List.length_reverse] at this
    rw [digitLoop_eq hbase, writeAll_eq (looseDigits_ne_nil base upcase unum.toNat),
      if_pos (by omega)]
    show (copyBack cap (put _ 0 _) _ off str >>= _) = _
    rw [copyBack_eq (Nat.le_refl _) (by omega), List.take_length, ← numeral_eq, writeAll_append]
    cases writeAll Fault.overrun cap (numeral base upcase unum.toNat) off str with
    | error e => rfl
    | ok str' =>
        show write _ _ _ _ _ = writeAll _ _ [0] _ _
        rw [writeAll, numeral_eq, List.length_reverse]
        cases write Fault.overrun cap str' (off + (looseDigits base upcase unum.toNat).length) 0
          with
        | error e => rfl
        | ok str'' => rfl
  have hsteps : itos cap off num str base upcase =
      writeAll .overrun cap (signedNumeral base upcase num.toInt ++ [0]) off str := by
    unfold itos signedNumeral
    by_cases hneg : num.toInt < 0
    · rw [if_pos hneg, if_pos hneg, natAbs_toInt hneg, List.append_assoc,
        List.singleton_append, writeAll]
      cases write Fault.overrun cap str off (chr '-') with
      | error e => rfl
      | ok str' => exact hdigits (-num) (off + 1) str'
    · rw [if_neg hneg, if_neg hneg, toInt_natAbs hneg, List.nil_append]
      exact hdigits num off str
  rw [hsteps, writeAll_eq (by simp), List.length_append, List.length_singleton, ← Nat.add_assoc]

/-! ## reading digits -/

/-- The characters that the loop takes for a digit. -/
def accepts (base : Nat) (ch : BitVec 8) : Bool := if base ≠ 16 then isdigit ch else isxdigit ch

/-- The number that digits stand for, behind a number `a`. -/
def valueOf (base a : Nat) (ds : List (BitVec 8)) : Nat :=
  ds.foldl (fun a ch => a * base + digitOf ch) a

/-- One more digit. -/
theorem valueOf_cons (base a : Nat) (ch : BitVec 8) (ds : List (BitVec 8)) :
    valueOf base a (ch :: ds) = valueOf base (a * base + digitOf ch) ds := by
  unfold valueOf
  rw [List.foldl_cons]

/-- A digit is a hexadecimal digit. -/
theorem isxdigit_of_accepts (h : accepts base ch) : isxdigit ch := by
  unfold accepts at h
  split at h
  · simp [isxdigit, h]
  · exact h

/-- A digit is no sign. -/
theorem not_sign_of_isxdigit (h : isxdigit ch) : ¬ (ch = chr '-' ∨ ch = chr '+') := by
  rintro (rfl | rfl)
  · exact absurd h (by decide)
  · exact absurd h (by decide)

/-- A digit is no white space. -/
theorem not_isspace_of_isxdigit (h : isxdigit ch) : isspace ch = false := by
  simp only [isxdigit, isdigit, isspace, Bool.or_eq_true, Bool.and_eq_true, decide_eq_true_eq,
    Bool.or_eq_false_iff, Bool.and_eq_false_iff,
    decide_eq_false_iff_not] at h ⊢
  omega

/-- A step of the loop at a digit, once the base is known. -/
theorem strtoullLoop_accept {res : BitVec 64} {s : List (BitVec 8)} (hbase : base ≠ 0)
    (h : accepts base ch) :
    strtoullLoop (ch :: s) base res i = strtoullLoop s base
      (res * BitVec.ofNat 64 base + BitVec.ofNat 64 (digitOf ch)) (i + 1) := by
  have hx := isxdigit_of_accepts h
  have hspace : ¬ (isspace ch = true ∧ res = 0) :=
    fun hs => absurd hs.1 (by rw [not_isspace_of_isxdigit hx]; exact Bool.false_ne_true)
  have hdigit : ¬ ¬ (if base ≠ 16 then isdigit ch else isxdigit ch) = true := not_not_intro h
  rw [strtoullLoop.eq_def]
  dsimp only
  rw [if_neg (not_sign_of_isxdigit hx), if_neg hspace, if_neg fun hzero => hbase hzero.1,
    if_neg hdigit, if_neg hbase]

/-- **A run of digits** is read as its value. -/
theorem strtoull_digits {ds s : List (BitVec 8)} {a : Nat} (hbase : base ≠ 0)
    (hds : ∀ ch ∈ ds, accepts base ch) :
    strtoullLoop (ds ++ s) base (BitVec.ofNat 64 a) i =
      strtoullLoop s base (BitVec.ofNat 64 (valueOf base a ds)) (i + ds.length) := by
  induction ds generalizing a i with
  | nil => rfl
  | cons ch ds ih =>
      have hch := hds ch List.mem_cons_self
      have hstep : BitVec.ofNat 64 a * BitVec.ofNat 64 base + BitVec.ofNat 64 (digitOf ch) =
          BitVec.ofNat 64 (a * base + digitOf ch) := by
        rw [BitVec.ofNat_add, BitVec.ofNat_mul]
      rw [List.cons_append, strtoullLoop_accept hbase hch, hstep,
        ih fun ch h => hds ch (List.mem_cons_of_mem _ h), valueOf_cons, List.length_cons]
      congr 1
      omega

/-! ## a number read back

Parsers know the digits of the bases up to 10 and of base 16. -/

/-- A base that both sides know. -/
def Readable (base : Nat) : Prop := 2 ≤ base ∧ base ≤ 10 ∨ base = 16

/-- A base is at least 2. -/
theorem Readable.one_lt (h : Readable base) : 1 < base := by
  unfold Readable at h
  omega

/-- The value of the character of a digit. -/
theorem digitOf_digitChar {d : Nat} (hd : d < 16) : digitOf (digitChar upcase d) = d := by
  have hall : ∀ u, ∀ d : Fin 16, digitOf (digitChar u d) = d := by decide
  exact hall upcase ⟨d, hd⟩

/-- The character of a digit is accepted. -/
theorem accepts_digitChar {d : Nat} (upcase : Bool) (h : Readable base) (hd : d < base) :
    accepts base (digitChar upcase d) := by
  have hten : ∀ u, ∀ d : Fin 10, isdigit (digitChar u d) := by decide
  have hsixteen : ∀ u, ∀ d : Fin 16, isxdigit (digitChar u d) := by decide
  unfold accepts
  rcases h with h | h
  · rw [if_pos (by omega)]
    exact hten upcase ⟨d, by omega⟩
  · rw [if_neg (by omega)]
    exact hsixteen upcase ⟨d, by omega⟩

/-- All characters of a numeral are accepted. -/
theorem numeral_accepts (h : Readable base) (upcase : Bool) (num : Nat) :
    ∀ ch ∈ numeral base upcase num, accepts base ch := by
  intro ch hch
  unfold numeral at hch
  split at hch
  · have hzero := accepts_digitChar false h (d := 0) (by have := h.one_lt; omega)
    rwa [List.mem_singleton.mp hch]
  · obtain ⟨d, hd, rfl⟩ := List.mem_map.mp (List.mem_reverse.mp hch)
    exact accepts_digitChar upcase h (Nat.digits_lt_base h.one_lt hd)

/-- The value of the digits, turned round. -/
theorem valueOf_reverse {ds : List Nat} (hds : ∀ d ∈ ds, d < 16) :
    valueOf base 0 (ds.map (digitChar upcase)).reverse = Nat.ofDigits base ds := by
  unfold valueOf
  induction ds with
  | nil => rfl
  | cons d ds ih =>
      rw [List.map_cons, List.reverse_cons, List.foldl_append,
        ih fun d hd => hds d (List.mem_cons_of_mem _ hd), List.foldl_cons, List.foldl_nil,
        digitOf_digitChar (hds d List.mem_cons_self), Nat.ofDigits_cons, Nat.mul_comm]
      exact Nat.add_comm _ _

/-- **A numeral stands for its number.** -/
theorem valueOf_numeral (h : Readable base) : valueOf base 0 (numeral base upcase num) = num := by
  unfold numeral
  split
  · next hnum =>
      rw [hnum]
      unfold valueOf
      rw [List.foldl_cons, List.foldl_nil, Nat.zero_mul, Nat.zero_add]
      decide
  · rw [valueOf_reverse fun d hd => ?_, Nat.ofDigits_digits]
    have hlt := Nat.digits_lt_base h.one_lt hd
    unfold Readable at h
    omega

/-- A numeral is read back. -/
theorem strtoull_numeral (h : Readable base) :
    strtoull (numeral base upcase num) base =
      (BitVec.ofNat 64 num, (numeral base upcase num).length) := by
  have hrun := strtoull_digits (s := []) (a := 0) (i := 0) (by have := h.one_lt; omega)
    (numeral_accepts h upcase num)
  rw [List.append_nil, valueOf_numeral h, Nat.zero_add] at hrun
  exact hrun

/-- A sign is passed. -/
theorem strtoullLoop_sign {res : BitVec 64} {s : List (BitVec 8)}
    (h : ch = chr '-' ∨ ch = chr '+') :
    strtoullLoop (ch :: s) base res i = strtoullLoop s base res (i + 1) := by
  rw [strtoullLoop.eq_def]
  dsimp only
  rw [if_pos h]

/-- A numeral has no sign. -/
theorem minusFirst_of_accepts {s : List (BitVec 8)} (hs : ∀ ch ∈ s, accepts base ch) :
    minusFirst s = false := by
  cases s with
  | nil => rfl
  | cons ch s =>
      have hx := isxdigit_of_accepts (hs ch List.mem_cons_self)
      unfold minusFirst
      rw [not_isspace_of_isxdigit hx, if_neg Bool.false_ne_true, decide_eq_false_iff_not]
      exact fun h => not_sign_of_isxdigit hx (.inl h)

/-- A numeral has no terminator in it. -/
theorem nul_not_mem {s : List (BitVec 8)} (hs : ∀ ch ∈ s, accepts base ch) : 0 ∉ s := fun hin =>
  absurd (isxdigit_of_accepts (hs 0 hin)) (by decide)

/-- **A signed numeral read back**, with its sign. -/
theorem strtoll_signedNumeral {num : Int} (h : Readable base) (hnum : num.natAbs < 2 ^ 64) :
    strtoll (signedNumeral base upcase num) base =
      (BitVec.ofInt 64 num, (signedNumeral base upcase num).length) := by
  have hds := numeral_accepts h upcase num.natAbs
  unfold strtoll signedNumeral
  by_cases hneg : num < 0
  · have hread : strtoull (chr '-' :: numeral base upcase num.natAbs) base =
        (BitVec.ofNat 64 num.natAbs, (numeral base upcase num.natAbs).length + 1) := by
      have hrun := strtoull_digits (s := []) (a := 0) (i := 1) (by have := h.one_lt; omega) hds
      rw [List.append_nil, valueOf_numeral h] at hrun
      rw [strtoull, strtoullLoop_sign (.inl rfl), Nat.zero_add]
      rw [Nat.add_comm]
      exact hrun
    have hres : BitVec.ofNat 64 num.natAbs ≠ 0 := by
      intro hzero
      have := congrArg BitVec.toNat hzero
      rw [BitVec.toNat_ofNat, Nat.mod_eq_of_lt hnum] at this
      simp at this
      omega
    have hminus : minusFirst (chr '-' :: numeral base upcase num.natAbs) = true := rfl
    rw [if_pos hneg, List.singleton_append, hread]
    show (if _ then _ else if _ then _ else _) = _
    rw [if_neg hres, if_pos hminus, List.length_cons]
    congr 1
    obtain ⟨n, rfl⟩ : ∃ n : Nat, num = -(n : Int) := ⟨num.natAbs, by omega⟩
    rw [Int.natAbs_neg, Int.natAbs_natCast, ← BitVec.neg_ofNat_eq_ofInt_neg, BitVec.mul_neg]
    exact congrArg _ (BitVec.mul_one _)
  · rw [if_neg hneg, List.nil_append, strtoull_numeral h]
    show (if _ then _ else if _ then _ else _) = _
    rw [minusFirst_of_accepts hds, if_neg Bool.false_ne_true, ite_self]
    congr 1
    obtain ⟨n, rfl⟩ := Int.eq_ofNat_of_zero_le (Int.not_lt.mp hneg)
    rfl

/-- A magnitude has no more bits than the number. -/
theorem natAbs_toInt_lt {bits : Nat} (num : BitVec bits) : num.toInt.natAbs < 2 ^ bits := by
  by_cases hneg : num.toInt < 0
  · rw [natAbs_toInt hneg]
    exact (-num).isLt
  · rw [toInt_natAbs hneg]
    exact num.isLt

/-- A number in fewer bits. -/
theorem setWidth_ofInt (num : Int) : (BitVec.ofInt 64 num).setWidth 32 = BitVec.ofInt 32 num := by
  apply BitVec.eq_of_toNat_eq
  rw [BitVec.toNat_setWidth, BitVec.toNat_ofInt, BitVec.toNat_ofInt]
  omega

/-- A signed numeral is read back. -/
theorem strtol_signedNumeral (h : Readable base) (num : BitVec 32) :
    strtol (signedNumeral base upcase num.toInt) base =
      (num, (signedNumeral base upcase num.toInt).length) := by
  have hrange : num.toInt.natAbs < 2 ^ 64 := (natAbs_toInt_lt num).trans (by omega)
  unfold strtol
  rw [strtoll_signedNumeral h hrange]
  rw [setWidth_ofInt, BitVec.ofInt_toInt]

/-- A signed number of `bits` bits is a sign and as many digits, at most. -/
theorem signedNumeral_length_le {bits : Nat} (upcase : Bool) (hbase : 1 < base) (hbits : 0 < bits)
    (num : BitVec bits) :
    (signedNumeral base upcase num.toInt).length ≤ bits + 1 := by
  have hdigits := numeral_length_le upcase hbase hbits (natAbs_toInt_lt num)
  unfold signedNumeral
  rw [List.length_append]
  split
  · rw [List.length_singleton]
    omega
  · rw [List.length_nil]
    omega

/-- A formatter writes `text` to every array that has room for it and its terminator. -/
def Writes (format : Nat → Nat → (Nat → BitVec 8) → Except Fault (Nat → BitVec 8))
    (text : List (BitVec 8)) : Prop :=
  ∀ cap off str, off + text.length + 1 ≤ cap →
    ∃ out, format cap off str = .ok out ∧ Holds 0 out off text

/-- **Parsing undoes formatting**, and consumes the whole text. -/
theorem numbers_read_back (h : Readable base) (upcase : Bool) :
    (∀ num : BitVec 64, ∃ text, text.length ≤ 64 ∧
    Writes (fun cap off str => ltos cap off num str base upcase) text ∧
      strtoull text base = (num, text.length)) ∧
    (∀ num : BitVec 32, ∃ text, text.length ≤ 32 ∧
    Writes (fun cap off str => utos cap off num str base upcase) text ∧
      strtoul text base = (num, text.length)) ∧
    (∀ num : BitVec 32, ∃ text, text.length ≤ 33 ∧
    Writes (fun cap off str => itos cap off num str base upcase) text ∧
      strtol text base = (num, text.length)) := by
  have hbase := h.one_lt
  have hplain : ∀ num, 0 ∉ numeral base upcase num :=
    fun num => nul_not_mem (numeral_accepts h upcase num)
  refine ⟨fun num => ⟨numeral base upcase num.toNat,
      numeral_length_le upcase hbase (by omega) num.isLt, fun cap off str hroom => ?_, ?_⟩,
    fun num => ⟨numeral base upcase num.toNat, numeral_length_le upcase hbase (by omega) num.isLt,
      fun cap off str hroom => ?_, ?_⟩,
    fun num =>
      ⟨signedNumeral base upcase num.toInt, signedNumeral_length_le upcase hbase (by omega) num,
      fun cap off str hroom => ?_, strtol_signedNumeral h num⟩⟩
  · exact ⟨_, (ltos_eq hbase num).trans (if_pos hroom), holds_put 0 str off (hplain _)⟩
  · rw [strtoull_numeral h, BitVec.ofNat_toNat, BitVec.setWidth_eq]
  · exact ⟨_, (utos_eq hbase num).trans (if_pos hroom), holds_put 0 str off (hplain _)⟩
  · unfold strtoul
    rw [strtoull_numeral h]
    rw [BitVec.setWidth_ofNat_of_le (by omega), BitVec.ofNat_toNat, BitVec.setWidth_eq]
  · refine ⟨_, (itos_eq hbase num).trans (if_pos hroom), holds_put 0 str off fun hin => ?_⟩
    rcases List.mem_append.mp hin with hsign | hdigits
    · split at hsign
      · exact absurd (List.mem_singleton.mp hsign) (by decide)
      · exact List.not_mem_nil hsign
    · exact hplain _ hdigits

/-- The least number, of which the absolute value is not an `int`. -/
theorem numbers_read_back_least : ∃ text out,
    itos 34 0 0x80000000#32 (fun _ => 0) 10 false = .ok out ∧ Holds 0 out 0 text ∧
    strtol text 10 = (0x80000000#32, text.length) := by
  have hten : Readable 10 := .inl ⟨by decide, by decide⟩
  obtain ⟨text, hlen, hwrites, hread⟩ := (numbers_read_back hten false).2.2 0x80000000#32
  obtain ⟨out, hout, hholds⟩ := hwrites 34 0 (fun _ => 0) (by omega)
  exact ⟨text, out, hout, hholds, hread⟩

end Doors.Libcxx
