import Doors.Libcxx.Numerals

/-!
# Doors.Libcxx.Grammar

The numerals of C, and how far `strtoull` and `strtoll` follow them.

`Numeral base s neg v` is the grammar: white space, at most one sign, the prefix that
selects the base when `base` is 0, and digits smaller than the base.  A parser should
take the longest prefix of its input of that form (`Longest`).  The loop of `strtoull`
has no place in the grammar but only a value, so what follows the numeral can be read
as a part of it (`goesOn`).

* `loop_numeral` — the loop reads a numeral right, and stands behind it;
* `strtoull_grammar_iff` — the exact inputs on which parsers and grammar agree.
-/

namespace Doors.Libcxx

open Run Cells Text

/-! ## the grammar -/

/-- The value of a digit, in any base up to 16. -/
def digitValue (ch : BitVec 8) : Option Nat :=
  if 0x30 ≤ ch.toNat ∧ ch.toNat ≤ 0x39 then some (ch.toNat - 0x30)
  else if 0x61 ≤ ch.toNat ∧ ch.toNat ≤ 0x66 then some (ch.toNat - 0x61 + 10)
  else if 0x41 ≤ ch.toNat ∧ ch.toNat ≤ 0x46 then some (ch.toNat - 0x41 + 10)
  else none

/-- A digit smaller than the base. -/
def IsDigit (base : Nat) (ch : BitVec 8) (d : Nat) : Prop := digitValue ch = some d ∧ d < base

/-- Digits of a base, and the number that they stand for. -/
inductive Digits (base : Nat) : List (BitVec 8) → Nat → Prop
  | one {ch d} : IsDigit base ch d → Digits base [ch] d
  | snoc {ds v ch d} : Digits base ds v → IsDigit base ch d →
    Digits base (ds ++ [ch]) (v * base + d)

/-- The digits of a numeral with their prefix: `base` is the argument of the parser and
`b` the base that it selects. -/
inductive Body : Nat → Nat → List (BitVec 8) → Nat → Prop
  | plain {base ds v} : base ≠ 0 → Digits base ds v → Body base base ds v
  | hex {x ds v} : x = chr 'x' ∨ x = chr 'X' → Digits 16 ds v → Body 0 16 (chr '0' :: x :: ds) v
  | zero : Body 0 8 [chr '0'] 0
  | octal {ds v} : Digits 8 ds v → Body 0 8 (chr '0' :: ds) v
  | decimal {ch ds v} : ch ≠ chr '0' → Digits 10 (ch :: ds) v → Body 0 10 (ch :: ds) v

/-- A sign, or none. -/
inductive Sign : List (BitVec 8) → Bool → Prop
  | none : Sign [] false
  | plus : Sign [chr '+'] false
  | minus : Sign [chr '-'] true

/-- White space, a sign and digits. -/
inductive Numeral (base : Nat) : List (BitVec 8) → Bool → Nat → Prop
  | mk {w sign ds neg b v} : (∀ ch ∈ w, isspace ch) → Sign sign neg → Body base b ds v →
    Numeral base (w ++ sign ++ ds) neg v

/-- The longest numeral that `s` begins with. -/
structure Longest (base : Nat) (s : List (BitVec 8)) (n : Nat) (neg : Bool) (v : Nat) : Prop where
  within : n ≤ s.length
  numeral : Numeral base (s.take n) neg v
  longest : ∀ m neg' v', m ≤ s.length → Numeral base (s.take m) neg' v' → m ≤ n

/-- The number of a sign and digits. -/
def signed (neg : Bool) (v : Nat) : Int := if neg then -v else v

/-! ## what the loop does instead -/

/-- The characters that the loop passes while its value is 0. -/
def passes (ch : BitVec 8) : Bool := ch = chr '-' || ch = chr '+' || isspace ch

/-- What the loop goes on to read behind a numeral of value `v`: a sign, a decimal digit
(too large for the base), and white space while the value is 0. -/
def readsMore (v : Nat) (ch : BitVec 8) : Bool :=
  ch = chr '-' || ch = chr '+' || isdigit ch || isspace ch && v = 0

/-- Whether the loop reads on behind the numeral of `n` characters and value `v`; an `x`
behind a lone `0` selects the base. -/
def goesOn (base : Nat) (s : List (BitVec 8)) (n v : Nat) : Bool :=
  match s[n]? with
  | none => false
  | some ch => readsMore v ch ||
      base = 0 && (ch = chr 'x' || ch = chr 'X') && (s.take n).dropWhile passes = [chr '0']

/-- Whether the loop passes the first character. -/
def begins : List (BitVec 8) → Bool
  | [] => false
  | ch :: _ => passes ch || isdigit ch

variable {base b n v d i : Nat} {neg : Bool} {ch : BitVec 8} {s ds sign ws rest : List (BitVec 8)}

/-! ## digits -/

/-- Values of digits, character by character. -/
theorem digitValue_spec : ∀ k : Fin 256, ∀ d, digitValue (BitVec.ofFin k) = some d →
    digitOf (BitVec.ofFin k) = d ∧ isxdigit (BitVec.ofFin k) = true ∧
      (d < 10 → isdigit (BitVec.ofFin k) = true) := by
  intro k d h
  have hall : ∀ k : Fin 256, ∀ d ∈ digitValue (BitVec.ofFin k),
      digitOf (BitVec.ofFin k) = d ∧ isxdigit (BitVec.ofFin k) = true ∧
        (d < 10 → isdigit (BitVec.ofFin k) = true) := by decide +kernel
  exact hall k d h

/-- A decimal digit has a value below 10. -/
theorem isdigit_value : isdigit ch → ∃ d, d < 10 ∧ digitValue ch = some d := by
  intro h
  simp only [isdigit, Bool.and_eq_true, decide_eq_true_eq] at h
  exact ⟨ch.toNat - 0x30, by omega, if_pos h⟩

/-- A hexadecimal digit has a value. -/
theorem isxdigit_value (h : isxdigit ch) : ∃ d, IsDigit 16 ch d := by
  simp only [isxdigit, isdigit, Bool.or_eq_true, Bool.and_eq_true, decide_eq_true_eq] at h
  unfold IsDigit digitValue
  rcases h with (h | h) | h
  · exact ⟨_, if_pos h, by omega⟩
  · exact ⟨_, by rw [if_neg (by omega), if_neg (by omega), if_pos h], by omega⟩
  · exact ⟨_, by rw [if_neg (by omega), if_pos h], by omega⟩

/-- The value that the loop computes. -/
theorem IsDigit.digitOf_eq (h : IsDigit base ch d) : digitOf ch = d :=
  (digitValue_spec ch.toFin d h.1).1

/-- A digit is a hexadecimal digit. -/
theorem IsDigit.xdigit (h : IsDigit base ch d) : isxdigit ch = true :=
  (digitValue_spec ch.toFin d h.1).2.1

/-- A digit of the base is accepted. -/
theorem IsDigit.accepts (h : IsDigit base ch d) (hbase : Readable base) :
    accepts base ch = true := by
  obtain ⟨-, hx, hd⟩ := digitValue_spec ch.toFin d h.1
  have hlt := h.2
  unfold Libcxx.accepts
  rcases hbase with hbase | hbase
  · rw [if_pos (by omega)]
    exact hd (by omega)
  · rw [if_neg (by omega)]
    exact hx

/-- All characters are digits. -/
theorem Digits.all (h : Digits base ds v) : ∀ ch ∈ ds, ∃ d, IsDigit base ch d := by
  induction h with
  | one hd => exact fun ch hch => ⟨_, List.mem_singleton.mp hch ▸ hd⟩
  | snoc _ hd ih =>
      intro ch hch
      rcases List.mem_append.mp hch with hin | hlast
      · exact ih ch hin
      · exact ⟨_, List.mem_singleton.mp hlast ▸ hd⟩

/-- The grammar's number is the loop's. -/
theorem Digits.value (h : Digits base ds v) : valueOf base 0 ds = v := by
  induction h with
  | one hd =>
      unfold valueOf
      rw [List.foldl_cons, List.foldl_nil, Nat.zero_mul, Nat.zero_add, hd.digitOf_eq]
  | snoc _ hd ih =>
      unfold valueOf at ih ⊢
      rw [List.foldl_append, ih, List.foldl_cons, List.foldl_nil, hd.digitOf_eq]

/-- There is a digit. -/
theorem Digits.ne_nil (h : Digits base ds v) : ds ≠ [] := by
  cases h with
  | one _ => exact List.cons_ne_nil _ _
  | snoc _ _ => exact List.append_ne_nil_of_right_ne_nil _ (List.cons_ne_nil _ _)

/-- A zero in front changes nothing. -/
theorem Digits.cons_zero (h : Digits base ds v) (hbase : 0 < base) :
    Digits base (chr '0' :: ds) v := by
  have hzero : IsDigit base (chr '0') 0 := ⟨by decide, hbase⟩
  induction h with
  | one hd => simpa using (Digits.one hzero).snoc hd
  | snoc _ hd ih => exact ih.snoc hd

/-! ## numerals -/

/-- The first character is a digit. -/
theorem Digits.head (h : Digits base ds v) : ∃ ch ds', ds = ch :: ds' ∧ isxdigit ch = true := by
  cases ds with
  | nil => exact absurd rfl h.ne_nil
  | cons ch ds' =>
      obtain ⟨d, hd⟩ := h.all ch List.mem_cons_self
      exact ⟨ch, ds', rfl, hd.xdigit⟩

/-- The base that is selected can be read. -/
theorem Body.readable (h : Body base b ds v) (hbase : base = 0 ∨ Readable base) : Readable b := by
  cases h with
  | plain hne _ => exact hbase.resolve_left hne
  | hex _ _ => exact .inr rfl
  | zero => exact .inl ⟨by decide, by decide⟩
  | octal _ => exact .inl ⟨by decide, by decide⟩
  | decimal _ _ => exact .inl ⟨by decide, by decide⟩

/-- One more digit. -/
theorem Body.snoc (h : Body base b ds v) (hd : IsDigit b ch d) :
    Body base b (ds ++ [ch]) (v * b + d) := by
  cases h with
  | plain hne hds => exact .plain hne (hds.snoc hd)
  | hex hx hds => exact .hex hx (hds.snoc hd)
  | zero => simpa using Body.octal (.one hd)
  | octal hds => exact .octal (hds.snoc hd)
  | decimal hne hds => exact .decimal hne (hds.snoc hd)

/-- A numeral begins with a digit. -/
theorem Body.head (h : Body base b ds v) : ∃ ch ds', ds = ch :: ds' ∧ isxdigit ch = true := by
  cases h with
  | plain _ hds => exact hds.head
  | hex _ _ => exact ⟨_, _, rfl, by decide⟩
  | zero => exact ⟨_, _, rfl, by decide⟩
  | octal _ => exact ⟨_, _, rfl, by decide⟩
  | decimal _ hds => exact hds.head

/-- A sign is skipped. -/
theorem Sign.passes (h : Sign sign neg) : ∀ ch ∈ sign, passes ch = true := by
  cases h with
  | none => exact fun ch hch => absurd hch List.not_mem_nil
  | plus => exact fun ch hch => List.mem_singleton.mp hch ▸ by decide
  | minus => exact fun ch hch => List.mem_singleton.mp hch ▸ by decide

/-- White space is skipped. -/
theorem passes_of_isspace (h : isspace ch = true) : passes ch = true := by simp [passes, h]

/-- A digit is not skipped. -/
theorem not_passes_of_isxdigit (h : isxdigit ch = true) : passes ch = false := by
  have hsign := not_sign_of_isxdigit h
  rw [not_or] at hsign
  simp [passes, hsign.1, hsign.2, not_isspace_of_isxdigit h]

/-- What is before the digits. -/
theorem lead_passes (hws : ∀ ch ∈ ws, isspace ch = true) (hsign : Sign sign neg) :
    ∀ ch ∈ ws ++ sign, passes ch = true := by
  intro ch hch
  rcases List.mem_append.mp hch with h | h
  · exact passes_of_isspace (hws ch h)
  · exact hsign.passes ch h

/-! ## the loop -/

variable {res : BitVec 64}

/-- Signs and white space are passed while the value is 0. -/
theorem strtoullLoop_passes (h : passes ch = true) :
    strtoullLoop (ch :: s) base 0 i = strtoullLoop s base 0 (i + 1) := by
  by_cases hsign : ch = chr '-' ∨ ch = chr '+'
  · exact strtoullLoop_sign hsign
  · have hspace : isspace ch = true := by
      rw [not_or] at hsign
      simpa [passes, hsign.1, hsign.2] using h
    rw [strtoullLoop.eq_def]
    dsimp only
    rw [if_neg hsign, if_pos ⟨hspace, rfl⟩]

/-- What comes before the digits is skipped. -/
theorem strtoullLoop_lead (h : ∀ ch ∈ ws, passes ch = true) :
    strtoullLoop (ws ++ s) base 0 i = strtoullLoop s base 0 (i + ws.length) := by
  induction ws generalizing i with
  | nil => rfl
  | cons ch ws ih =>
      rw [List.cons_append, strtoullLoop_passes (h ch List.mem_cons_self),
        ih fun ch hch => h ch (List.mem_cons_of_mem _ hch),
        List.length_cons, show i + 1 + ws.length = i + (ws.length + 1) by omega]

/-- The end never moves back. -/
theorem strtoullLoop_end : i ≤ (strtoullLoop s base res i).2 := by
  fun_induction strtoullLoop s base res i <;> omega

/-- A zero in base 0 selects octal, unless an `x` follows. -/
theorem strtoullLoop_zero (h : ∀ x s', s = x :: s' → ¬ (x = chr 'x' ∨ x = chr 'X')) :
    strtoullLoop (chr '0' :: s) 0 0 i = strtoullLoop s 8 0 (i + 1) := by
  rw [strtoullLoop.eq_def]
  cases s with
  | nil => rfl
  | cons x s' =>
      have hx := h x s' rfl
      dsimp only
      rw [if_neg (by decide), if_neg (by decide), if_pos ⟨rfl, rfl, rfl⟩, if_neg hx]

/-- An `x` behind it selects hexadecimal. -/
theorem strtoullLoop_hex {x : BitVec 8} (hx : x = chr 'x' ∨ x = chr 'X') :
    strtoullLoop (chr '0' :: x :: s) 0 0 i = strtoullLoop s 16 0 (i + 2) := by
  rw [strtoullLoop.eq_def]
  dsimp only
  rw [if_neg (by decide), if_neg (by decide), if_pos ⟨rfl, rfl, rfl⟩, if_pos hx]

/-- Any other digit selects decimal. -/
theorem strtoullLoop_decimal (hdigit : isdigit ch = true) (hne : ch ≠ chr '0') :
    strtoullLoop (ch :: s) 0 0 i = strtoullLoop (ch :: s) 10 0 i := by
  have hx : isxdigit ch = true := by simp [isxdigit, hdigit]
  have hspace : ¬ (isspace ch = true ∧ (0 : BitVec 64) = 0) :=
    fun hs => absurd hs.1 (by rw [not_isspace_of_isxdigit hx]; exact Bool.false_ne_true)
  have haccepts : accepts 10 ch = true := hdigit
  rw [strtoullLoop_accept (Nat.succ_ne_zero 9) haccepts, strtoullLoop.eq_def]
  dsimp only
  rw [if_neg (not_sign_of_isxdigit hx), if_neg hspace, if_neg fun hzero => hne hzero.2.2,
    if_neg (show ¬ ¬ (if 0 ≠ 16 then isdigit ch else isxdigit ch) = true from not_not_intro hdigit)]
  rfl

/-- The digits of a numeral, read with the base that they select. -/
theorem loop_body (h : Body base b ds v) (hbase : base = 0 ∨ Readable base)
    (hx : base = 0 → ds = [chr '0'] → ∀ x rest', rest = x :: rest' →
    ¬ (x = chr 'x' ∨ x = chr 'X')) :
    strtoullLoop (ds ++ rest) base 0 i = strtoullLoop rest b (BitVec.ofNat 64 v)
      (i + ds.length) := by
  have hb := h.readable hbase
  have hdigits : ∀ {ds v i}, Digits b ds v → strtoullLoop (ds ++ rest) b 0 i =
      strtoullLoop rest b (BitVec.ofNat 64 v) (i + ds.length) := by
    intro ds v i hds
    have hrun :=
      strtoull_digits (s := rest) (a := 0) (i := i) (Nat.ne_of_gt (Nat.lt_of_succ_lt hb.one_lt))
      fun ch hch => (hds.all ch hch).elim fun _ hd => hd.accepts hb
    rwa [hds.value] at hrun
  cases h with
  | plain _ hds => exact hdigits hds
  | hex hsel hds =>
      rw [List.cons_append, List.cons_append, strtoullLoop_hex hsel, hdigits hds, List.length_cons,
        List.length_cons]
      congr 1
      omega
  | zero =>
      rw [List.cons_append, List.nil_append, strtoullLoop_zero (hx rfl rfl)]
      rfl
  | octal hds =>
      rw [List.cons_append, strtoullLoop_zero, hdigits hds, List.length_cons]
      · congr 1
        omega
      · intro x s' hs
        obtain ⟨ch, ds', rfl, hxd⟩ := hds.head
        obtain ⟨rfl, -⟩ := List.cons.inj hs
        rintro (rfl | rfl)
        · exact absurd hxd (by decide)
        · exact absurd hxd (by decide)
  | decimal hne hds =>
      obtain ⟨d, hd⟩ := hds.all _ List.mem_cons_self
      have hdigit := hd.accepts hb
      rw [accepts, if_pos (by decide)] at hdigit
      rw [List.cons_append, strtoullLoop_decimal hdigit hne, ← List.cons_append, hdigits hds]

/-! ## the longest numeral -/

/-- The parts of a numeral. -/
theorem Numeral.parts {p : List (BitVec 8)} (h : Numeral base p neg v) :
    ∃ ws sign ds b, p = ws ++ sign ++ ds ∧ (∀ ch ∈ ws, isspace ch = true) ∧ Sign sign neg ∧
      Body base b ds v := by
  cases h with
  | mk hws hsign hds => exact ⟨_, _, _, _, rfl, hws, hsign, hds⟩

/-- The text around the longest numeral: no digit of its base follows. -/
theorem Longest.parts (h : Longest base s n neg v) :
    ∃ ws sign ds b rest, s = ws ++ sign ++ ds ++ rest ∧ (ws ++ sign ++ ds).length = n ∧
    (∀ ch ∈ ws, isspace ch = true) ∧ Sign sign neg ∧ Body base b ds v ∧ ∀ ch rest' d,
      rest = ch :: rest' → ¬ IsDigit b ch d := by
  obtain ⟨ws, sign, ds, b, htake, hws, hsign, hds⟩ := h.numeral.parts
  have hn : (ws ++ sign ++ ds).length = n := by
    rw [← htake, List.length_take, Nat.min_eq_left h.within]
  refine ⟨ws, sign, ds, b, s.drop
    n, by rw [← htake, List.take_append_drop], hn, hws, hsign, hds, fun ch rest' d hrest hd => ?_⟩
  have hlonger : s.take (n + 1) = ws ++ sign ++ (ds ++ [ch]) := by
    rw [List.take_add, htake, hrest, ← List.append_assoc]
    rfl
  have hlen : n < s.length := by
    have := congrArg List.length hrest
    rw [List.length_drop, List.length_cons] at this
    omega
  have hnumeral := Numeral.mk hws hsign (hds.snoc hd)
  rw [← hlonger] at hnumeral
  exact Nat.not_succ_le_self n (h.longest (n + 1) neg _ hlen hnumeral)

/-- The second scan finds the sign of a numeral. -/
theorem minusFirst_numeral (hws : ∀ ch ∈ ws, isspace ch = true) (hsign : Sign sign neg)
    (hds : Body base b ds v) :
    minusFirst (ws ++ sign ++ ds ++ rest) = neg := by
  induction ws with
  | nil =>
      cases hsign with
      | none =>
          obtain ⟨ch, ds', rfl, hx⟩ := hds.head
          have hminus : ch ≠ chr '-' := fun heq => not_sign_of_isxdigit hx (.inl heq)
          show (if _ then _ else _) = _
          rw [not_isspace_of_isxdigit hx, if_neg Bool.false_ne_true, decide_eq_false hminus]
      | plus => rfl
      | minus => rfl
  | cons ch ws ih =>
      show (if _ then _ else _) = _
      rw [if_pos (hws ch List.mem_cons_self)]
      exact ih fun ch hch => hws ch (List.mem_cons_of_mem _ hch)

/-- The second parser is right where the first one is. -/
theorem strtoll_numeral (hws : ∀ ch ∈ ws, isspace ch = true) (hsign : Sign sign neg)
    (hds : Body b base ds v)
    (h : strtoull (ws ++ sign ++ ds ++ rest) i = (BitVec.ofNat 64 v, n)) :
    strtoll (ws ++ sign ++ ds ++ rest) i = (BitVec.ofInt 64 (signed neg v), n) := by
  unfold strtoll signed
  rw [h, minusFirst_numeral hws hsign hds]
  show (if _ then _ else _) = _
  by_cases hneg : neg = true
  · rw [hneg, if_pos rfl, if_pos rfl, ← BitVec.neg_ofNat_eq_ofInt_neg, BitVec.mul_neg]
    split
    · next hzero => rw [hzero]; rfl
    · exact congrArg (fun x => (-x, _)) (BitVec.mul_one _)
  · rw [if_neg hneg, if_neg hneg, ite_self]
    rfl

/-- Without its sign and white space, a numeral is its digits. -/
theorem dropWhile_numeral (hws : ∀ ch ∈ ws, isspace ch = true) (hsign : Sign sign neg)
    (hds : Body base b ds v) :
    (ws ++ sign ++ ds).dropWhile passes = ds := by
  have hlead := lead_passes hws hsign
  obtain ⟨ch, ds', rfl, hx⟩ := hds.head
  rw [List.dropWhile_append_of_pos hlead, List.dropWhile_cons_of_neg
    (by rw [not_passes_of_isxdigit hx]; exact Bool.false_ne_true)]

/-- **A numeral is read right**, and the loop stands behind it with its base, unless
the numeral is a lone `0` before an `x`. -/
theorem loop_numeral (rest : List (BitVec 8)) (hbase : base = 0 ∨ Readable base)
    (hws : ∀ ch ∈ ws, isspace ch = true) (hsign : Sign sign neg) (hds : Body base b ds v)
    (hx : base = 0 → ds = [chr '0'] → ∀ x rest', rest = x :: rest' →
    ¬ (x = chr 'x' ∨ x = chr 'X')) :
    strtoull (ws ++ sign ++ ds ++ rest) base =
      strtoullLoop rest b (BitVec.ofNat 64 v) (ws ++ sign ++ ds).length := by
  rw [strtoull, List.append_assoc (ws ++ sign), strtoullLoop_lead (lead_passes hws hsign),
    loop_body hds hbase hx, Nat.zero_add,
    ← List.length_append]

/-- A decimal digit is a hexadecimal digit. -/
theorem isxdigit_of_isdigit (h : isdigit ch = true) : isxdigit ch = true := by simp [isxdigit, h]

/-- It moves its end behind such a character. -/
theorem loop_readsMore (hb : Readable b) (h : readsMore v ch = true) :
    i < (strtoullLoop (ch :: s) b (BitVec.ofNat 64 v) i).2 := by
  have hb0 : b ≠ 0 := Nat.ne_of_gt (Nat.lt_of_succ_lt hb.one_lt)
  simp only [readsMore, Bool.or_eq_true, Bool.and_eq_true, decide_eq_true_eq] at h
  rcases h with (hsign | hdigit) | ⟨hspace, rfl⟩
  · rw [strtoullLoop_sign hsign]
    exact strtoullLoop_end
  · have haccepts : accepts b ch = true := by
      unfold accepts
      split
      · exact hdigit
      · exact isxdigit_of_isdigit hdigit
    rw [strtoullLoop_accept hb0 haccepts]
    exact strtoullLoop_end
  · have hpass : strtoullLoop (ch :: s) b (BitVec.ofNat 64 0) i = _ :=
      strtoullLoop_passes (passes_of_isspace hspace)
    rw [hpass]
    exact strtoullLoop_end

/-- It stops at any other character that is no digit of its base. -/
theorem loop_stops (hb : Readable b) (hv : v < 2 ^ 64) (hdigit : ∀ d, ¬ IsDigit b ch d)
    (h : readsMore v ch = false) :
    strtoullLoop (ch :: s) b (BitVec.ofNat 64 v) i = (BitVec.ofNat 64 v, i) := by
  have hb0 : b ≠ 0 := Nat.ne_of_gt (Nat.lt_of_succ_lt hb.one_lt)
  simp only [readsMore, Bool.or_eq_false_iff, Bool.and_eq_false_iff, decide_eq_false_iff_not] at h
  obtain ⟨⟨hsign, hdec⟩, hspace⟩ := h
  have hzero : BitVec.ofNat 64 v = 0 → v = 0 := by
    intro heq
    have := congrArg BitVec.toNat heq
    rwa [BitVec.toNat_ofNat, Nat.mod_eq_of_lt hv] at this
  have hno : ¬ (if b ≠ 16 then isdigit ch else isxdigit ch) = true := by
    split
    · rw [hdec]
      exact Bool.false_ne_true
    · next h16 =>
        intro hx
        obtain ⟨d, hd⟩ := isxdigit_value hx
        rw [not_not.mp h16] at hdigit
        exact hdigit d hd
  rw [strtoullLoop.eq_def]
  dsimp only
  rw [if_neg (not_or.mpr hsign), if_neg, if_neg fun h0 => hb0 h0.1, if_pos hno]
  rintro ⟨hsp, h0⟩
  rcases hspace with hspace | hspace
  · rw [hsp] at hspace
    contradiction
  · exact hspace (hzero h0)

/-- **The exact inputs** on which both parsers take the longest numeral and no more. -/
theorem takes_numeral_iff (hbase : base = 0 ∨ Readable base) (h : Longest base s n neg v)
    (hv : v < 2 ^ 64) :
    (strtoull s base = (BitVec.ofNat 64 v, n) ∧
      strtoll s base = (BitVec.ofInt 64 (signed neg v), n)) ↔ goesOn base s n v = false := by
  obtain ⟨ws, sign, ds, b, rest, rfl, rfl, hws, hsign, hds, hnext⟩ := h.parts
  have hdrop := dropWhile_numeral hws hsign hds
  have hb := hds.readable hbase
  suffices hfirst : strtoull (ws ++ sign ++ ds ++ rest) base =
    (BitVec.ofNat 64 v, (ws ++ sign ++ ds).length) ↔
      goesOn base (ws ++ sign ++ ds ++ rest) (ws ++ sign ++ ds).length v = false from
    ⟨fun hboth => hfirst.mp hboth.1, fun hgo =>
      ⟨hfirst.mpr hgo, strtoll_numeral hws hsign hds (hfirst.mpr hgo)⟩⟩
  cases rest with
  | nil =>
      rw [loop_numeral [] hbase hws hsign hds fun _ _ x rest' hnil =>
        absurd hnil (List.cons_ne_nil _ _).symm]
      refine iff_of_true rfl ?_
      unfold goesOn
      rw [List.append_nil, List.getElem?_eq_none (Nat.le_refl _)]
  | cons ch rest =>
      have hat : (ws ++ sign ++ ds ++ ch :: rest)[(ws ++ sign ++ ds).length]? = some ch := by
        rw [List.getElem?_append_right (Nat.le_refl _), Nat.sub_self]
        rfl
      unfold goesOn
      rw [hat, List.take_left, hdrop]
      dsimp only
      by_cases hlone : base = 0 ∧ ds = [chr '0'] ∧ (ch = chr 'x' ∨ ch = chr 'X')
      · -- the loop takes `0x` for a prefix
        obtain ⟨rfl, rfl, hx⟩ := hlone
        refine iff_of_false (fun heq => ?_) ?_
        · have hend : (ws ++ sign ++ [chr '0']).length <
              (strtoull (ws ++ sign ++ [chr '0'] ++ ch :: rest) 0).2 := by
            have hlen : (ws ++ sign ++ [chr '0']).length = (ws ++ sign).length + 1 :=
              List.length_append
            rw [strtoull, List.append_assoc (ws ++ sign), strtoullLoop_lead (lead_passes hws hsign),
              List.singleton_append,
              strtoullLoop_hex hx, hlen]
            refine Nat.lt_of_lt_of_le ?_ strtoullLoop_end
            omega
          rw [heq] at hend
          exact Nat.lt_irrefl _ hend
        · rcases hx with rfl | rfl
          · simp
          · simp
      · have hplain : base = 0 → ds = [chr '0'] → ∀ x rest', ch :: rest = x :: rest' →
            ¬ (x = chr 'x' ∨ x = chr 'X') := by
          intro h0 hd0 x rest' hcons hx
          obtain ⟨rfl, -⟩ := List.cons.inj hcons
          exact hlone ⟨h0, hd0, hx⟩
        have hnot : (decide (base = 0) && (decide (ch = chr 'x') || decide (ch = chr 'X')) &&
            decide (ds = [chr '0'])) = false := by
          rw [Bool.eq_false_iff]
          intro hall
          simp only [Bool.and_eq_true, Bool.or_eq_true, decide_eq_true_eq] at hall
          exact hlone ⟨hall.1.1, hall.2, hall.1.2⟩
        rw [hnot, Bool.or_false, loop_numeral (ch :: rest) hbase hws hsign hds hplain]
        cases hmore : readsMore v ch with
        | false => exact iff_of_true (loop_stops hb hv (fun d => hnext ch rest d rfl) hmore) rfl
        | true =>
            refine iff_of_false (fun heq => ?_) Bool.noConfusion
            have hend := loop_readsMore (i := (ws ++ sign ++ ds).length) (s := rest) hb hmore
            rw [heq] at hend
            exact Nat.lt_irrefl _ hend

/-- **Without a numeral**, both parsers stay at the start exactly when the loop does not
pass the first character. -/
theorem takes_nothing_iff (hbase : base = 0 ∨ Readable base)
    (h : ∀ n neg v, ¬ Numeral base (s.take n) neg v) :
    (strtoull s base = (0, 0) ∧ strtoll s base = (0, 0)) ↔ begins s = false := by
  have hsecond : strtoull s base = (0, 0) → strtoll s base = (0, 0) := by
    intro heq
    unfold strtoll
    rw [heq]
    rfl
  suffices hfirst : strtoull s base = (0, 0) ↔ begins s = false from
    ⟨fun hboth => hfirst.mp hboth.1, fun hb => ⟨hfirst.mpr hb, hsecond (hfirst.mpr hb)⟩⟩
  cases s with
  | nil => exact iff_of_true rfl rfl
  | cons ch s =>
      -- one digit would be a numeral
      have hno : ∀ b d, ¬ Body base b [ch] d := fun b d hd =>
        h 1 false d (Numeral.mk (w := []) (fun _ hin => absurd hin List.not_mem_nil) .none hd)
      have hbegins : begins (ch :: s) = (passes ch || isdigit ch) := rfl
      rw [hbegins]
      cases hpass : passes ch with
      | true =>
          refine iff_of_false (fun heq => ?_) Bool.noConfusion
          have hend : 0 < (strtoull (ch :: s) base).2 := by
            rw [strtoull, strtoullLoop_passes hpass]
            exact strtoullLoop_end
          rw [heq] at hend
          exact Nat.lt_irrefl _ hend
      | false =>
          cases hdigit : isdigit ch with
          | true =>
              obtain ⟨d, hd, hvalue⟩ := isdigit_value hdigit
              rcases hbase with rfl | hbase
              · -- every decimal digit is a numeral of base 0
                by_cases hzero : ch = chr '0'
                · exact absurd (hzero ▸ Body.zero) (hno _ _)
                · exact absurd (.decimal hzero (.one ⟨hvalue, hd⟩)) (hno _ _)
              · refine iff_of_false (fun heq => ?_) Bool.noConfusion
                have hend : 0 < (strtoull (ch :: s) base).2 :=
                  loop_readsMore (v := 0) hbase (by simp [readsMore, hdigit])
                rw [heq] at hend
                exact Nat.lt_irrefl _ hend
          | false =>
              refine iff_of_true ?_ rfl
              simp only [passes, Bool.or_eq_false_iff, decide_eq_false_iff_not] at hpass
              have hzero : ch ≠ chr '0' := by
                rintro rfl
                exact absurd hdigit (by decide)
              have hstop : ¬ (if base ≠ 16 then isdigit ch else isxdigit ch) = true := by
                split
                · rw [hdigit]
                  exact Bool.false_ne_true
                · next h16 =>
                    intro hx
                    obtain ⟨d, hd⟩ := isxdigit_value hx
                    rw [not_not.mp h16] at hno
                    exact hno 16 d (.plain (by decide) (.one hd))
              rw [strtoull, strtoullLoop.eq_def]
              dsimp only
              rw [if_neg (not_or.mpr hpass.1),
                if_neg fun hsp => by rw [hpass.2] at hsp; exact Bool.false_ne_true hsp.1,
                if_neg fun h0 => hzero h0.2.2, if_pos hstop]

/-- Some numeral is the longest one. -/
theorem exists_longest (h : Numeral base (s.take n) neg v) : ∃ n neg v, Longest base s n neg v := by
  by_contra hno
  -- without a longest one, there is one of every length
  have hall : ∀ k, ∃ m neg v, k ≤ m ∧ m ≤ s.length ∧ Numeral base (s.take m) neg v := by
    intro k
    induction k with
    | zero =>
        rcases Nat.le_total n s.length with hle | hle
        · exact ⟨n, neg, v, Nat.zero_le n, hle, h⟩
        · rw [List.take_of_length_le hle, ← List.take_length (l := s)] at h
          exact ⟨s.length, neg, v, Nat.zero_le _, Nat.le_refl _, h⟩
    | succ k ih =>
        obtain ⟨m, neg, v, hk, hm, hnum⟩ := ih
        by_contra hshort
        refine hno ⟨m, neg, v, hm, hnum, fun m' neg' v' hm' hnum' => ?_⟩
        by_contra hlt
        exact hshort ⟨m', neg', v', by omega, hm', hnum'⟩
  obtain ⟨m, _, _, hlong, hm, -⟩ := hall (s.length + 1)
  omega

/-- **The grammar and the parsers**: which inputs both take alike.  A numeral that is not
too large is taken exactly when the loop does not go on behind it, and where there is no
numeral, nothing is taken exactly when the loop does not begin. -/
theorem strtoull_grammar_iff (hbase : base = 0 ∨ Readable base) (s : List (BitVec 8)) :
    (∀ n neg v, Longest base s n neg v → v < 2 ^ 64 →
      ((strtoull s base = (BitVec.ofNat 64 v, n) ∧
          strtoll s base = (BitVec.ofInt 64 (signed neg v), n)) ↔ goesOn base s n v = false)) ∧
    ((∀ n neg v, ¬ Longest base s n neg v) →
      ((strtoull s base = (0, 0) ∧ strtoll s base = (0, 0)) ↔ begins s = false)) :=
  ⟨fun _ _ _ h hv => takes_numeral_iff hbase h hv,
    fun hno => takes_nothing_iff hbase fun _ _ _ hnum => (exists_longest hnum).elim fun n hn =>
      hn.elim fun neg hneg => hneg.elim fun v => hno n neg v⟩

/-- Base 8 takes the `9` of `79`. -/
theorem longest_octal : Longest 8 [chr '7', chr '9'] 1 false 7 := by
  have hseven : Numeral 8 [chr '7'] false 7 :=
    .mk (w := []) (fun _ hin => absurd hin List.not_mem_nil) .none
      (.plain (by decide) (.one ⟨by decide, by decide⟩))
  refine ⟨by decide, hseven, fun m neg' v' hm hnum => ?_⟩
  by_contra hlt
  obtain rfl : m = 2 := by
    have : m ≤ 2 := hm
    omega
  obtain ⟨ws, sign, ds, b, htake, -, -, hds⟩ := hnum.parts
  cases hds with
  | plain _ hds =>
      -- the last character would be a digit
      obtain hnil | ⟨ds', ch, rfl⟩ := List.eq_nil_or_concat' ds
      · exact hds.ne_nil hnil
      · obtain ⟨d, hd⟩ := hds.all ch (List.mem_append_right _ (List.mem_singleton_self ch))
        have hsplit : [chr '7'] ++ [chr '9'] = (ws ++ sign ++ ds') ++ [ch] :=
          htake.trans (List.append_assoc _ _ _).symm
        obtain ⟨-, hlast⟩ := List.append_inj' hsplit rfl
        rw [← List.singleton_inj.mp hlast] at hd
        exact absurd hd.2 (by rw [← Option.some.inj hd.1]; decide)

/-- The digit 9 is not octal, and is read. -/
theorem strtoull_grammar_iff_octal :
    ¬ (strtoull [chr '7', chr '9'] 8 = (7, 1) ∧ strtoll [chr '7', chr '9'] 8 = (7, 1)) := by
  have hbase : Readable 8 := .inl ⟨by decide, by decide⟩
  intro htakes
  exact absurd
    (((strtoull_grammar_iff (.inr hbase) [chr '7', chr '9']).1 1 false 7 longest_octal
      (by decide)).mp htakes) (by decide)

/-- The parsers read 65 from it, and both characters. -/
theorem grammar_broken : Longest 8 [chr '7', chr '9'] 1 false 7 ∧
    strtoull [chr '7', chr '9'] 8 = (65, 2) ∧
    strtoll [chr '7', chr '9'] 8 = (65, 2) :=
  ⟨longest_octal, by decide, by decide⟩

end Doors.Libcxx
