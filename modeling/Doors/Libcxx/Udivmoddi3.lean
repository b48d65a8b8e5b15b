import Mathlib.Data.BitVec
import Mathlib.Tactic.Ring

/-!
# Doors.Libcxx.Udivmoddi3

The 64-bit division routines that the compiler calls for every `/` and `%` on
64-bit operands (`libc++/stdlib/udivmoddi3.cc`).

A quotient of two 32-bit halves is computed natively when possible, and
everything else by shift-and-subtract.

* `longDivide` — the two loops compute quotient and remainder;
* `divides_iff` — the three functions divide exactly when the native path is
  not entered with a divisor of more than 32 bits.
-/

namespace Doors.Libcxx

/-- A native division by zero raises the CPU's divide error. -/
inductive Trap where
  | divideError
  | diverges
  deriving Repr, DecidableEq

/-- Bit 63, the guard of the alignment loop. -/
def bit63 : BitVec 64 := 1#64 <<< 63

/-- The alignment loop `while (b <= a && (b & (1ULL << 63)) == 0)`, cut off
after `fuel` rounds. -/
def align (a : BitVec 64) : Nat → BitVec 64 → Nat → Except Trap (BitVec 64 × Nat)
  | 0, _, _ => .error .diverges
  | fuel + 1, b, shift =>
      if b ≤ a ∧ b &&& bit63 = 0 then align a fuel (b <<< 1) (shift + 1) else .ok (b, shift)

/-- The subtraction loop of `__udivdi3` and `__udivmoddi4`, for `k` values of
`shift` down to `0`. -/
def subtract : Nat → BitVec 64 → BitVec 64 → BitVec 64 → BitVec 64 × BitVec 64
  | 0, a, _, quotient => (quotient, a)
  | k + 1, a, b, quotient =>
      if a ≥ b then subtract k (a - b) (b >>> 1) (quotient ||| 1#64 <<< k)
      else subtract k a (b >>> 1) quotient

/-- The subtraction loop of `__umoddi3`, which keeps no quotient. -/
def subtractRem : Nat → BitVec 64 → BitVec 64 → BitVec 64
  | 0, a, _ => a
  | k + 1, a, b => if a ≥ b then subtractRem k (a - b) (b >>> 1) else subtractRem k a (b >>> 1)

/-- More rounds than the alignment loop can take. -/
def rounds : Nat := 65

/-- The 32-bit halves that decide about the native path. -/
def lo (a : BitVec 64) : BitVec 32 := a.setWidth 32

def hi (a : BitVec 64) : BitVec 32 := (a >>> 32).setWidth 32

/-- `a_lo / b_lo` in hardware. -/
def div32 (a b : BitVec 32) : Except Trap (BitVec 64) :=
  if b = 0 then .error .divideError else .ok ((a / b).setWidth 64)

/-- `a_lo % b_lo` in hardware. -/
def mod32 (a b : BitVec 32) : Except Trap (BitVec 64) :=
  if b = 0 then .error .divideError else .ok ((a % b).setWidth 64)

/-- `__udivdi3`. -/
def udivdi3 (a b : BitVec 64) : Except Trap (BitVec 64) :=
  if b = 0 then .ok 0
  else if hi a = 0 ∧ lo b ≤ lo a then div32 (lo a) (lo b)
  else do
    let (b, shift) ← align a rounds b 0
    .ok (subtract (shift + 1) a b 0).1

/-- `__umoddi3`. -/
def umoddi3 (a b : BitVec 64) : Except Trap (BitVec 64) :=
  if b = 0 then .ok 0
  else if hi a = 0 ∧ lo b ≤ lo a then mod32 (lo a) (lo b)
  else do
    let (b, shift) ← align a rounds b 0
    .ok (subtractRem (shift + 1) a b)

/-- `if (rem != nullptr) *rem = r`; the null pointer is `none`. -/
def store (rem : Option (BitVec 64)) (r : BitVec 64) : Option (BitVec 64) := rem.map fun _ => r

/-- `__udivmoddi4`: the quotient and what `rem` points to afterwards. -/
def udivmoddi4 (a b : BitVec 64) (rem : Option (BitVec 64)) :
    Except Trap (BitVec 64 × Option (BitVec 64)) :=
  let rem := store rem 0
  if b = 0 then .ok (0, rem)
  else if hi a = 0 ∧ lo b ≤ lo a then do
    let rem ← match rem with
      | none => .ok none
      | some _ => do
          let r ← mod32 (lo a) (lo b)
          .ok (store rem r)
    let q ← div32 (lo a) (lo b)
    .ok (q, rem)
  else do
    let (divisor, shift) ← align a rounds b 0
    let (quotient, a) := subtract (shift + 1) a divisor 0
    .ok (quotient, store rem a)

/-! ## the loops -/

/-- The divisor has bit 63 set exactly when shifting it loses a bit. -/
theorem and_bit63_eq_zero {b : BitVec 64} : b &&& bit63 = 0 ↔ b.toNat < 2 ^ 63 := by
  have hmsb : b.msb = decide (2 ^ 63 ≤ b.toNat) := BitVec.msb_eq_decide b
  have hbit : b &&& bit63 = 0 ↔ b.msb = false := by
    constructor
    · intro h
      have hget := congrArg (fun c : BitVec 64 => c.getLsbD 63) h
      simpa [bit63, BitVec.msb_eq_getLsbD_last] using hget
    · intro h
      ext i hi
      simp only [bit63, BitVec.getElem_and, BitVec.getElem_shiftLeft]
      by_cases h63 : i = 63
      · subst h63
        simpa [BitVec.msb_eq_getLsbD_last, BitVec.getLsbD_eq_getElem] using h
      · have : i < 63 := by omega
        simp [this]
  rw [hbit, hmsb]
  simp

/-- The alignment loop ends, and leaves a multiple of the divisor by a power
of two that is more than half of the dividend. -/
theorem align_spec {a b : BitVec 64} {fuel shift : Nat} (hb : b ≠ 0)
    (hfuel : 2 ^ 64 < b.toNat * 2 ^ fuel) :
    ∃ n, align a fuel b shift = .ok (b <<< n, shift + n) ∧ (b <<< n).toNat = b.toNat * 2 ^ n ∧
      a.toNat < 2 * (b.toNat * 2 ^ n) := by
  induction fuel generalizing b shift with
  | zero =>
      have := b.isLt
      omega
  | succ fuel ih =>
      unfold align
      split
      · next h =>
          have hlt := and_bit63_eq_zero.mp h.2
          have hdouble : (b <<< 1).toNat = b.toNat * 2 := by
            rw [BitVec.toNat_shiftLeft, Nat.shiftLeft_eq]
            exact Nat.mod_eq_of_lt (by omega)
          have hb' : b <<< 1 ≠ 0 := by
            intro h0
            have hz : b.toNat = 0 := by
              have htwice := congrArg BitVec.toNat h0
              rw [hdouble] at htwice
              exact (Nat.mul_eq_zero.mp htwice).resolve_right (by decide)
            exact hb (BitVec.eq_of_toNat_eq hz)
          obtain ⟨n, heq, hn, ha⟩ := @ih (b <<< 1) (shift + 1) hb'
            (by rw [hdouble, Nat.mul_assoc, ← Nat.pow_succ']; exact hfuel)
          have hstep : b <<< 1 <<< n = b <<< (n + 1) := by
            rw [← BitVec.shiftLeft_add, Nat.add_comm]
          have hpow : b.toNat * 2 * 2 ^ n = b.toNat * 2 ^ (n + 1) := by
            rw [Nat.mul_assoc, ← Nat.pow_succ']
          rw [hstep] at heq hn
          rw [hdouble, hpow] at hn ha
          exact ⟨n + 1, by rw [heq]; congr 2; omega, hn, ha⟩
      · next h =>
          refine ⟨0, by simp, by simp, ?_⟩
          have halt := a.isLt
          by_cases hle : b ≤ a
          · have h63 : ¬ b.toNat < 2 ^ 63 := fun hlt => h ⟨hle, and_bit63_eq_zero.mpr hlt⟩
            omega
          · have : a.toNat < b.toNat := by
              rw [BitVec.le_def] at hle
              omega
            omega

/-- Setting bit `k` of a number without bits up to `k` adds `2 ^ k`. -/
theorem or_bit {q : BitVec 64} {k m : Nat} (hk : k < 64) (hq : q.toNat = 2 ^ (k + 1) * m) :
    (q ||| 1#64 <<< k).toNat = 2 ^ k * (2 * m + 1) := by
  have hone : (1#64 <<< k).toNat = 2 ^ k := by
    rw [BitVec.toNat_shiftLeft, Nat.shiftLeft_eq]
    have hlt : 2 ^ k < 2 ^ 64 := Nat.pow_lt_pow_right (by decide) hk
    simpa using hlt
  rw [BitVec.toNat_or, hone, hq,
    ← Nat.two_pow_add_eq_or_of_lt (Nat.pow_lt_pow_right (by decide) (Nat.lt_succ_self k)),
      Nat.pow_succ]
  ring

/-- **Long division**: with the divisor at `b * 2 ^ k`, `k + 1` rounds of
subtraction leave the remainder and add the quotient. -/
theorem subtract_spec {b k m : Nat} {a d q : BitVec 64} (hb : 0 < b) (hk : k < 64)
    (hd : d.toNat = b * 2 ^ k) (ha : a.toNat < 2 * (b * 2 ^ k)) (hq : q.toNat = 2 ^ (k + 1) * m) :
    (subtract (k + 1) a d q).1.toNat = q.toNat + a.toNat / b ∧
      (subtract (k + 1) a d q).2.toNat = a.toNat % b := by
  induction k generalizing a d q m with
  | zero =>
      simp only [Nat.pow_zero, Nat.mul_one] at hd ha
      unfold subtract
      split
      · next h =>
          have hle : b ≤ a.toNat := by
            rw [← hd]
            exact BitVec.le_def.mp h
          have hsub : (a - d).toNat = a.toNat - b := by
            rw [BitVec.toNat_sub_of_le h, hd]
          have hq' := or_bit (q := q) (by decide) hq
          unfold subtract
          refine ⟨?_, ?_⟩
          · have hdiv : a.toNat / b = 1 := Nat.div_eq_of_lt_le (by omega) (by omega)
            dsimp only
            rw [hq', hdiv, hq]
            ring
          · have hmod : a.toNat % b = a.toNat - b := by
              rw [Nat.mod_eq_sub_mod hle, Nat.mod_eq_of_lt (by omega)]
            dsimp only
            rw [hsub, hmod]
      · next h =>
          have hlt : a.toNat < b := by
            rw [← hd]
            exact BitVec.lt_def.mp (BitVec.not_le.mp h)
          unfold subtract
          rw [Nat.div_eq_of_lt hlt, Nat.mod_eq_of_lt hlt]
          exact ⟨rfl, rfl⟩
  | succ k ih =>
      have hhalf : (d >>> 1).toNat = b * 2 ^ k := by
        rw [BitVec.toNat_ushiftRight, Nat.shiftRight_eq_div_pow, hd, Nat.pow_succ, ← Nat.mul_assoc]
        exact Nat.mul_div_cancel _ (by decide)
      have hpow : b * 2 ^ (k + 1) = 2 * (b * 2 ^ k) := by
        rw [Nat.pow_succ]
        ring
      unfold subtract
      split
      · next h =>
          have hle : b * 2 ^ (k + 1) ≤ a.toNat := by
            rw [← hd]
            exact BitVec.le_def.mp h
          have hsub : (a - d).toNat = a.toNat - b * 2 ^ (k + 1) := by
            rw [BitVec.toNat_sub_of_le h, hd]
          have hq' := or_bit hk hq
          obtain ⟨hquot, hrem⟩ := ih (a := a - d) (Nat.lt_of_succ_lt hk) hhalf (by omega) hq'
          have hdiv : a.toNat / b = (a.toNat - b * 2 ^ (k + 1)) / b + 2 ^ (k + 1) := by
            rw [Nat.sub_mul_div, Nat.sub_add_cancel]
            exact (Nat.le_div_iff_mul_le hb).mpr (by rw [Nat.mul_comm]; exact hle)
          have hmod : (a.toNat - b * 2 ^ (k + 1)) % b = a.toNat % b := Nat.sub_mul_mod hle
          refine ⟨?_, ?_⟩
          · rw [hquot, hq', hsub, hdiv, hq, Nat.pow_succ 2 (k + 1)]
            ring
          · rw [hrem, hsub, hmod]
      · next h =>
          have hlt : a.toNat < b * 2 ^ (k + 1) := by
            rw [← hd]
            exact BitVec.lt_def.mp (BitVec.not_le.mp h)
          exact ih (m := 2 * m) (Nat.lt_of_succ_lt hk) hhalf (by omega)
            (by rw [hq, Nat.pow_succ 2 (k + 1)]; ring)

/-- The loop of `__umoddi3` computes the same remainder. -/
theorem subtractRem_eq (k : Nat) (a b q : BitVec 64) :
    subtractRem k a b = (subtract k a b q).2 := by
  induction k generalizing a b q with
  | zero => rfl
  | succ k ih =>
      unfold subtractRem subtract
      split
      · exact ih _ _ _
      · exact ih _ _ _

/-- The shift-and-subtract path divides every dividend by every divisor. -/
theorem longDivide (a : BitVec 64) {b : BitVec 64} (hb : b ≠ 0) :
    ∃ d n, align a rounds b 0 = .ok (d, n) ∧ subtract (n + 1) a d 0 = (a / b, a % b) := by
  have hpos : 0 < b.toNat := by
    rw [Nat.pos_iff_ne_zero]
    exact fun h => hb (BitVec.eq_of_toNat_eq h)
  have hfuel : 2 ^ 64 < b.toNat * 2 ^ rounds := by
    calc
      2 ^ 64 < 1 * 2 ^ rounds := by decide
      _ ≤ b.toNat * 2 ^ rounds := Nat.mul_le_mul_right _ hpos
  obtain ⟨n, halign, hn, ha⟩ : ∃ n, align a rounds b 0 = .ok (b <<< n, 0 + n) ∧ _ :=
    align_spec hb hfuel
  have hn64 : n < 64 := by
    by_contra hge
    have hpow : 2 ^ 64 ≤ 2 ^ n := Nat.pow_le_pow_right (by decide) (by omega)
    have hmul : 2 ^ n ≤ b.toNat * 2 ^ n := Nat.le_mul_of_pos_left _ hpos
    have := (b <<< n).isLt
    omega
  obtain ⟨hquot, hrem⟩ := subtract_spec (q := 0) (m := 0) hpos hn64 hn ha (by simp)
  refine ⟨b <<< n, n, by rw [halign, Nat.zero_add], ?_⟩
  refine Prod.ext (BitVec.eq_of_toNat_eq ?_) (BitVec.eq_of_toNat_eq ?_)
  · rw [hquot, BitVec.toNat_udiv]
    simp
  · rw [hrem, BitVec.toNat_umod]

/-! ## the three functions -/

/-- Quotient and remainder, without a native division by zero; `rem` may be
null. -/
structure Divides (a b : BitVec 64) : Prop where
  div : udivdi3 a b = .ok (a / b)
  mod : umoddi3 a b = .ok (a % b)
  divmod : ∀ rem, udivmoddi4 a b (some rem) = .ok (a / b, some (a % b))
  divNull : udivmoddi4 a b none = .ok (a / b, none)

/-- The native path is entered with a divisor of more than 32 bits: both tests
of the path look at the low half of the divisor only. -/
def Misled (a b : BitVec 64) : Prop :=
  a.toNat < 2 ^ 32 ∧ 2 ^ 32 ≤ b.toNat ∧ b.toNat % 2 ^ 32 ≤ a.toNat

instance (a b : BitVec 64) : Decidable (Misled a b) := inferInstanceAs (Decidable (_ ∧ _))

theorem lo_toNat (a : BitVec 64) : (lo a).toNat = a.toNat % 2 ^ 32 := by
  rw [lo, BitVec.toNat_setWidth]

theorem hi_eq_zero {a : BitVec 64} : hi a = 0 ↔ a.toNat < 2 ^ 32 := by
  have htoNat : (hi a).toNat = a.toNat / 2 ^ 32 % 2 ^ 32 := by
    rw [hi, BitVec.toNat_setWidth, BitVec.toNat_ushiftRight, Nat.shiftRight_eq_div_pow]
  have halt := a.isLt
  rw [← BitVec.toNat_inj, htoNat]
  change a.toNat / 2 ^ 32 % 2 ^ 32 = 0 ↔ _
  omega

/-- The native path is taken for a 32-bit dividend whose low half is at least
that of the divisor. -/
theorem native_iff {a b : BitVec 64} :
    (hi a = 0 ∧ lo b ≤ lo a) ↔ a.toNat < 2 ^ 32 ∧ b.toNat % 2 ^ 32 ≤ a.toNat := by
  rw [hi_eq_zero, BitVec.le_def, lo_toNat, lo_toNat]
  constructor
  · rintro ⟨h, hle⟩
    exact ⟨h, by rwa [Nat.mod_eq_of_lt h] at hle⟩
  · rintro ⟨h, hle⟩
    exact ⟨h, by rwa [Nat.mod_eq_of_lt h]⟩

/-- Off the native path the loops divide. -/
theorem divides_of_loop {a b : BitVec 64} (hb : b ≠ 0) (h : ¬ (hi a = 0 ∧ lo b ≤ lo a)) :
    Divides a b := by
  obtain ⟨d, n, halign, hsub⟩ := longDivide a hb
  have hrem : subtractRem (n + 1) a d = a % b := by
    rw [subtractRem_eq _ _ _ 0, hsub]
  constructor
  · rw [udivdi3, if_neg hb, if_neg h, halign]
    exact congrArg (fun p => Except.ok p.1) hsub
  · rw [umoddi3, if_neg hb, if_neg h, halign]
    exact congrArg Except.ok hrem
  · intro rem
    rw [udivmoddi4, if_neg hb, if_neg h, halign]
    exact congrArg (fun p => Except.ok (p.1, some p.2)) hsub
  · rw [udivmoddi4, if_neg hb, if_neg h, halign]
    exact congrArg (fun p => Except.ok (p.1, none)) hsub

/-- On the native path both operands have to fit in 32 bits. -/
theorem divides_of_native {a b : BitVec 64} (hb : b ≠ 0) (h : hi a = 0 ∧ lo b ≤ lo a)
    (hsmall : b.toNat < 2 ^ 32) : Divides a b := by
  have ha := hi_eq_zero.mp h.1
  have hlo : (lo a).toNat = a.toNat ∧ (lo b).toNat = b.toNat := by
    rw [lo_toNat, lo_toNat]
    exact ⟨Nat.mod_eq_of_lt ha, Nat.mod_eq_of_lt hsmall⟩
  have hb' : lo b ≠ 0 := by
    intro h0
    refine hb (BitVec.eq_of_toNat_eq ?_)
    rw [← hlo.2, h0]
    rfl
  have hdiv : (lo a / lo b).setWidth 64 = a / b := by
    apply BitVec.eq_of_toNat_eq
    have hle : a.toNat / b.toNat ≤ a.toNat := Nat.div_le_self _ _
    rw [BitVec.toNat_setWidth, BitVec.toNat_udiv, BitVec.toNat_udiv, hlo.1, hlo.2]
    exact Nat.mod_eq_of_lt (by omega)
  have hmod : (lo a % lo b).setWidth 64 = a % b := by
    apply BitVec.eq_of_toNat_eq
    have hle : a.toNat % b.toNat ≤ a.toNat := Nat.mod_le _ _
    rw [BitVec.toNat_setWidth, BitVec.toNat_umod, BitVec.toNat_umod, hlo.1, hlo.2]
    exact Nat.mod_eq_of_lt (by omega)
  have hdiv32 : div32 (lo a) (lo b) = .ok (a / b) := by
    rw [div32, if_neg hb', hdiv]
  have hmod32 : mod32 (lo a) (lo b) = .ok (a % b) := by
    rw [mod32, if_neg hb', hmod]
  constructor
  · rw [udivdi3, if_neg hb, if_pos h, hdiv32]
  · rw [umoddi3, if_neg hb, if_pos h, hmod32]
  · intro rem
    rw [udivmoddi4, if_neg hb, if_pos h, hdiv32, hmod32]
    rfl
  · rw [udivmoddi4, if_neg hb, if_pos h, hdiv32]
    rfl

/-- A divisor of more than 32 bits on the native path: the true quotient is
`0`, and the code returns at least `1` or divides by zero. -/
theorem not_divides_of_misled {a b : BitVec 64} (hb : b ≠ 0) (h : Misled a b) : ¬ Divides a b := by
  obtain ⟨ha, hbig, hle⟩ := h
  intro hdiv
  have hnative : hi a = 0 ∧ lo b ≤ lo a := native_iff.mpr ⟨ha, hle⟩
  have hquot := hdiv.div
  have htrue : (a / b).toNat = 0 := by
    rw [BitVec.toNat_udiv]
    exact Nat.div_eq_of_lt (by omega)
  rw [udivdi3, if_neg hb, if_pos hnative, div32] at hquot
  split at hquot
  · contradiction
  · next hlo =>
      have hlob : (lo b).toNat = b.toNat % 2 ^ 32 := lo_toNat b
      have hpos : 0 < (lo b).toNat := by
        rw [Nat.pos_iff_ne_zero]
        exact fun h => hlo (BitVec.eq_of_toNat_eq h)
      have hval : (lo a / lo b).setWidth 64 = a / b := Except.ok.inj hquot
      have hzero : (lo a).toNat / (lo b).toNat % 2 ^ 64 = 0 := by
        rw [← htrue, ← hval, BitVec.toNat_setWidth, BitVec.toNat_udiv]
      have hone : 1 ≤ (lo a).toNat / (lo b).toNat := by
        rw [Nat.le_div_iff_mul_le hpos, Nat.one_mul, hlob, lo_toNat, Nat.mod_eq_of_lt ha]
        exact hle
      have hsmall : (lo a).toNat / (lo b).toNat ≤ (lo a).toNat := Nat.div_le_self _ _
      have hlt := (lo a).isLt
      generalize (lo a).toNat / (lo b).toNat = q at hzero hone hsmall
      omega

/-- **Division**: the three functions divide by `b ≠ 0` unless the native path
is entered with a divisor of more than 32 bits. -/
theorem divides_iff {a b : BitVec 64} (hb : b ≠ 0) : Divides a b ↔ ¬ Misled a b := by
  constructor
  · exact fun hdiv hmis => not_divides_of_misled hb hmis hdiv
  · intro hmis
    by_cases h : hi a = 0 ∧ lo b ≤ lo a
    · refine divides_of_native hb h ?_
      by_contra hbig
      obtain ⟨ha, hle⟩ := native_iff.mp h
      exact hmis ⟨ha, by omega, hle⟩
    · exact divides_of_loop hb h

theorem divides_max : ¬ Misled (-1) 3 ∧ Divides (-1) 3 :=
  ⟨by decide, (divides_iff (by decide)).mpr (by decide)⟩

/-- **Misled division**: `10 / (2 ^ 32 + 3)` is computed as `10 / 3`, and
`10 / 2 ^ 32` divides by zero. -/
theorem divides_fails :
    ¬ Divides 10 (2 ^ 32 + 3) ∧ udivdi3 10 (2 ^ 32 + 3) = .ok 3 ∧
      ¬ Divides 10 (2 ^ 32) ∧ udivdi3 10 (2 ^ 32) = .error .divideError := by
  refine ⟨fun h => ?_, by decide, fun h => ?_, by decide⟩
  · have hdiv := h.div
    revert hdiv
    decide
  · have hdiv := h.div
    revert hdiv
    decide

end Doors.Libcxx
