import Doors.Libcxx.Format

/-!
# Doors.Libcxx.Pieces

Formats as lists of pieces, and what `walkFormat` makes of them.

A piece is a character, an escaped `%`, or a directive: flags, a width and the character
of its conversion.  The text of a list of pieces is a format of complete directives.
Every other format ends within the flags and the width of its last one.

* `format_cases` — every format is of one of the two kinds;
* `walkFormat_printed` — complete formats print the pieces' output, into any sink;
* `walkFormat_pastEnd_iff` — the formats behind the end of which `walkFormat` reads;
* `snprintf_truncates` — what `snprintf` and `sprintf` leave in their arrays.
-/

namespace Doors.Libcxx

open Run Cells Text

/-! ## pieces -/

/-- Flags and width of a directive: `-` signs, a `0` and more `-` signs, and digits that
begin with `0` only behind a `0`. -/
structure Flags where
  minus : Nat
  zero : Option Nat
  digits : List (BitVec 8)
  isdigits : ∀ c ∈ digits, isdigit c = true
  canonical : zero = none → digits.head? ≠ some (chr '0')

namespace Flags

/-- The `0` and what is behind it. -/
def zeroText : Option Nat → List (BitVec 8)
  | none => []
  | some k => chr '0' :: List.replicate k (chr '-')

/-- The part behind the first `-` signs. -/
def tailText (f : Flags) : List (BitVec 8) := zeroText f.zero ++ f.digits

def text (f : Flags) : List (BitVec 8) := List.replicate f.minus (chr '-') ++ f.tailText

/-- Whether `-` signs follow the `0`. -/
def minusBehind (f : Flags) : Bool := match f.zero with
  | none => false
  | some k => decide (0 < k)

def left (f : Flags) : Bool := decide (0 < f.minus) || f.minusBehind

def pad (f : Flags) : BitVec 8 := if f.left then chr ' ' else if f.zero.isSome then chr '0'
    else chr ' '

def width (f : Flags) : BitVec 32 := BitVec.ofNat 32 (valueOf 10 0 f.digits)

/-- The characters that end the flags, and so are the conversion: neither a digit nor,
where these would go on, a `-` or a `%`. -/
structure Ends (f : Flags) (c : BitVec 8) : Prop where
  digit : isdigit c = false
  minus : f.digits = [] → c ≠ chr '-'
  percent : f.digits = [] → f.zero = none → c ≠ chr '%'

end Flags

/-- A piece of a format. -/
inductive Piece where
  | char (c : BitVec 8) (h : c ≠ chr '%')
  /-- `%%`, where `-` flags are skipped -/
  | percent (minus : Nat)
  | conversion (flags : Flags) (fmt : BitVec 8) (h : flags.Ends fmt)

def Piece.text : Piece → List (BitVec 8)
  | .char c _ => [c]
  | .percent minus => chr '%' :: (List.replicate minus (chr '-') ++ [chr '%'])
  | .conversion f fmt _ => chr '%' :: (f.text ++ [fmt])

/-- The format that pieces spell. -/
def formatText (ps : List Piece) : List (BitVec 8) := ps.flatMap Piece.text

/-- The conversion characters. -/
def conversions : List Piece → List (BitVec 8)
  | [] => []
  | .conversion _ fmt _ :: ps => fmt :: conversions ps
  | _ :: ps => conversions ps

/-- Without arguments, a lone `%` ends the format, and what is behind it is printed. -/
def plainText : List (BitVec 8) → List (BitVec 8)
  | [] => []
  | c :: format =>
      if c = chr '%' then
        match format with
        | [] => [chr '%']
        | c' :: format' => if c' = chr '%' then chr '%' :: plainText format'
            else chr '%' :: c' :: format'
      else c :: plainText format

/-- The full output of a format. -/
def printed : List Arg → List Piece → List (BitVec 8)
  | [], ps => plainText (formatText ps)
  | _ :: _, [] => []
  | value :: args, .char c _ :: ps => c :: printed (value :: args) ps
  | value :: args, .percent _ :: ps => chr '%' :: printed (value :: args) ps
  | value :: args, .conversion f fmt _ :: ps =>
      field value fmt f.width f.left f.pad ++ printed args ps

variable {junk : Nat → BitVec 8} {b : SnprintfBuf} {format s : List (BitVec 8)} {args : List Arg}
  {value : Arg} {f : Flags} {c : BitVec 8}
  {ps : List Piece}

/-! ## reading the flags -/

/-- All minus signs are skipped. -/
theorem skipMinus_replicate (m : Nat) (left : Bool) (hs : deref s ≠ chr '-') :
    skipMinus left (List.replicate m (chr '-') ++ s) = (left || decide (0 < m), s) := by
  induction m generalizing left with
  | zero =>
      cases s with
      | nil => simp [skipMinus]
      | cons c s =>
          have hc : c ≠ chr '-' := hs
          simp [skipMinus, hc]
  | succ m ih =>
      rw [List.replicate_succ, List.cons_append, skipMinus, if_pos rfl, ih]
      simp

/-- The value of a digit, as the loop computes it. -/
theorem digit_value (h : isdigit c = true) : c.setWidth 32 - 0x30 =
    BitVec.ofNat 32 (digitOf c) := by
  have hall : ∀ k : Fin 256, isdigit (BitVec.ofFin k) = true →
      (BitVec.ofFin k : BitVec 8).setWidth 32 - 0x30 =
        BitVec.ofNat 32 (digitOf (BitVec.ofFin k)) := by decide +kernel
  exact hall c.toFin h

/-- The digits of a width are read up to the first other character. -/
theorem widthLoop_digits {ds : List (BitVec 8)} {a : Nat} (hds : ∀ c ∈ ds, isdigit c = true)
    (hs : isdigit (deref s) = false) :
    widthLoop (BitVec.ofNat 32 a) (ds ++ s) = (BitVec.ofNat 32 (valueOf 10 a ds), s) := by
  induction ds generalizing a with
  | nil =>
      cases s with
      | nil => rfl
      | cons c s =>
          have hc : isdigit c = false := hs
          rw [List.nil_append, widthLoop, hc]
          rfl
  | cons c ds ih =>
      have hc := hds c List.mem_cons_self
      have hvalue : BitVec.ofNat 32 a * 10 + (c.setWidth 32 - 0x30) =
          BitVec.ofNat 32 (a * 10 + digitOf c) := by
        rw [digit_value hc, BitVec.ofNat_add, BitVec.ofNat_mul]
        rfl
      rw [List.cons_append, widthLoop, if_pos hc, hvalue,
        ih fun c' h => hds c' (List.mem_cons_of_mem _ h), valueOf_cons]

/-- A zero, and the minus signs behind it. -/
theorem directive_of_zero {left : Bool} (h : deref s = chr '0') : directive left s =
    (⟨(skipMinus left s.tail).1, if (skipMinus left s.tail).1 then chr ' '
        else chr '0', (widthLoop 0 (skipMinus left s.tail).2).1⟩,
      (widthLoop 0 (skipMinus left s.tail).2).2) := by
  unfold directive
  simp only [if_pos h]

/-- Without a zero the width is next. -/
theorem directive_of_ne_zero {left : Bool} (h : deref s ≠ chr '0') : directive left s =
    (⟨left, chr ' ', (widthLoop 0 s).1⟩, (widthLoop 0 s).2) := by
  unfold directive
  simp only [if_neg h, ite_self]

/-- What stops the flags `f` after their first `-` signs. -/
theorem directive_flags (left : Bool) (hdigit : isdigit (deref s) = false)
    (hminus : f.digits = [] → deref s ≠ chr '-') :
    directive left (f.tailText ++ s) =
      (⟨left || f.minusBehind, if (left || f.minusBehind) then chr ' '
          else if f.zero.isSome then chr '0' else chr ' ', f.width⟩, s) := by
  have hwidth : widthLoop 0 (f.digits ++ s) = (f.width, s) := widthLoop_digits f.isdigits hdigit
  cases hz : f.zero with
  | none =>
      have htext : f.tailText = f.digits := by
        unfold Flags.tailText
        rw [hz]
        rfl
      have hzero : deref (f.digits ++ s) ≠ chr '0' := by
        cases hds : f.digits with
        | nil =>
            intro heq
            rw [show deref s = chr '0' from heq] at hdigit
            exact absurd hdigit (by decide)
        | cons c ds =>
            have hc := f.canonical hz
            rw [hds] at hc
            exact fun heq => hc (congrArg some heq)
      have hbehind : f.minusBehind = false := by
        unfold Flags.minusBehind
        rw [hz]
      rw [htext, directive_of_ne_zero hzero, hwidth, hbehind, Bool.or_false]
      simp
  | some k =>
      have htext : f.tailText = chr '0' :: (List.replicate k (chr '-') ++ f.digits) := by
        unfold Flags.tailText
        rw [hz]
        rfl
      have hstop : deref (f.digits ++ s) ≠ chr '-' := by
        cases hds : f.digits with
        | nil => exact hminus hds
        | cons c ds =>
            have hc := f.isdigits c (by rw [hds]; exact List.mem_cons_self)
            rintro rfl
            exact absurd hc (by decide)
      have hbehind : f.minusBehind = decide (0 < k) := by
        unfold Flags.minusBehind
        rw [hz]
      rw [htext, List.cons_append, directive_of_zero rfl, List.tail_cons, List.append_assoc,
        skipMinus_replicate k left hstop, hwidth, hbehind]
      rfl

/-! ## walking over pieces -/

/-- The minus signs come first. -/
theorem Flags.text_append (f : Flags) (s : List (BitVec 8)) :
    f.text ++ s = List.replicate f.minus (chr '-') ++ (f.tailText ++ s) :=
  List.append_assoc _ _ _

/-- The first character behind the first `-` signs goes on with the flags, or ends them. -/
theorem deref_tailText (hs : f.Ends (deref s)) :
    deref (f.tailText ++ s) ≠ chr '-' ∧ deref (f.tailText ++ s) ≠ chr '%' := by
  unfold Flags.tailText
  cases hz : f.zero with
  | some k => exact ⟨show chr '0' ≠ chr '-' by decide, show chr '0' ≠ chr '%' by decide⟩
  | none =>
      cases hds : f.digits with
      | nil => exact ⟨hs.minus hds, hs.percent hds hz⟩
      | cons c ds =>
          have hc := f.isdigits c (by rw [hds]; exact List.mem_cons_self)
          constructor
          · rintro rfl
            exact absurd hc (by decide)
          · rintro rfl
            exact absurd hc (by decide)

/-- A plain character is put. -/
theorem walk_char (hc : c ≠ chr '%') :
    walkFormat junk (value :: args) b (some (c :: s)) =
      walkFormat junk (value :: args) (b.put c) (some s) := by
  rw [walkFormat, if_neg hc]

/-- Two percent signs are one. -/
theorem walk_percent (m : Nat) : walkFormat junk (value :: args) b
    (some (chr '%' :: (List.replicate m (chr '-') ++ chr '%' :: s))) =
    walkFormat junk (value :: args) (b.put (chr '%')) (some s) := by
  have hskip : skipMinus false (List.replicate m (chr '-') ++ chr '%' :: s) =
      (false || decide (0 < m), chr '%' :: s) :=
    skipMinus_replicate m false (show chr '%' ≠ chr '-' by decide)
  rw [walkFormat, if_pos rfl, hskip, if_pos (show deref (chr '%' :: s) = chr '%' from rfl)]
  rfl

/-- **A directive**: what ends its flags is taken for the conversion. -/
theorem walk_directive (hs : f.Ends (deref s)) :
    walkFormat junk (value :: args) b (some (chr '%' :: (f.text ++ s))) =
    formatPut junk b value (deref s) f.width f.left f.pad >>= fun b =>
      walkFormat junk args b (next s) := by
  obtain ⟨hminus, hpercent⟩ := deref_tailText hs
  have hskip : skipMinus false (f.text ++ s) = (decide (0 < f.minus), f.tailText ++ s) := by
    rw [f.text_append, skipMinus_replicate _ _ hminus, Bool.false_or]
  have hdir : directive (decide (0 < f.minus)) (f.tailText ++ s) = (⟨f.left, f.pad, f.width⟩, s) :=
    directive_flags _ hs.digit hs.minus
  rw [walkFormat, if_pos rfl, hskip, if_neg hpercent, hdir]

/-- The flags may end with the format. -/
theorem ends_nul (f : Flags) : f.Ends 0 := ⟨by decide, fun _ => by decide, fun _ _ => by decide⟩

/-! ## every format is of one kind -/

/-- A text is its minus signs and the rest. -/
theorem split_minus (s : List (BitVec 8)) : ∃ m s', s = List.replicate m (chr '-') ++ s' ∧
    deref s' ≠ chr '-' := by
  induction s with
  | nil => exact ⟨0, [], rfl, by decide⟩
  | cons c s ih =>
      by_cases hc : c = chr '-'
      · obtain ⟨m, s', hs, hne⟩ := ih
        exact ⟨m + 1, s', by rw [hc, hs, List.replicate_succ, List.cons_append], hne⟩
      · exact ⟨0, c :: s, rfl, hc⟩

/-- A text is its digits and the rest. -/
theorem split_digits (s : List (BitVec 8)) : ∃ ds s', s = ds ++ s' ∧ (∀ c ∈ ds, isdigit c = true) ∧
    isdigit (deref s') = false := by
  induction s with
  | nil => exact ⟨[], [], rfl, fun _ hin => absurd hin List.not_mem_nil, by decide⟩
  | cons c s ih =>
      cases hc : isdigit c with
      | true =>
          obtain ⟨ds, s', hs, hds, hne⟩ := ih
          refine ⟨c :: ds, s', by rw [hs, List.cons_append], fun c' hin => ?_, hne⟩
          rcases List.mem_cons.mp hin with rfl | hin
          · exact hc
          · exact hds c' hin
      | false => exact ⟨[], c :: s, rfl, fun _ hin => absurd hin List.not_mem_nil, hc⟩

/-- Flags, as far as they go. -/
theorem split_flags (s : List (BitVec 8)) :
    (∃ m s', s = List.replicate m (chr '-') ++ chr '%' :: s') ∨
    ∃ f : Flags, ∃ s', s = f.text ++ s' ∧ f.Ends (deref s') := by
  obtain ⟨m, s₁, rfl, hminus⟩ := split_minus s
  by_cases hpercent : deref s₁ = chr '%'
  · cases s₁ with
    | nil => exact absurd hpercent (by decide)
    | cons c s₁ => exact .inl ⟨m, s₁, by rw [show c = chr '%' from hpercent]⟩
  · right
    by_cases hzero : deref s₁ = chr '0'
    · cases s₁ with
      | nil => exact absurd hzero (by decide)
      | cons c s₁ =>
          obtain ⟨k, s₂, rfl, hminus₂⟩ := split_minus s₁
          obtain ⟨ds, s₃, rfl, hds, hend⟩ := split_digits s₂
          refine ⟨⟨m, some k, ds, hds, fun hnone => absurd hnone (Option.some_ne_none k)⟩, s₃, ?_,
            hend, ?_, fun _ hnone => absurd hnone (Option.some_ne_none k)⟩
          · rw [show c = chr '0' from hzero, Flags.text_append]
            simp [Flags.tailText, Flags.zeroText]
          · rintro rfl
            exact hminus₂
    · obtain ⟨ds, s₃, rfl, hds, hend⟩ := split_digits s₁
      refine ⟨⟨m, none, ds, hds, fun _ hhead => ?_⟩, s₃, ?_, hend, ?_, ?_⟩
      · cases ds with
        | nil => contradiction
        | cons c ds => exact hzero (Option.some.inj hhead)
      · rw [Flags.text_append]
        rfl
      · rintro rfl
        exact hminus
      · rintro rfl -
        exact hpercent

/-- One more piece. -/
theorem formatText_cons (p : Piece) (ps : List Piece) :
    formatText (p :: ps) = p.text ++ formatText ps := List.flatMap_cons

/-- **Every format** is complete, or ends within the flags of its last directive. -/
theorem format_cases (s : List (BitVec 8)) :
    (∃ ps, s = formatText ps) ∨ ∃ ps, ∃ f : Flags, s = formatText ps ++ chr '%' :: f.text := by
  induction hn : s.length using Nat.strong_induction_on generalizing s with
  | _ n ih =>
      subst hn
      -- one more piece before a format
      have hcons : ∀ (p : Piece) s', s = p.text ++ s' → s'.length < s.length →
          (∃ ps, s = formatText ps) ∨ ∃ ps, ∃ f : Flags,
            s = formatText ps ++ chr '%' :: f.text := by
        intro p s' hs hlt
        rcases ih _ hlt s' rfl with ⟨ps, rfl⟩ | ⟨ps, f, rfl⟩
        · exact .inl ⟨p :: ps, by rw [formatText_cons, hs]⟩
        · exact .inr ⟨p :: ps, f, by rw [formatText_cons, hs, List.append_assoc]⟩
      cases s with
      | nil => exact .inl ⟨[], rfl⟩
      | cons c s =>
          by_cases hc : c = chr '%'
          · subst hc
            rcases split_flags s with ⟨m, s', rfl⟩ | ⟨f, s', rfl, hends⟩
            · exact hcons (.percent m) s' (by simp [Piece.text]) (by simp; omega)
            · cases s' with
              | nil => exact .inr ⟨[], f, by rw [List.append_nil]; rfl⟩
              | cons fmt s' =>
                  exact hcons (.conversion f fmt hends) s' (by simp [Piece.text]) (by simp; omega)
          · exact hcons (.char c hc) s rfl (Nat.lt_succ_self _)

/-! ## what is printed -/

/-- A plain character. -/
theorem plainText_char (hc : c ≠ chr '%') (s : List (BitVec 8)) :
    plainText (c :: s) = c :: plainText s := by
  conv_lhs => rw [plainText.eq_def]
  exact if_neg hc

/-- Two percent signs are one. -/
theorem plainText_percent (s : List (BitVec 8)) :
    plainText (chr '%' :: chr '%' :: s) = chr '%' :: plainText s := by
  conv_lhs => rw [plainText.eq_def]
  dsimp only
  rw [if_pos rfl, if_pos rfl]

/-- A percent sign before another character is itself. -/
theorem plainText_stop (hc : c ≠ chr '%') (s : List (BitVec 8)) :
    plainText (chr '%' :: c :: s) = chr '%' :: c :: s := by
  conv_lhs => rw [plainText.eq_def]
  dsimp only
  rw [if_pos rfl, if_neg hc]

/-- Without arguments the format is its plain text. -/
theorem walkPlain_eq (b : SnprintfBuf) (s : List (BitVec 8)) :
    walkPlain b s = b.putAll (plainText s) := by
  fun_induction walkPlain b s with
  | case1 b => rfl
  | case2 b => rfl
  | case3 b s ih =>
      rw [ih, plainText_percent]
      rfl
  | case4 b c s hc =>
      rw [plainText_stop hc]
      rfl
  | case5 b c s hc ih =>
      rw [ih, plainText_char hc]
      rfl

/-- The conversions of the pieces fit their buffers, each with its argument. -/
def Fit (args : List Arg) (fmts : List (BitVec 8)) : Prop :=
  ∀ p ∈ args.zip fmts, fits p.2 p.1 = true

/-- One more argument. -/
theorem fit_cons {fmt : BitVec 8} {fmts : List (BitVec 8)} :
    Fit (value :: args) (fmt :: fmts) ↔ fits fmt value = true ∧ Fit args fmts := by
  unfold Fit
  rw [List.zip_cons_cons, List.forall_mem_cons]

/-- A conversion ends its flags. -/
theorem ends_deref {fmt : BitVec 8} (h : f.Ends fmt) (s : List (BitVec 8)) :
    f.Ends (deref (fmt :: s)) := h

/-- **Complete formats** print their output, into any sink. -/
theorem walkFormat_printed (h : Fit args (conversions ps)) :
    walkFormat junk args b (some (formatText ps)) = .ok (b.putAll (printed args ps)) := by
  induction ps generalizing args b with
  | nil =>
      cases args with
      | nil => rw [walkFormat, walkPlain_eq]; rfl
      | cons value args => rw [walkFormat.eq_def]; rfl
  | cons p ps ih =>
      cases args with
      | nil => rw [walkFormat, walkPlain_eq]; rfl
      | cons value args =>
          rw [formatText_cons]
          cases p with
          | char c hc =>
              show walkFormat junk (value :: args) b (some (c :: formatText ps)) = _
              rw [walk_char hc, ih h]
              rfl
          | percent m =>
              show walkFormat junk (value :: args) b
                (some (chr '%' :: ((List.replicate m (chr '-') ++ [chr '%']) ++ formatText ps))) = _
              rw [List.append_assoc, List.singleton_append, walk_percent, ih h]
              rfl
          | conversion f fmt hends =>
              obtain ⟨hfits, hrest⟩ := fit_cons.mp h
              show walkFormat junk (value :: args) b
                (some (chr '%' :: ((f.text ++ [fmt]) ++ formatText ps))) = _
              rw [List.append_assoc, List.singleton_append, walk_directive (ends_deref hends _)]
              show (formatPut junk b value fmt f.width f.left f.pad >>=
                fun b => walkFormat junk args b (some (formatText ps))) = _
              rw [formatPut_eq hfits]
              show walkFormat junk args (b.putAll _) (some (formatText ps)) = _
              rw [ih hrest, ← SnprintfBuf.putAll_append]
              rfl

/-! ## behind the end of the format -/

/-- The text ends within a directive that gets an argument, which no conversion that
overflows comes before. -/
def CutOff (args : List Arg) (format : List (BitVec 8)) : Prop :=
  ∃ ps, ∃ f : Flags, format = formatText ps ++ chr '%' :: f.text ∧
    (conversions ps).length < args.length ∧ Fit args (conversions ps ++ [0])

/-- The walk runs past the end behind a conversion that fits. -/
theorem bind_pastEnd {k : SnprintfBuf → Except Fault SnprintfBuf} {fmt : BitVec 8} :
    (formatPut junk b value fmt f.width f.left f.pad >>= k) = .error .pastEnd ↔
      fits fmt value = true ∧ k (b.putAll (field value fmt f.width f.left f.pad)) =
        .error .pastEnd := by
  cases hfits : fits fmt value with
  | true =>
      rw [formatPut_eq hfits]
      exact (and_iff_right rfl).symm
  | false =>
      have herror : ∃ e, formatPut junk b value fmt f.width f.left f.pad = .error e ∧
        e ≠ .pastEnd := formatPut_error hfits
      obtain ⟨e, he, hne⟩ := herror
      rw [he]
      exact iff_of_false (fun heq => hne (Except.error.inj heq)) fun hboth =>
        Bool.false_ne_true hboth.1

/-- Behind complete pieces, reading on past the end depends on the rest. -/
theorem walk_pieces_pastEnd (args : List Arg) (b : SnprintfBuf) (ps : List Piece)
    {rest : List (BitVec 8)} {Q : List Arg → Prop} (hnil : ¬ Q [])
    (hrest : ∀ value args b, walkFormat junk (value :: args) b (some rest) = .error .pastEnd ↔
    Q (value :: args)) :
    walkFormat junk args b (some (formatText ps ++ rest)) = .error .pastEnd ↔
      Fit args (conversions ps) ∧ Q (args.drop (conversions ps).length) := by
  induction ps generalizing args b with
  | nil =>
      cases args with
      | nil =>
          rw [walkFormat]
          exact iff_of_false (fun heq => by cases heq) fun hboth => hnil hboth.2
      | cons value args =>
          rw [show formatText [] ++ rest = rest from rfl, hrest]
          refine (and_iff_right fun p hp => ?_).symm
          exact absurd hp (by simp [conversions])
  | cons p ps ih =>
      cases args with
      | nil =>
          rw [walkFormat]
          exact iff_of_false (fun heq => by cases heq) fun hboth => hnil (List.drop_nil ▸ hboth.2)
      | cons value args =>
          rw [formatText_cons, List.append_assoc]
          cases p with
          | char c hc =>
              show walkFormat junk (value :: args) b (some (c :: (formatText ps ++ rest))) = _ ↔ _
              rw [walk_char hc]
              exact ih (value :: args) _
          | percent m =>
              show walkFormat junk (value :: args) b
                (some (chr '%' ::
                  ((List.replicate m (chr '-') ++ [chr '%']) ++ (formatText ps ++ rest)))) = _ ↔ _
              rw [List.append_assoc, List.singleton_append, walk_percent]
              exact ih (value :: args) _
          | conversion f fmt hends =>
              show walkFormat junk (value :: args) b
                (some (chr '%' :: ((f.text ++ [fmt]) ++ (formatText ps ++ rest)))) = _ ↔ _
              rw [List.append_assoc, List.singleton_append, walk_directive (ends_deref hends _)]
              show (formatPut junk b value fmt f.width f.left f.pad >>=
                fun b => walkFormat junk args b (some (formatText ps ++ rest))) = _ ↔ _
              rw [bind_pastEnd, ih, ← and_assoc]
              exact and_congr_left' fit_cons.symm

/-- One more conversion. -/
theorem fit_append {fmts : List (BitVec 8)} {fmt : BitVec 8} :
    Fit args fmts ∧ args.drop fmts.length ≠ [] ∧ Fit (args.drop fmts.length) [fmt] ↔
      fmts.length < args.length ∧ Fit args (fmts ++ [fmt]) := by
  induction fmts generalizing args with
  | nil =>
      have hnone : Fit args [] := fun p hp => absurd hp (by simp)
      rw [and_iff_right hnone, List.length_nil, List.length_pos_iff]
      rfl
  | cons c fmts ih =>
      cases args with
      | nil => exact iff_of_false (fun h => h.2.1 rfl) fun h => Nat.not_lt_zero _ h.1
      | cons value args =>
          rw [List.cons_append, fit_cons, fit_cons, List.length_cons, List.length_cons,
            List.drop_succ_cons, and_assoc, ih, Nat.succ_lt_succ_iff]
          exact and_left_comm

/-- A complete format is not left. -/
theorem walk_complete (junk : Nat → BitVec 8) (args : List Arg) (b : SnprintfBuf)
    (ps : List Piece) :
    walkFormat junk args b (some (formatText ps)) ≠ .error .pastEnd := by
  have hend : ∀ value args b, walkFormat junk (value :: args) b (some []) = .error .pastEnd ↔
      False := by
    refine fun value args b => iff_of_false (fun heq => ?_) id
    rw [walkFormat.eq_def] at heq
    cases heq
  have hwalk := walk_pieces_pastEnd args b ps (Q := fun _ => False) id hend
  rw [List.append_nil] at hwalk
  exact fun heq => (hwalk.mp heq).2

/-- A format that is cut off is left when an argument is left for its last directive. -/
theorem walk_cutOff (junk : Nat → BitVec 8) (args : List Arg) (b : SnprintfBuf) (ps : List Piece)
    (f : Flags) :
    walkFormat junk args b (some (formatText ps ++ chr '%' :: f.text)) = .error .pastEnd ↔
      (conversions ps).length < args.length ∧ Fit args (conversions ps ++ [0]) := by
  have hrest : ∀ value args b, walkFormat junk (value :: args) b (some (chr '%' :: f.text)) =
      .error .pastEnd ↔ Fit (value :: args) [0] := by
    intro value args b
    have hwalk : walkFormat junk (value :: args) b (some (chr '%' :: (f.text ++ []))) = _ :=
      walk_directive (s := []) (ends_nul f)
    rw [List.append_nil] at hwalk
    rw [hwalk, bind_pastEnd, fit_cons]
    refine and_congr_right fun _ => iff_of_true ?_ fun p hp => absurd hp (by simp)
    rw [walkFormat.eq_def]
    rfl
  rw [walk_pieces_pastEnd args b ps (Q := fun args => args ≠ [] ∧ Fit args [0]) (fun h => h.1 rfl)
    fun value args b =>
    (hrest value args b).trans (and_iff_right (List.cons_ne_nil _ _)).symm]
  exact fit_append

/-- **Where `walkFormat` stays inside the format**: when the end does not cut off a
directive that gets an argument. -/
theorem walkFormat_inside_iff (junk : Nat → BitVec 8) (args : List Arg) (b : SnprintfBuf)
    (format : List (BitVec 8)) :
    walkFormat junk args b (some format) ≠ .error .pastEnd ↔ ¬ CutOff args format := by
  constructor
  · rintro hinside ⟨ps, f, rfl, hargs, hfit⟩
    exact hinside ((walk_cutOff junk args b ps f).mpr ⟨hargs, hfit⟩)
  · intro hcut heq
    rcases format_cases format with ⟨ps, rfl⟩ | ⟨ps, f, rfl⟩
    · exact walk_complete junk args b ps heq
    · obtain ⟨hargs, hfit⟩ := (walk_cutOff junk args b ps f).mp heq
      exact hcut ⟨ps, f, rfl, hargs, hfit⟩

/-- A lone `%` with an argument. -/
theorem walkFormat_leaves : walkFormat (fun _ => 0) [.int 1] ⟨fun _ => 0, 16, 0⟩ (some [chr '%']) =
    .error .pastEnd :=
  (walk_cutOff _ _ _ [] ⟨0, none, [], fun _ hin => absurd hin List.not_mem_nil,
      fun _ => by decide⟩).mpr
    ⟨Nat.zero_lt_one, fit_cons.mpr ⟨rfl, fun _ hp => absurd hp List.not_mem_nil⟩⟩

/-! ## truncation -/

/-- A length is not negative. -/
theorem toInt_length {n : Nat} (h : n < 2 ^ 31) : (BitVec.ofNat 32 n).toInt = n := by
  rw [BitVec.toInt_eq_toNat_cond, BitVec.toNat_ofNat, Nat.mod_eq_of_lt (by omega),
    if_pos (by omega)]

/-- What a sink of `n` characters keeps of a complete format's output. -/
theorem walkFormat_sink (h : Fit args (conversions ps)) (hlen : (printed args ps).length < 2 ^ 32)
    (s : Nat → BitVec 8) (n : Nat) :
    walkFormat junk args ⟨s, n, 0⟩ (some (formatText ps)) =
      .ok ⟨fun k => if k < n then put s 0 (printed args ps) k
        else s k, n, (printed args ps).length⟩ := by
  have hsink : (SnprintfBuf.mk s n 0).putAll (printed args ps) = _ :=
    SnprintfBuf.putAll_eq (by dsimp only; omega)
  rw [walkFormat_printed h, hsink]
  dsimp only
  rw [Nat.zero_add]

/-- **What `snprintf` does** when all conversions fit. -/
theorem snprintf_eq (h : Fit args (conversions ps)) (hlen : (printed args ps).length < 2 ^ 31)
    (s : Nat → BitVec 8) (n : Nat) :
    snprintf junk s n (formatText ps) args = .ok ((printed args ps).length,
      if n > 0 then set (fun k => if k < n then put s 0 (printed args ps) k else s k)
        (min (n - 1) (printed args ps).length) 0 else s) := by
  unfold snprintf
  rw [walkFormat_sink h (by omega)]
  show Except.ok _ = _
  dsimp only
  rw [toInt_length hlen]
  congr 2
  by_cases hn : n > 0
  · rw [if_pos hn, if_pos hn]
    split
    · rw [Nat.min_eq_right (by omega)]
    · rw [Nat.min_eq_left (by omega)]
  · rw [if_neg hn, if_neg hn]
    funext k
    exact if_neg (by omega)

/-- **What `sprintf` does** when all conversions fit. -/
theorem sprintf_eq (h : Fit args (conversions ps)) (hlen : (printed args ps).length < 2 ^ 31)
    (s : Nat → BitVec 8) :
    sprintf junk s (formatText ps) args = .ok ((printed args ps).length,
      set (fun k => if k < 2 ^ 32 - 1 then put s 0 (printed args ps) k else s k)
        (printed args ps).length 0) := by
  unfold sprintf
  rw [walkFormat_sink h (by omega)]
  show Except.ok _ = _
  dsimp only
  rw [toInt_length hlen]

/-- Without a `char *`, only the least 64-bit number in binary does not fit. -/
theorem fit_of_plain {fmts : List (BitVec 8)} (hstr : ∀ s, Arg.str s ∉ args)
    (hmin : (Arg.int64 0x8000000000000000, chr 'b') ∉ args.zip fmts) :
    Fit args fmts := by
  rintro ⟨value, fmt⟩ hp
  have hvalue := (List.of_mem_zip hp).1
  cases value with
  | str s => exact absurd hvalue (hstr s)
  | int64 value =>
      refine decide_eq_true fun hleast => hmin ?_
      dsimp only at hleast
      rwa [hleast.1, hleast.2] at hp
  | int _ | uint _ | uint64 _ | uchar _ | char _ | bool _ | cstr _ | view _ | ptr _ => rfl

/-- **Truncation is clean**: the same value for every size, the part of the output that
fits and its terminator, and nothing behind; `sprintf` writes the whole output. -/
theorem snprintf_truncates (ps : List Piece) (args : List Arg) (hstr : ∀ s, Arg.str s ∉ args)
    (hmin : (Arg.int64 0x8000000000000000, chr 'b') ∉ args.zip (conversions ps))
    (hlen : (printed args ps).length < 2 ^ 31)
    (junk s : Nat → BitVec 8) :
    (∀ n < 2 ^ 32, ∃ out, snprintf junk s n (formatText ps) args =
      .ok ((printed args ps).length, out) ∧
      (0 < n → (∀ k (hk : k < (printed args ps).length), k < n - 1 → out k = (printed args ps)[k]) ∧
        out (min (n - 1) (printed args ps).length) = 0) ∧
      ∀ k, n ≤ k → out k = s k) ∧
    ∃ out, sprintf junk s (formatText ps) args = .ok ((printed args ps).length, out) ∧
      (∀ k (hk : k < (printed args ps).length), out k = (printed args ps)[k]) ∧
        out (printed args ps).length = 0 ∧
      ∀ k, (printed args ps).length < k → out k = s k := by
  have hfit := fit_of_plain hstr hmin
  have hput : ∀ k (hk : k < (printed args ps).length),
      put s 0 (printed args ps) k = (printed args ps)[k] := by
    intro k hk
    have hat := put_at s 0 hk
    rwa [Nat.zero_add] at hat
  refine ⟨fun n hn => ⟨_, snprintf_eq hfit hlen s n, fun hpos => ⟨fun k hk hkn => ?_, ?_⟩,
      fun k hk => ?_⟩,
    _, sprintf_eq hfit hlen s, fun k hk => ?_, set_self _ _ _, fun k hk => ?_⟩
  · rw [if_pos hpos, set_of_ne _ _ (by omega), if_pos (by omega), hput k hk]
  · rw [if_pos hpos, set_self]
  · split
    · rw [set_of_ne _ _ (by omega), if_neg (by omega)]
    · rfl
  · rw [set_of_ne _ _ (by omega), if_pos (by omega), hput k hk]
  · rw [set_of_ne _ _ (by omega), put_of_le _ _ (by omega), ite_self]

/-- A string of five characters in an array of four. -/
theorem snprintf_truncates_hello : ∃ ps out, formatText ps = lit "%s" ∧
    snprintf (fun _ => 0) (fun _ => 0) 4 (formatText ps) [.cstr (some ⟨lit "hello", by decide⟩)] =
      .ok (5, out) ∧
    out 0 = chr 'h' ∧ out 3 = 0 := by
  have hends :
      (Flags.mk 0 none [] (fun _ hin => absurd hin List.not_mem_nil) fun _ => by decide).Ends
      (chr 's') :=
    ⟨by decide, fun _ => by decide, fun _ _ => by decide⟩
  obtain ⟨hsizes, -⟩ := snprintf_truncates [.conversion _ _ hends]
    [.cstr (some ⟨lit "hello", by decide⟩)] (by simp) (by simp [conversions])
    (show (lit "hello").length < 2 ^ 31 by decide) (fun _ => 0) (fun _ => 0)
  obtain ⟨out, hout, hkept, -⟩ := hsizes 4 (by decide)
  obtain ⟨hcells, hstop⟩ := hkept (by decide)
  exact ⟨_, out, rfl, hout, hcells 0 (show 0 < (lit "hello").length by decide) (by decide), hstop⟩

end Doors.Libcxx
