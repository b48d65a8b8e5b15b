import Doors.Libcxx.Numerals

/-!
# Doors.Libcxx.Format

`snprintf` and `sprintf` (`libc++/include/stdio.h`, `libc++/stdio/format.cc`).

Output goes to a counting sink, `SnprintfBuf`, that keeps what fits.  An argument is
converted by `formatRaw`; `formatPut` first collects most conversions in a sink of its
own of 1024 characters, to learn their length, and pads them from there.

What an uninitialised array holds is a parameter, `junk`.  A format is the list of the
characters before its terminator, and a pointer into it is the list of the characters
that are left, or `none` behind the terminator.

* `putAll_eq` — what a run of characters leaves in a sink;
* `formatRaw_eq`, `formatPut_eq` — what a conversion emits;
* `conversion_fits_iff` — which conversions stay inside their buffers.
-/

namespace Doors.Libcxx

open Run Cells Text

/-! ## the sink -/

/-- `SnprintfBuf`; `pos_` is a `size_t` and keeps counting past the capacity. -/
structure SnprintfBuf where
  buf : Nat → BitVec 8
  cap : Nat
  pos : Nat

/-- The characters of a literal. -/
def lit (s : String) : List (BitVec 8) := s.toList.map chr

/-- The characters of a string in memory; their number is a `size_t`. -/
structure CharSeq where
  chars : List (BitVec 8)
  short : chars.length < 2 ^ 32

namespace SnprintfBuf

def put (b : SnprintfBuf) (c : BitVec 8) : SnprintfBuf :=
  { b with buf := if b.pos < b.cap then set b.buf b.pos c else b.buf, pos := (b.pos + 1) % 2 ^ 32 }

/-- `write`, from `s[i]` on, with `n` characters left. -/
def writeFrom (s : Nat → Except Fault (BitVec 8)) :
    Nat → Nat → SnprintfBuf → Except Fault SnprintfBuf
  | _, 0, b => .ok b
  | i, n + 1, b => do
      let c ← s i
      writeFrom s (i + 1) n (b.put c)

def write (b : SnprintfBuf) (s : Nat → Except Fault (BitVec 8)) (n : Nat) :
    Except Fault SnprintfBuf := writeFrom s 0 n b

/-- A run of `put`. -/
def putAll (b : SnprintfBuf) (cs : List (BitVec 8)) : SnprintfBuf := cs.foldl put b

def writestr (b : SnprintfBuf) (s : Option (List (BitVec 8))) : SnprintfBuf :=
  b.putAll (s.getD (lit "(NULL)"))

def pad (b : SnprintfBuf) : Nat → BitVec 8 → SnprintfBuf
  | 0, _ => b
  | n + 1, c => (b.put c).pad n c

end SnprintfBuf

/-! ## conversions -/

def emitPadded (b : SnprintfBuf) (str : Nat → Except Fault (BitVec 8)) (len : Nat)
    (width : BitVec 32) (left : Bool) (pad : BitVec 8) :
    Except Fault SnprintfBuf :=
  if width.toInt > 0 ∧ width.toNat > len then
    let plen := width.toNat - len
    if left then do
      let b ← b.write str len
      .ok (b.pad plen pad)
    else (b.pad plen pad).write str len
  else b.write str len

def fmtToBase (fmt : BitVec 8) : Nat :=
  if fmt = chr 'b' then 2 else if fmt = chr 'o' then 8
    else if fmt = chr 'x' ∨ fmt = chr 'X' then 16 else 10

def fmtIsUnsigned (fmt : BitVec 8) : Bool := fmt = chr 'u'

def fmtIsChar (fmt : BitVec 8) : Bool := fmt = chr 'c'

def fmtIsBool (fmt : BitVec 8) : Bool := fmt = chr 'b'

/-- An argument.  Integers of up to 32 bits are extended to 32 bits with or without
their sign, as the casts in `formatRaw` do. -/
inductive Arg where
  | int (value : BitVec 32)
  | int64 (value : BitVec 64)
  | uint (value : BitVec 32)
  | uint64 (value : BitVec 64)
  | uchar (value : BitVec 8)
  | char (value : BitVec 8)
  | bool (value : Bool)
  /-- `const char *`, null for `none` -/
  | cstr (value : Option CharSeq)
  /-- `char *` -/
  | str (value : Option CharSeq)
  | view (value : CharSeq)
  /-- pointers, and `nullptr` -/
  | ptr (addr : BitVec 32)

/-- `for (char *p = tmp; *p; p++) buf.put(*p);`, with what a formatter left in `tmp`. -/
def putTmp (b : SnprintfBuf) (tmp : Except Fault (Nat → BitVec 8)) : Except Fault SnprintfBuf := do
  let tmp ← tmp
  let cs ← readText .overread 0 65 tmp 0
  .ok (b.putAll cs)

section

variable (junk : Nat → BitVec 8) (b : SnprintfBuf)

def formatUint32 (value : BitVec 32) (fmt : BitVec 8) : Except Fault SnprintfBuf :=
  putTmp b (utos 65 0 value junk (fmtToBase fmt) (isupper fmt))

def formatUint64 (value : BitVec 64) (fmt : BitVec 8) : Except Fault SnprintfBuf :=
  putTmp b (ltos 65 0 value junk (fmtToBase fmt) (isupper fmt))

def formatInt32 (value : BitVec 32) (fmt : BitVec 8) : Except Fault SnprintfBuf :=
  if fmtIsUnsigned fmt then formatUint32 junk b value fmt
  else putTmp b (itos 65 0 value junk (fmtToBase fmt) (isupper fmt))

/-- `*out++ = '-'` before the digits of a negative number. -/
def formatInt64 (value : BitVec 64) (fmt : BitVec 8) : Except Fault SnprintfBuf :=
  if fmtIsUnsigned fmt then formatUint64 junk b value fmt
  else if value.toInt < 0 then
    putTmp b (do
      let tmp ← Cells.write .overrun 65 junk 0 (chr '-')
      ltos 65 1 (-value) tmp (fmtToBase fmt) (isupper fmt))
  else putTmp b (ltos 65 0 value junk (fmtToBase fmt) (isupper fmt))

def formatPtr (addr : BitVec 32) : Except Fault SnprintfBuf :=
  putTmp ((b.put (chr '0')).put (chr 'x')) (ltos 65 0 (addr.setWidth 64) junk 16 false)

def formatRaw (fmt : BitVec 8) : Arg → Except Fault SnprintfBuf
  | .int value => formatInt32 junk b value fmt
  | .int64 value => formatInt64 junk b value fmt
  | .uint value => formatUint32 junk b value fmt
  | .uint64 value => formatUint64 junk b value fmt
  | .uchar value => if fmtIsChar fmt then .ok (b.put value)
      else formatUint32 junk b (value.setWidth 32) fmt
  | .char value =>
      if fmtIsUnsigned fmt then
        -- as an `unsigned char`
        if fmtIsChar fmt then .ok (b.put value) else formatUint32 junk b (value.setWidth 32) fmt
      else if fmtIsChar fmt then .ok (b.put value)
      else formatInt32 junk b (value.signExtend 32) fmt
  | .bool value =>
      if fmtIsBool fmt then .ok (b.writestr (some (if value then lit "true" else lit "false")))
      else .ok (b.writestr (some (if value then lit "1" else lit "0")))
  | .cstr value | .str value => .ok (b.writestr (value.map CharSeq.chars))
  | .view value => .ok (b.putAll value.chars)
  | .ptr addr => formatPtr junk b addr

/-- The characters of a string, and its terminator. -/
def charAt (cs : List (BitVec 8)) (i : Nat) : Except Fault (BitVec 8) :=
  match cs[i]? with
  | some c => .ok c
  | none => if i = cs.length then .ok 0 else .error .overread

/-- `formatPut`, through `tmp[1024]`. -/
def formatPutTmp (value : Arg) (fmt : BitVec 8) (width : BitVec 32) (left : Bool) (pad : BitVec 8) :
    Except Fault SnprintfBuf := do
  let mbuf ← formatRaw junk ⟨junk, 1024, 0⟩ fmt value
  emitPadded b (read .overread 1024 mbuf.buf) mbuf.pos width left pad

/-- `formatPut` and its specialisations, which always pad with spaces. -/
def formatPut (value : Arg) (fmt : BitVec 8) (width : BitVec 32) (left : Bool) (pad : BitVec 8) :
    Except Fault SnprintfBuf :=
  match value with
  | .cstr s => let value := (s.map CharSeq.chars).getD (lit "(NULL)")
      emitPadded b (charAt value) value.length width left (chr ' ')
  | .view s => emitPadded b (charAt s.chars) s.chars.length width left (chr ' ')
  | value => formatPutTmp junk b value fmt width left pad

end

/-! ## the format -/

/-- `*format`. -/
def deref : List (BitVec 8) → BitVec 8
  | [] => 0
  | c :: _ => c

/-- `format++`, which can leave the string. -/
def next : List (BitVec 8) → Option (List (BitVec 8))
  | [] => none
  | _ :: format => some format

/-- `while (*format == '-') { left = true; format++; }`. -/
def skipMinus : Bool → List (BitVec 8) → Bool × List (BitVec 8)
  | left, [] => (left, [])
  | left, c :: format => if c = chr '-' then skipMinus true format else (left, c :: format)

/-- `while (isdigit(*format)) width = width * 10 + (*format++ - '0');`. -/
def widthLoop : BitVec 32 → List (BitVec 8) → BitVec 32 × List (BitVec 8)
  | width, [] => (width, [])
  | width, c :: format =>
      if isdigit c then widthLoop (width * 10 + (c.setWidth 32 - 0x30)) format
        else (width, c :: format)

/-- The flags and the width of a directive. -/
structure Directive where
  left : Bool
  pad : BitVec 8
  width : BitVec 32
  deriving DecidableEq

/-- The part of a directive behind its first `-` flags; `-` overrides `0`. -/
def directive (left : Bool) (format : List (BitVec 8)) : Directive × List (BitVec 8) :=
  let flags := if deref format = chr '0' then
      let minus := skipMinus left format.tail
      (minus.1, chr '0', minus.2)
    else (left, chr ' ', format)
  let width := widthLoop 0 flags.2.2
  (⟨flags.1, if flags.1 then chr ' ' else flags.2.1, width.1⟩, width.2)

/-- `walkFormat` without arguments. -/
def walkPlain (b : SnprintfBuf) : List (BitVec 8) → SnprintfBuf
  | [] => b
  | c :: format =>
      if c = chr '%' then
        match format with
        | [] => (b.put (chr '%')).writestr (some [])
        | c' :: format' => if c' = chr '%' then walkPlain (b.put (chr '%')) format'
            else (b.put (chr '%')).writestr (some (c' :: format'))
      else walkPlain (b.put c) format

/-- Skipping does not go back. -/
theorem skipMinus_length (left : Bool) (format : List (BitVec 8)) :
    (skipMinus left format).2.length ≤ format.length := by
  induction format generalizing left with
  | nil => exact Nat.le_refl _
  | cons c format ih =>
      unfold skipMinus
      split
      · exact Nat.le_succ_of_le (ih true)
      · exact Nat.le_refl _

/-- Reading a width does not go back. -/
theorem widthLoop_length (width : BitVec 32) (format : List (BitVec 8)) :
    (widthLoop width format).2.length ≤ format.length := by
  induction format generalizing width with
  | nil => exact Nat.le_refl _
  | cons c format ih =>
      unfold widthLoop
      split
      · exact Nat.le_succ_of_le (ih _)
      · exact Nat.le_refl _

/-- Reading a directive does not go back. -/
theorem directive_length (left : Bool) (format : List (BitVec 8)) :
    (directive left format).2.length ≤ format.length := by
  refine (widthLoop_length 0 _).trans ?_
  split
  · exact (skipMinus_length left format.tail).trans (by simp)
  · exact Nat.le_refl _

/-- How much a pointer can be advanced. -/
def room : Option (List (BitVec 8)) → Nat
  | none => 0
  | some format => format.length + 1

/-- One character on. -/
theorem room_next (format : List (BitVec 8)) : room (next format) ≤ format.length := by
  cases format with
  | nil => exact Nat.le_refl _
  | cons c format => exact Nat.le_refl _

/-- `walkFormat`. -/
def walkFormat (junk : Nat → BitVec 8) : List Arg → SnprintfBuf → Option (List (BitVec 8)) →
    Except Fault SnprintfBuf
  | _, _, none => .error .pastEnd
  | [], b, some format => .ok (walkPlain b format)
  | _ :: _, b, some [] => .ok b
  | value :: args, b, some (c :: format) =>
      if c = chr '%' then
        if deref (skipMinus false format).2 = chr '%' then
          walkFormat junk (value :: args) (b.put (chr '%')) (some (skipMinus false format).2.tail)
        else do
          let d := directive (skipMinus false format).1 (skipMinus false format).2
          let b ← formatPut junk b value (deref d.2) d.1.width d.1.left d.1.pad
          walkFormat junk args b (next d.2)
      else walkFormat junk (value :: args) (b.put c) (some format)
termination_by _ _ p => room p
decreasing_by
  · have := skipMinus_length false format
    simp only [room, List.length_tail, List.length_cons]
    omega
  · refine Nat.lt_of_le_of_lt
      ((room_next _).trans ((directive_length _ _).trans (skipMinus_length false format))) ?_
    exact Nat.lt_succ_of_lt (Nat.lt_succ_self _)
  · simp [room]

/-- `snprintf`, with the `int` that it returns. -/
def snprintf (junk s : Nat → BitVec 8) (n : Nat) (format : List (BitVec 8)) (args : List Arg) :
    Except Fault (Int × (Nat → BitVec 8)) := do
  let b ← walkFormat junk args ⟨s, n, 0⟩ (some format)
  let s := if n > 0 then if b.pos < n then set b.buf b.pos 0 else set b.buf (n - 1) 0 else b.buf
  .ok ((BitVec.ofNat 32 b.pos).toInt, s)

/-- `sprintf`, with the greatest `size_t` for a capacity. -/
def sprintf (junk s : Nat → BitVec 8) (format : List (BitVec 8)) (args : List Arg) :
    Except Fault (Int × (Nat → BitVec 8)) := do
  let b ← walkFormat junk args ⟨s, 2 ^ 32 - 1, 0⟩ (some format)
  .ok ((BitVec.ofNat 32 b.pos).toInt, set b.buf b.pos 0)

variable {junk : Nat → BitVec 8} {b : SnprintfBuf} {cs ds : List (BitVec 8)}
  {s : Nat → Except Fault (BitVec 8)} {fmt pad : BitVec 8}
  {width : BitVec 32} {left : Bool} {i n : Nat}

/-! ## what the sink keeps -/

namespace SnprintfBuf

/-- One more character. -/
theorem putAll_cons (b : SnprintfBuf) (c : BitVec 8) (cs : List (BitVec 8)) :
    b.putAll (c :: cs) = (b.put c).putAll cs := rfl

/-- Two texts. -/
theorem putAll_append (b : SnprintfBuf) (cs ds : List (BitVec 8)) :
    b.putAll (cs ++ ds) = (b.putAll cs).putAll ds := List.foldl_append

@[simp] theorem put_cap (b : SnprintfBuf) (c : BitVec 8) : (b.put c).cap = b.cap := rfl

/-- Padding is a run of characters. -/
theorem pad_eq (b : SnprintfBuf) (n : Nat) (c : BitVec 8) :
    b.pad n c = b.putAll (List.replicate n c) := by
  induction n generalizing b with
  | zero => rfl
  | succ n ih => exact ih (b.put c)

/-- **A run of characters**: the sink counts them all and keeps those below its capacity. -/
theorem putAll_eq (h : b.pos + cs.length < 2 ^ 32) : b.putAll cs =
    ⟨fun k => if k < b.cap then Text.put b.buf b.pos cs k
      else b.buf k, b.cap, b.pos + cs.length⟩ := by
  induction cs generalizing b with
  | nil =>
      show b = _
      simp only [put_nil, ite_self, List.length_nil, Nat.add_zero]
  | cons c cs ih =>
      rw [List.length_cons] at h
      have hpos : (b.put c).pos = b.pos + 1 := Nat.mod_eq_of_lt (by omega)
      rw [putAll_cons, ih (by omega), hpos, put_cap, List.length_cons, Nat.add_assoc,
        Nat.add_comm 1]
      congr 1
      funext k
      by_cases hk : k < b.cap
      · rw [if_pos hk, if_pos hk, ← put_cons]
        unfold put
        by_cases hin : b.pos < b.cap
        · dsimp only
          rw [if_pos hin]
        · dsimp only
          rw [if_neg hin, put_of_lt _ _ (by omega), put_of_lt _ _ (by omega),
            set_of_ne _ _ (by omega)]
      · rw [if_neg hk, if_neg hk]
        unfold put
        dsimp only
        split
        · exact set_of_ne _ _ (by omega)
        · rfl

/-- `write` puts the characters it reads. -/
theorem writeFrom_eq (h : ∀ j (hj : j < cs.length), s (i + j) = .ok cs[j]) :
    writeFrom s i cs.length b = .ok (b.putAll cs) := by
  induction cs generalizing i b with
  | nil => rfl
  | cons c cs ih =>
      have hc : s i = .ok c := h 0 (by simp)
      rw [List.length_cons, writeFrom, hc, putAll_cons]
      refine ih fun j hj => ?_
      have hnext := h (j + 1) (by simpa using hj)
      rwa [show i + (j + 1) = i + 1 + j by omega, List.getElem_cons_succ] at hnext

/-- A source that ends too early. -/
theorem writeFrom_error {k : Nat} {e : Fault} (h : ∀ j < k, ∃ c, s (i + j) = .ok c)
    (he : s (i + k) = .error e) (hk : k < n) :
    writeFrom s i n b = .error e := by
  induction k generalizing i n b with
  | zero =>
      obtain ⟨n, rfl⟩ := Nat.exists_eq_add_of_lt hk
      rw [Nat.zero_add, writeFrom, show s i = .error e from he]
      rfl
  | succ k ih =>
      obtain ⟨n, rfl⟩ := Nat.exists_eq_add_of_lt hk
      obtain ⟨c, hc⟩ := h 0 (by omega)
      rw [writeFrom, show s i = .ok c from hc]
      refine ih (fun j hj => ?_) (by rw [← he]; congr 1; omega) (by omega)
      obtain ⟨c', hc'⟩ := h (j + 1) (by omega)
      exact ⟨c', by rw [← hc']; congr 1; omega⟩

/-- `write` puts a text. -/
theorem write_charAt (b : SnprintfBuf) (cs : List (BitVec 8)) :
    b.write (charAt cs) cs.length = .ok (b.putAll cs) := by
  refine writeFrom_eq fun j hj => ?_
  unfold charAt
  rw [Nat.zero_add, List.getElem?_eq_getElem hj]

end SnprintfBuf

/-! ## what is emitted -/

/-- A text padded to a width. -/
def padded (cs : List (BitVec 8)) (width : BitVec 32) (left : Bool) (pad : BitVec 8) :
    List (BitVec 8) :=
  let fill := if width.toInt > 0 then List.replicate (width.toNat - cs.length) pad else []
  if left then cs ++ fill else fill ++ cs

/-- A text with its padding. -/
theorem emitPadded_eq (hs : ∀ b : SnprintfBuf, b.write s cs.length = .ok (b.putAll cs)) :
    emitPadded b s cs.length width left pad = .ok (b.putAll (padded cs width left pad)) := by
  unfold emitPadded padded
  by_cases hpad : width.toInt > 0 ∧ width.toNat > cs.length
  · rw [if_pos hpad, if_pos hpad.1]
    cases left with
    | true =>
        rw [if_pos rfl, if_pos rfl, hs, SnprintfBuf.putAll_append, ← SnprintfBuf.pad_eq]
        rfl
    | false =>
        rw [if_neg Bool.false_ne_true, if_neg Bool.false_ne_true, hs, SnprintfBuf.putAll_append,
          SnprintfBuf.pad_eq]
  · have hfill : (if width.toInt > 0 then List.replicate (width.toNat - cs.length) pad else []) =
        [] := by
      split
      · next hpos => rw [Nat.sub_eq_zero_of_le (Nat.not_lt.mp fun hlt => hpad ⟨hpos, hlt⟩),
          List.replicate_zero]
      · rfl
    rw [if_neg hpad, hs, hfill]
    dsimp only
    rw [List.append_nil, List.nil_append, ite_self]

/-- The characters that `formatRaw` puts. -/
def rawText (fmt : BitVec 8) : Arg → List (BitVec 8)
  | .int value =>
      if fmtIsUnsigned fmt then numeral (fmtToBase fmt) (isupper fmt) value.toNat
        else signedNumeral (fmtToBase fmt) (isupper fmt) value.toInt
  | .int64 value =>
      if fmtIsUnsigned fmt then numeral (fmtToBase fmt) (isupper fmt) value.toNat
        else signedNumeral (fmtToBase fmt) (isupper fmt) value.toInt
  | .uint value => numeral (fmtToBase fmt) (isupper fmt) value.toNat
  | .uint64 value => numeral (fmtToBase fmt) (isupper fmt) value.toNat
  | .uchar value => if fmtIsChar fmt then [value]
      else numeral (fmtToBase fmt) (isupper fmt) value.toNat
  | .char value =>
      if fmtIsUnsigned fmt then numeral (fmtToBase fmt) (isupper fmt) value.toNat
      else if fmtIsChar fmt then [value]
      else signedNumeral (fmtToBase fmt) (isupper fmt) value.toInt
  | .bool value => if fmtIsBool fmt then (if value then lit "true" else lit "false")
      else if value then lit "1" else lit "0"
  | .cstr value | .str value => (value.map CharSeq.chars).getD (lit "(NULL)")
  | .view value => value.chars
  | .ptr addr => [chr '0', chr 'x'] ++ numeral 16 false addr.toNat

/-- The least 64-bit number in binary is a sign and 64 digits. -/
def rawFits (fmt : BitVec 8) : Arg → Bool
  | .int64 value => ¬ (value = 0x8000000000000000 ∧ fmt = chr 'b')
  | _ => true

/-- The bases of the conversions. -/
theorem fmtToBase_readable (fmt : BitVec 8) : Readable (fmtToBase fmt) := by
  unfold Readable fmtToBase
  split <;> [omega; split <;> [omega; split <;> omega]]

/-- A numeral has no terminator in it. -/
theorem numeral_plain {base num : Nat} {upcase : Bool} (h : Readable base) :
    0 ∉ numeral base upcase num :=
  nul_not_mem (numeral_accepts h upcase num)

/-- A signed numeral has no terminator in it. -/
theorem signedNumeral_plain {base : Nat} {num : Int} {upcase : Bool} (h : Readable base) :
    0 ∉ signedNumeral base upcase num := by
  unfold signedNumeral
  intro hin
  rcases List.mem_append.mp hin with hsign | hdigits
  · split at hsign
    · exact absurd (List.mem_singleton.mp hsign) (by decide)
    · exact List.not_mem_nil hsign
  · exact numeral_plain h hdigits

/-- A formatter's text, put from `tmp`. -/
theorem putTmp_eq (h : 0 ∉ cs) :
    putTmp b (if cs.length + 1 ≤ 65 then .ok (put junk 0 (cs ++ [0])) else .error .overrun) =
    if cs.length + 1 ≤ 65 then .ok (b.putAll cs) else .error .overrun := by
  unfold putTmp
  split
  · next hfit =>
      have hread : readText Fault.overread 0 65 (put junk 0 (cs ++ [0])) 0 = .ok cs :=
        readText_eq (holds_put 0 junk 0 h) (by omega)
      show (readText Fault.overread 0 65 (put junk 0 (cs ++ [0])) 0 >>= _) = _
      rw [hread]
      rfl
  · rfl

/-- An unsigned argument of 32 bits. -/
theorem formatUint32_eq (value : BitVec 32) :
    formatUint32 junk b value fmt =
      .ok (b.putAll (numeral (fmtToBase fmt) (isupper fmt) value.toNat)) := by
  have hbase := fmtToBase_readable fmt
  have hlen := numeral_length_le (isupper fmt) hbase.one_lt (by omega) value.isLt
  unfold formatUint32
  rw [utos_eq hbase.one_lt, Nat.zero_add, putTmp_eq (numeral_plain hbase), if_pos (by omega)]

/-- An unsigned argument of 64 bits. -/
theorem formatUint64_eq (value : BitVec 64) :
    formatUint64 junk b value fmt =
      .ok (b.putAll (numeral (fmtToBase fmt) (isupper fmt) value.toNat)) := by
  have hbase := fmtToBase_readable fmt
  have hlen := numeral_length_le (isupper fmt) hbase.one_lt (by omega) value.isLt
  unfold formatUint64
  rw [ltos_eq hbase.one_lt, Nat.zero_add, putTmp_eq (numeral_plain hbase), if_pos (by omega)]

/-- An `int` argument, whatever the conversion. -/
theorem formatInt32_eq (value : BitVec 32) : formatInt32 junk b value fmt =
    .ok (b.putAll (rawText fmt (.int value))) := by
  have hbase := fmtToBase_readable fmt
  have hlen := signedNumeral_length_le (isupper fmt) hbase.one_lt (by omega) value
  unfold formatInt32 rawText
  split
  · exact formatUint32_eq value
  · rw [itos_eq hbase.one_lt, Nat.zero_add, putTmp_eq (signedNumeral_plain hbase),
      if_pos (by omega)]

/-- A pointer. -/
theorem formatPtr_eq (addr : BitVec 32) : formatPtr junk b addr =
    .ok (b.putAll (rawText fmt (.ptr addr))) := by
  have hbase : Readable 16 := .inr rfl
  have hlen := numeral_length_le false hbase.one_lt (by omega) (addr.setWidth 64).isLt
  have hvalue : (addr.setWidth 64).toNat = addr.toNat := by
    rw [BitVec.toNat_setWidth, Nat.mod_eq_of_lt (by omega)]
  unfold formatPtr rawText
  rw [ltos_eq hbase.one_lt, Nat.zero_add, putTmp_eq (numeral_plain hbase),
    if_pos (by omega), hvalue]
  rfl

/-- Digits in the bases from 8 on. -/
theorem numeral_length_le_of_ge_eight {base num : Nat} (upcase : Bool) (hbase : 8 ≤ base)
    (hnum : num < 2 ^ 64) :
    (numeral base upcase num).length ≤ 22 := by
  unfold numeral
  split
  · exact Nat.le_add_left 1 21
  · rw [List.length_reverse, List.length_map, Nat.digits_length_le_iff (by omega)]
    calc num < 2 ^ 64 := hnum
      _ ≤ 8 ^ 22 := by norm_num
      _ ≤ base ^ 22 := Nat.pow_le_pow_left hbase 22

/-- Only `%b` is binary. -/
theorem fmtToBase_eq_two : fmtToBase fmt = 2 ↔ fmt = chr 'b' := by
  unfold fmtToBase
  split
  · next hb => exact iff_of_true rfl hb
  · next hb =>
      refine iff_of_false ?_ hb
      split <;> [omega; split <;> omega]

/-- **The worst case**: behind a sign, only the least number in binary is too long. -/
theorem negative_fits {value : BitVec 64} (hneg : value.toInt < 0) :
    (signedNumeral (fmtToBase fmt) (isupper fmt) value.toInt).length + 1 ≤ 65 ↔
      rawFits fmt (.int64 value) = true := by
  have hbase := fmtToBase_readable fmt
  have hlen : (signedNumeral (fmtToBase fmt) (isupper fmt) value.toInt).length =
      1 + (numeral (fmtToBase fmt) (isupper fmt) value.toInt.natAbs).length := by
    unfold signedNumeral
    rw [if_pos hneg, List.length_append, List.length_singleton]
  have hrange := BitVec.le_toInt value
  have hleast : value = 0x8000000000000000 ↔ ¬ value.toInt.natAbs < 2 ^ 63 := by
    constructor
    · rintro rfl
      decide
    · intro hge
      apply BitVec.eq_of_toInt_eq
      rw [show (0x8000000000000000 : BitVec 64).toInt = -2 ^ 63 by decide]
      omega
  have hfits : rawFits fmt (.int64 value) = true ↔ ¬ (value = 0x8000000000000000 ∧ fmt = chr 'b') :=
    decide_eq_true_iff
  rw [hfits, hlen, hleast, ← fmtToBase_eq_two]
  by_cases htwo : fmtToBase fmt = 2
  · have hnum : value.toInt.natAbs ≠ 0 := by omega
    rw [htwo]
    unfold numeral
    rw [if_neg hnum, List.length_reverse, List.length_map]
    have hdigits := Nat.digits_length_le_iff (k := 63) (b := 2) (by omega) value.toInt.natAbs
    omega
  · have height : 8 ≤ fmtToBase fmt := by
      unfold fmtToBase at htwo ⊢
      split
      · next hb => exact absurd (if_pos hb) htwo
      · split
        · omega
        · split <;> omega
    have hshort :=
      numeral_length_le_of_ge_eight (isupper fmt) height (show value.toInt.natAbs < 2 ^ 64 by omega)
    exact iff_of_true (by omega) fun hboth => htwo hboth.2

/-- A `long long` argument, which does not always fit its array. -/
theorem formatInt64_eq (value : BitVec 64) : formatInt64 junk b value fmt =
    if fmtIsUnsigned fmt ∨ rawFits fmt (.int64 value)
      then .ok (b.putAll (rawText fmt (.int64 value))) else .error .overrun := by
  have hbase := fmtToBase_readable fmt
  unfold formatInt64
  split
  · next hu =>
      have htext : rawText fmt (.int64 value) = numeral (fmtToBase fmt) (isupper fmt) value.toNat :=
        if_pos hu
      rw [if_pos (.inl hu), htext]
      exact formatUint64_eq value
  · next hu =>
      have htext : rawText fmt (.int64 value) =
        signedNumeral (fmtToBase fmt) (isupper fmt) value.toInt := if_neg hu
      rw [htext]
      split
      · next hneg =>
          have htmp : (Cells.write Fault.overrun 65 junk 0 (chr '-') >>=
            fun tmp => ltos 65 1 (-value) tmp (fmtToBase fmt) (isupper fmt)) =
              if (signedNumeral (fmtToBase fmt) (isupper fmt) value.toInt).length + 1 ≤ 65 then
                .ok (put junk 0 (signedNumeral (fmtToBase fmt) (isupper fmt) value.toInt ++ [0]))
                  else .error .overrun := by
            rw [write_of_lt (by omega)]
            show ltos 65 1 (-value) (set junk 0 (chr '-')) _ _ = _
            unfold signedNumeral
            rw [ltos_eq hbase.one_lt, if_pos hneg, natAbs_toInt hneg, List.singleton_append,
              List.length_cons, List.cons_append, ← put_cons,
              Nat.add_comm 1]
          rw [htmp, putTmp_eq (signedNumeral_plain hbase)]
          by_cases hfits : rawFits fmt (.int64 value) = true
          · rw [if_pos ((negative_fits hneg).mpr hfits), if_pos (.inr hfits)]
          · rw [if_neg (mt (negative_fits hneg).mp hfits), if_neg (not_or.mpr ⟨hu, hfits⟩)]
      · next hneg =>
          have hlen := numeral_length_le (isupper fmt) hbase.one_lt (by omega) value.isLt
          have hfits : rawFits fmt (.int64 value) = true := by
            refine decide_eq_true fun hboth => hneg ?_
            rw [hboth.1]
            decide
          rw [if_pos (.inr hfits), ltos_eq hbase.one_lt, Nat.zero_add,
            putTmp_eq (numeral_plain hbase), if_pos (by omega)]
          unfold signedNumeral
          rw [if_neg hneg, List.nil_append, toInt_natAbs hneg]

/-- **What `formatRaw` puts.** -/
theorem formatRaw_eq (value : Arg) : formatRaw junk b fmt value =
    if rawFits fmt value then .ok (b.putAll (rawText fmt value)) else .error .overrun := by
  cases value with
  | int value => exact formatInt32_eq value
  | int64 value =>
      have hsame : (fmtIsUnsigned fmt = true ∨ rawFits fmt (.int64 value) = true) ↔
          rawFits fmt (.int64 value) = true := by
        refine or_iff_right_of_imp fun hu => decide_eq_true fun hboth => ?_
        rw [hboth.2] at hu
        exact absurd hu (by decide)
      show formatInt64 junk b value fmt = _
      rw [formatInt64_eq]
      exact if_congr hsame rfl rfl
  | uint value => exact formatUint32_eq value
  | uint64 value => exact formatUint64_eq value
  | uchar value =>
      show (if _ then _ else _) = Except.ok (b.putAll (if _ then _ else _))
      split
      · rfl
      · rw [formatUint32_eq, BitVec.toNat_setWidth, Nat.mod_eq_of_lt (by omega)]
  | char value =>
      show (if _ then (if _ then _ else _) else if _ then _ else _) =
        Except.ok (b.putAll (if _ then _ else if _ then _ else _))
      split
      · next hu =>
          have hc : ¬ fmtIsChar fmt = true := by
            intro hc
            rw [of_decide_eq_true hu] at hc
            exact absurd hc (by decide)
          rw [if_neg hc, formatUint32_eq, BitVec.toNat_setWidth, Nat.mod_eq_of_lt (by omega)]
      · next hu =>
          split
          · rfl
          · have htext : rawText fmt (.int (value.signExtend 32)) =
                signedNumeral (fmtToBase fmt) (isupper fmt) (value.signExtend 32).toInt :=
              if_neg hu
            rw [formatInt32_eq, htext, BitVec.toInt_signExtend_of_le (by omega)]
  | bool value =>
      show (if _ then _ else _) = Except.ok (b.putAll (if _ then _ else _))
      split
      · rfl
      · rfl
  | cstr value => rfl
  | str value => rfl
  | view value => rfl
  | ptr addr => exact formatPtr_eq addr

/-! ## the conversion buffer of `formatPut` -/

/-- A `char *` of more than 1024 characters does not fit either. -/
def fits (fmt : BitVec 8) : Arg → Bool
  | .str (some s) => s.chars.length ≤ 1024
  | value => rawFits fmt value

/-- The padded text of a conversion. -/
def field (value : Arg) (fmt : BitVec 8) (width : BitVec 32) (left : Bool) (pad : BitVec 8) :
    List (BitVec 8) :=
  match value with
  | .cstr _ | .view _ => padded (rawText fmt value) width left (chr ' ')
  | _ => padded (rawText fmt value) width left pad

/-- A conversion through `tmp`. -/
theorem formatPutTmp_eq {value : Arg} (hfits : rawFits fmt value = true)
    (hlen : (rawText fmt value).length ≤ 1024) :
    formatPutTmp junk b value fmt width left pad =
      .ok (b.putAll (padded (rawText fmt value) width left pad)) := by
  have hsink : (SnprintfBuf.mk junk 1024 0).putAll (rawText fmt value) = _ :=
    SnprintfBuf.putAll_eq (by dsimp only; omega)
  have hread : ∀ b : SnprintfBuf, b.write (read .overread 1024 fun k => if k < 1024
    then put junk 0 (rawText fmt value) k else junk k)
      (rawText fmt value).length = .ok (b.putAll (rawText fmt value)) := by
    refine fun b => SnprintfBuf.writeFrom_eq fun j hj => ?_
    rw [read_of_lt (by omega), if_pos (by omega), put_at _ _ hj]
  unfold formatPutTmp
  rw [formatRaw_eq, if_pos hfits, hsink]
  show emitPadded _ _ (0 + _) _ _ _ = _
  rw [Nat.zero_add]
  exact emitPadded_eq hread

/-- What is no string is short. -/
theorem rawText_length_le {value : Arg} (hstr : ∀ s, value ≠ .cstr s ∧ value ≠ .str s)
    (hview : ∀ s, value ≠ .view s) :
    (rawText fmt value).length ≤ 66 := by
  have hbase := fmtToBase_readable fmt
  have hnumeral : ∀ {bits : Nat} (v : BitVec bits), 0 < bits → bits ≤ 64 →
      (numeral (fmtToBase fmt) (isupper fmt) v.toNat).length ≤ 66 :=
    fun v hbits hle => (numeral_length_le _ hbase.one_lt hbits v.isLt).trans (hle.trans (by omega))
  have hsigned : ∀ {bits : Nat} (v : BitVec bits), 0 < bits → bits ≤ 64 →
      (signedNumeral (fmtToBase fmt) (isupper fmt) v.toInt).length ≤ 66 :=
    fun v hbits hle => (signedNumeral_length_le _ hbase.one_lt hbits v).trans (by omega)
  cases value with
  | int value =>
      show (if _ then _ else _ : List (BitVec 8)).length ≤ 66
      split
      · exact hnumeral value (by omega) (by omega)
      · exact hsigned value (by omega) (by omega)
  | int64 value =>
      show (if _ then _ else _ : List (BitVec 8)).length ≤ 66
      split
      · exact hnumeral value (by omega) (by omega)
      · exact hsigned value (by omega) (by omega)
  | uint value => exact hnumeral value (by omega) (by omega)
  | uint64 value => exact hnumeral value (by omega) (by omega)
  | uchar value =>
      show (if _ then _ else _ : List (BitVec 8)).length ≤ 66
      split
      · exact Nat.le_add_left 1 65
      · exact hnumeral value (by omega) (by omega)
  | char value =>
      show (if _ then _ else if _ then _ else _ : List (BitVec 8)).length ≤ 66
      split
      · exact hnumeral value (by omega) (by omega)
      · split
        · exact Nat.le_add_left 1 65
        · exact hsigned value (by omega) (by omega)
  | bool value =>
      have hall : ∀ v : Bool, (if v then lit "true" else lit "false").length ≤ 66 ∧
        (if v then lit "1" else lit "0").length ≤ 66 := by decide
      show (if _ then _ else _ : List (BitVec 8)).length ≤ 66
      split
      · exact (hall value).1
      · exact (hall value).2
  | cstr s => exact absurd rfl (hstr s).1
  | str s => exact absurd rfl (hstr s).2
  | view s => exact absurd rfl (hview s)
  | ptr addr =>
      have hsixteen : 1 < 16 := by decide
      have hlen := numeral_length_le false hsixteen (by omega) addr.isLt
      show ([chr '0', chr 'x'] ++ _ : List (BitVec 8)).length ≤ 66
      rw [List.length_append, List.length_cons, List.length_singleton]
      omega

/-- **What `formatPut` emits**, when the conversion fits. -/
theorem formatPut_eq {value : Arg} (h : fits fmt value = true) :
    formatPut junk b value fmt width left pad =
      .ok (b.putAll (field value fmt width left pad)) := by
  have hnull : (lit "(NULL)").length ≤ 1024 := by decide
  cases value with
  | cstr s => exact emitPadded_eq fun b => SnprintfBuf.write_charAt b _
  | view s => exact emitPadded_eq fun b => SnprintfBuf.write_charAt b _
  | str s =>
      cases s with
      | none => exact formatPutTmp_eq rfl hnull
      | some s => exact formatPutTmp_eq rfl (of_decide_eq_true h)
  | int value => exact formatPutTmp_eq h ((rawText_length_le (by simp) (by simp)).trans (by omega))
  | int64 value =>
      exact formatPutTmp_eq h ((rawText_length_le (by simp) (by simp)).trans (by omega))
  | uint value => exact formatPutTmp_eq h ((rawText_length_le (by simp) (by simp)).trans (by omega))
  | uint64 value =>
      exact formatPutTmp_eq h ((rawText_length_le (by simp) (by simp)).trans (by omega))
  | uchar value =>
      exact formatPutTmp_eq h ((rawText_length_le (by simp) (by simp)).trans (by omega))
  | char value => exact formatPutTmp_eq h ((rawText_length_le (by simp) (by simp)).trans (by omega))
  | bool value => exact formatPutTmp_eq h ((rawText_length_le (by simp) (by simp)).trans (by omega))
  | ptr addr => exact formatPutTmp_eq h ((rawText_length_le (by simp) (by simp)).trans (by omega))

/-- A `tmp` that is read behind its end. -/
theorem emitPadded_overread {mbuf : Nat → BitVec 8} {len : Nat} (hlen : 1024 < len) :
    emitPadded b (read .overread 1024 mbuf) len width left pad = .error .overread := by
  have hwrite : ∀ b : SnprintfBuf, b.write (read .overread 1024 mbuf) len = .error .overread := by
    refine fun b => SnprintfBuf.writeFrom_error (k := 1024) (fun j hj => ⟨mbuf j, ?_⟩) ?_ hlen
    · rw [Nat.zero_add]
      exact read_of_lt hj
    · rfl
  unfold emitPadded
  split
  · cases left with
    | true =>
        rw [if_pos rfl, hwrite]
        rfl
    | false => rw [if_neg Bool.false_ne_true, hwrite]
  · exact hwrite b

/-- The least 64-bit number writes behind `tmp[65]`. -/
theorem formatPut_overrun {value : BitVec 64} (h : rawFits fmt (.int64 value) = false) :
    formatPut junk b (.int64 value) fmt width left pad = .error .overrun := by
  show formatPutTmp junk b (.int64 value) fmt width left pad = _
  unfold formatPutTmp
  rw [formatRaw_eq, h]
  rfl

/-- Of a long `char *`, more is read than `tmp[1024]` has. -/
theorem formatPut_overread {s : CharSeq} (h : 1024 < s.chars.length) :
    formatPut junk b (.str (some s)) fmt width left pad = .error .overread := by
  have hsink : (SnprintfBuf.mk junk 1024 0).putAll s.chars = _ :=
    SnprintfBuf.putAll_eq (by have := s.short; dsimp only; omega)
  show (Except.ok ((SnprintfBuf.mk junk 1024 0).putAll s.chars) >>= _) = _
  rw [hsink]
  exact emitPadded_overread (by dsimp only; omega)

/-- A conversion that does not fit. -/
theorem formatPut_error {value : Arg} (h : fits fmt value = false) :
    ∃ e, formatPut junk b value fmt width left pad = .error e ∧ e ≠ .pastEnd := by
  cases value with
  | str s =>
      cases s with
      | none => contradiction
      | some s =>
          exact ⟨.overread, formatPut_overread (Nat.not_le.mp (of_decide_eq_false h)), by decide⟩
  | int64 value => exact ⟨.overrun, formatPut_overrun h, by decide⟩
  | int _ | uint _ | uint64 _ | uchar _ | char _ | bool _ | cstr _ | view _ | ptr _ => contradiction

/-- **Conversions stay inside their buffers** exactly when they are not the least 64-bit
number in binary and not a `char *` of more than 1024 characters; then what the buffers
held before does not matter. -/
theorem conversion_fits_iff (junk : Nat → BitVec 8) (b : SnprintfBuf) (value : Arg) (fmt : BitVec 8)
    (width : BitVec 32) (left : Bool)
    (pad : BitVec 8) :
    ((∃ b', formatRaw junk b fmt value = .ok b') ↔ rawFits fmt value = true) ∧
    ((∃ b', formatPut junk b value fmt width left pad = .ok b') ↔ fits fmt value = true) ∧
    (fits fmt value = true → ∀ junk', formatPut junk' b value fmt width left pad =
      formatPut junk b value fmt width left pad) := by
  refine ⟨?_, ?_, fun hfits junk' => by rw [formatPut_eq hfits, formatPut_eq hfits]⟩
  · rw [formatRaw_eq]
    cases rawFits fmt value with
    | true => exact iff_of_true ⟨_, rfl⟩ rfl
    | false => exact iff_of_false (fun ⟨_, hok⟩ => by cases hok) Bool.false_ne_true
  · cases hfits : fits fmt value with
    | true => exact iff_of_true ⟨_, formatPut_eq hfits⟩ rfl
    | false =>
        have herror : ∃ e, formatPut junk b value fmt width left pad = .error e ∧ e ≠ .pastEnd :=
          formatPut_error hfits
        obtain ⟨e, he, -⟩ := herror
        exact iff_of_false (fun ⟨_, hok⟩ => by rw [he] at hok; cases hok) Bool.false_ne_true

/-- Both kinds of overflow. -/
theorem conversion_overflows :
    formatPut (fun _ => 0) ⟨fun _ => 0, 2048, 0⟩ (.int64 0x8000000000000000) (chr 'b') 0 false
      (chr ' ') = .error .overrun ∧
    formatPut (fun _ => 0) ⟨fun _ => 0, 2048, 0⟩
      (.str (some ⟨List.replicate 1025 (chr 'a'), by rw [List.length_replicate]; decide⟩))
      (chr 's') 0 false (chr ' ') = .error .overread :=
  ⟨formatPut_overrun (by decide), formatPut_overread (by rw [List.length_replicate]; decide)⟩

end Doors.Libcxx
