import Doors.Libcxx.Grammar
import Doors.User.Tokenize

/-!
# Doors.User.Kill

The command `kill` of the shell (`user/shell/CmdKill.cc`).

Its token is a view without an end of its own: `strtol` reads on to the terminator of
the line, and it reads signs anywhere and white space as long as its value is 0.

* `strtol_passed`, `strtol_stopped` — the texts that it takes whole, and their number;
* `kill_acts_on_argument_iff` — when two lines with one token have one outcome, the one
  that the token asks for;
* `kill_reads_on` — `kill 0 5` kills task 5.
-/

namespace Doors.Shell

open Cells Words Doors.Libcxx

def EXIT_SUCCESS : Nat := 0
def EXIT_FAILURE : Nat := 1
def EXIT_USAGE : Nat := 2

/-- The outcome of `kill`: the task that is passed to `TASKCTL_KILL`, the text that is
printed, and the exit status. -/
structure Reply where
  killed : Option (BitVec 32)
  text : String
  status : Nat
  deriving DecidableEq, Repr

/-- The C string at `s.data()`: the line from there to its terminator. -/
def cstrAt (line : List (BitVec 8)) (s : View) : List (BitVec 8) :=
  match s.data with
  | some start => (line.drop start).takeWhile (· ≠ 0)
  | none => []

def invalidId : Reply := ⟨none, "kill: invalid task id\n", EXIT_USAGE⟩

/-- The system call and what is said about it. -/
def taskctlKill (taskctl : BitVec 32 → Int) (id : BitVec 32) : Reply :=
  if taskctl id = 0 then ⟨some id, "Task " ++ toString id.toNat ++ " killed\n", EXIT_SUCCESS⟩
  else ⟨some id, "kill: task " ++ toString id.toNat ++ " not found or cannot be killed\n",
    EXIT_FAILURE⟩

/-- `cmdKill` on tokens of `line`; `taskctl` answers `sys_taskctl(TASKCTL_KILL, id, 0)`. -/
def cmdKill (taskctl : BitVec 32 → Int) (line : List (BitVec 8)) (args : List View) : Reply :=
  match args[1]? with
  | none => ⟨none, "Usage: kill <task-id>\n", EXIT_USAGE⟩
  | some s =>
      let str := cstrAt line s
      let (id, stop) := strtol str 10
      if stop = 0 ∨ stop ≠ str.length then invalidId else taskctlKill taskctl id

/-! ## what `strtol` takes whole -/

/-- A sign anywhere, a digit, or white space behind digits of a value that is 0 in 64 bits. -/
def ReadsOn (a : Nat) (ch : BitVec 8) : Prop :=
  (ch = chr '-' ∨ ch = chr '+') ∨ isdigit ch ∨ isspace ch ∧ 2 ^ 64 ∣ a

/-- The number that the digits in a text stand for, behind `a`. -/
def digitsOf (a : Nat) (t : List (BitVec 8)) : Nat := valueOf 10 a (t.filter isdigit)

/-- **A text that `strtol` takes whole**, behind digits of the value `a`. -/
def Passed (a : Nat) (t : List (BitVec 8)) : Prop :=
  ∀ p ch q, t = p ++ ch :: q → ReadsOn (digitsOf a p) ch

/-- Its number. -/
def worth (t : List (BitVec 8)) : BitVec 32 :=
  if minusFirst t then -BitVec.ofNat 32 (digitsOf 0 t) else BitVec.ofNat 32 (digitsOf 0 t)

variable {a i : Nat} {ch : BitVec 8} {t f tok : List (BitVec 8)}

/-- One more character. -/
theorem digitsOf_cons (a : Nat) (ch : BitVec 8) (t : List (BitVec 8)) :
    digitsOf a (ch :: t) = digitsOf (if isdigit ch then a * 10 + digitOf ch else a) t := by
  unfold digitsOf
  rw [List.filter_cons]
  split
  · exact valueOf_cons ..
  · rfl

/-- Nothing stops the loop at the end. -/
theorem passed_nil (a : Nat) : Passed a [] := fun p _ _ h => absurd h.symm (by simp)

/-- One more character. -/
theorem passed_cons : Passed a (ch :: t) ↔ ReadsOn a ch ∧
    Passed (if isdigit ch then a * 10 + digitOf ch else a) t := by
  constructor
  · intro h
    refine ⟨h [] ch t rfl, fun p x q heq => ?_⟩
    rw [← digitsOf_cons]
    exact h (ch :: p) x q (congrArg _ heq)
  · rintro ⟨hfirst, hrest⟩ p x q heq
    cases p with
    | nil =>
      obtain ⟨rfl, -⟩ := List.cons.inj heq
      exact hfirst
    | cons y p =>
      obtain ⟨rfl, rfl⟩ := List.cons.inj heq
      rw [digitsOf_cons]
      exact hrest p x q rfl

/-- The loop passes both parts. -/
theorem passed_append : Passed a (t ++ f) ↔ Passed a t ∧ Passed (digitsOf a t) f := by
  induction t generalizing a with
  | nil => exact ⟨fun h => ⟨passed_nil a, h⟩, fun h => h.2⟩
  | cons ch t ih => rw [List.cons_append, passed_cons, passed_cons, ih, digitsOf_cons, and_assoc]

/-- The value is 0 again after a wrap. -/
theorem ofNat_eq_zero : BitVec.ofNat 64 a = 0 ↔ 2 ^ 64 ∣ a := by
  rw [← BitVec.toNat_inj, BitVec.toNat_ofNat, Nat.dvd_iff_mod_eq_zero]
  rfl

/-- One step of the loop in base 10. -/
theorem loop_readsOn (h : ReadsOn a ch) :
    strtoullLoop (ch :: t) 10 (BitVec.ofNat 64 a) i =
      strtoullLoop t 10 (BitVec.ofNat 64 (if isdigit ch then a * 10 + digitOf ch else a))
        (i + 1) := by
  by_cases hdigit : isdigit ch = true
  · have hrun : strtoullLoop ([ch] ++ t) 10 (BitVec.ofNat 64 a) i =
        strtoullLoop t 10 (BitVec.ofNat 64 (valueOf 10 a [ch])) (i + 1) :=
      strtoull_digits (by decide) fun x hx => List.mem_singleton.mp hx ▸ hdigit
    rw [if_pos hdigit]
    exact hrun
  · rw [if_neg hdigit]
    rcases h with hsign | hd | ⟨hspace, hzero⟩
    · exact strtoullLoop_sign hsign
    · exact absurd hd hdigit
    · rw [ofNat_eq_zero.mpr hzero]
      exact strtoullLoop_passes (passes_of_isspace hspace)

/-- The loop stops. -/
theorem loop_stop (h : ¬ ReadsOn a ch) : strtoullLoop (ch :: t) 10 (BitVec.ofNat 64 a) i =
    (BitVec.ofNat 64 a, i) := by
  obtain ⟨hsign, hrest⟩ := not_or.mp h
  obtain ⟨hdigit, hspace⟩ := not_or.mp hrest
  rw [strtoullLoop.eq_def]
  dsimp only
  rw [if_neg hsign, if_neg fun hs => hspace ⟨hs.1, ofNat_eq_zero.mp hs.2⟩,
    if_neg (fun hz => absurd hz.1 (by decide)),
    if_pos (by rw [if_pos (by decide)]; exact hdigit)]

/-- The loop passes a text. -/
theorem loop_passed (h : Passed a t) : strtoullLoop t 10 (BitVec.ofNat 64 a) i =
    (BitVec.ofNat 64 (digitsOf a t), i + t.length) := by
  induction t generalizing a i with
  | nil => rfl
  | cons ch t ih =>
    obtain ⟨hfirst, hrest⟩ := passed_cons.mp h
    rw [loop_readsOn hfirst, ih hrest, digitsOf_cons, List.length_cons]
    congr 1
    omega

/-- The loop stops inside a text. -/
theorem loop_stopped (h : ¬ Passed a t) : (strtoullLoop t 10 (BitVec.ofNat 64 a) i).2 <
    i + t.length := by
  induction t generalizing a i with
  | nil => exact absurd (passed_nil a) h
  | cons ch t ih =>
    rw [List.length_cons]
    by_cases hfirst : ReadsOn a ch
    · rw [loop_readsOn hfirst]
      have hlt := ih (i := i + 1) fun hrest => h (passed_cons.mpr ⟨hfirst, hrest⟩)
      omega
    · rw [loop_stop hfirst]
      dsimp only
      omega

/-- The number of the loop in 32 bits. -/
theorem setWidth_ofNat (n : Nat) : (BitVec.ofNat 64 n).setWidth 32 = BitVec.ofNat 32 n := by
  rw [← BitVec.toNat_inj, BitVec.toNat_setWidth, BitVec.toNat_ofNat, BitVec.toNat_ofNat]
  omega

/-- **A text that is passed** is read to its end, as its number. -/
theorem strtol_passed (h : Passed 0 t) : strtol t 10 = (worth t, t.length) := by
  have hloop : strtoull t 10 = (BitVec.ofNat 64 (digitsOf 0 t), t.length) := by
    have hrun := loop_passed (i := 0) h
    rw [Nat.zero_add] at hrun
    exact hrun
  have hvalue := setWidth_ofNat (digitsOf 0 t)
  unfold strtol strtoll worth
  rw [hloop]
  dsimp only
  generalize BitVec.ofNat 64 (digitsOf 0 t) = res at hvalue ⊢
  rw [← hvalue]
  split
  · next hzero =>
    rw [hzero]
    dsimp only
    rw [show -BitVec.setWidth 32 (0 : BitVec 64) =
      BitVec.setWidth 32 (0 : BitVec 64) by decide, ite_self]
  · split
    · dsimp only
      have hneg : res * -1 = -res := by
        rw [BitVec.mul_neg]
        exact congrArg Neg.neg (BitVec.mul_one res)
      rw [hneg, BitVec.setWidth_neg_of_le (by decide)]
    · rfl

/-- Any other is not read to its end. -/
theorem strtol_stopped (h : ¬ Passed 0 t) : (strtol t 10).2 ≠ t.length := by
  have hlt := loop_stopped (i := 0) h
  have hend : (strtol t 10).2 = (strtoullLoop t 10 (BitVec.ofNat 64 0) 0).2 := by
    unfold strtol strtoll strtoull
    dsimp only
    split
    · rfl
    · split <;> rfl
  omega

/-! ## one argument, two lines -/

/-- **A decimal number**: at most one sign, and digits. -/
def Decimal (tok : List (BitVec 8)) : Prop :=
  ∃ sign neg ds, Sign sign neg ∧ ds ≠ [] ∧ (∀ ch ∈ ds, isdigit ch = true) ∧ tok = sign ++ ds

/-- Digits do not stop the loop. -/
theorem passed_digits (h : ∀ ch ∈ t, isdigit ch = true) : Passed a t := by
  rintro p ch q rfl
  exact .inr (.inl (h ch (by simp)))

/-- A number does not stop the loop. -/
theorem Decimal.passed (h : Decimal tok) : Passed 0 tok := by
  obtain ⟨sign, neg, ds, hsign, -, hds, rfl⟩ := h
  refine passed_append.mpr ⟨?_, passed_digits hds⟩
  cases hsign with
  | none => exact passed_nil 0
  | plus => exact passed_cons.mpr ⟨.inl (.inr rfl), passed_nil _⟩
  | minus => exact passed_cons.mpr ⟨.inl (.inl rfl), passed_nil _⟩

/-- A number has a digit. -/
theorem Decimal.ne_nil (h : Decimal tok) : tok ≠ [] := by
  obtain ⟨sign, neg, ds, -, hne, -, rfl⟩ := h
  exact List.append_ne_nil_of_right_ne_nil _ hne

/-- A number has no terminator in it. -/
theorem Decimal.nul (h : Decimal tok) : ∀ ch ∈ tok, ch ≠ 0 := by
  obtain ⟨sign, neg, ds, hsign, -, hds, rfl⟩ := h
  intro ch hch hzero
  subst hzero
  rcases List.mem_append.mp hch with hin | hin
  · cases hsign with
    | none => exact absurd hin List.not_mem_nil
    | plus => exact absurd (List.mem_singleton.mp hin) (by decide)
    | minus => exact absurd (List.mem_singleton.mp hin) (by decide)
  · exact absurd (hds 0 hin) (by decide)

/-- A delimiter is white space, and neither a sign nor a digit. -/
theorem readsOn_delimiter (h : isDelimiter ch = true) : ReadsOn a ch ↔ 2 ^ 64 ∣ a := by
  obtain ⟨hsign, hdigit, hspace⟩ : ¬ (ch = chr '-' ∨ ch = chr '+') ∧ isdigit ch = false ∧
      isspace ch = true := by
    rcases of_decide_eq_true h with rfl | rfl | rfl <;> decide
  constructor
  · rintro (hs | hd | ⟨-, hdvd⟩)
    · exact absurd hs hsign
    · exact absurd hd (by rw [hdigit]; exact Bool.false_ne_true)
    · exact hdvd
  · exact fun hdvd => .inr (.inr ⟨hspace, hdvd⟩)

/-- The second token of `line` is `s`. -/
def SecondToken (line : List (BitVec 8)) (args : List View) (s : View) : Prop :=
  (∃ buf, tokenize line buf = .ok args) ∧ args[1]? = some s

/-- What `strtol` finds at a token: the token, and a delimiter if anything follows. -/
theorem SecondToken.text {line : List (BitVec 8)} {args : List View} {s : View}
    (h : SecondToken line args s) (hnul : ∀ ch ∈ s.text line, ch ≠ 0) :
    ∃ f, cstrAt line s = s.text line ++ f ∧ ∀ ch q, f = ch :: q → isDelimiter ch = true := by
  obtain ⟨⟨buf, htok⟩, hget⟩ := h
  rw [tokenize_eq] at htok
  obtain rfl := Except.ok.inj htok
  rw [List.getElem?_map, Option.map_eq_some_iff] at hget
  obtain ⟨⟨i, n⟩, hin, rfl⟩ := hget
  have hword := mem_words.mp (List.mem_of_mem_take (List.mem_of_getElem? hin))
  change ∀ ch ∈ (line.drop i).take n, ch ≠ 0 at hnul
  refine ⟨((line.drop i).drop n).takeWhile (· ≠ 0), ?_, fun ch q hf => ?_⟩
  · change (line.drop i).takeWhile (· ≠ 0) = (line.drop i).take n ++ _
    conv_lhs => rw [← List.take_append_drop n (line.drop i)]
    exact List.takeWhile_append_of_pos fun ch hch => decide_eq_true (hnul ch hch)
  · refine hword.right ch ?_
    rw [List.drop_drop] at hf
    cases hdrop : line.drop (i + n) with
    | nil => simp [hdrop] at hf
    | cons x r =>
      rw [hdrop, List.takeWhile_cons] at hf
      split at hf
      · obtain ⟨rfl, -⟩ := List.cons.inj hf
        rw [← List.head?_drop, hdrop]
        rfl
      · contradiction

/-- A text that is no number to `strtol`, or has something behind it. -/
def Stops (t : List (BitVec 8)) : Prop := t = [] ∨ ¬ Passed 0 t

/-- `kill` with a number, and what is behind it. -/
theorem cmdKill_passed (taskctl : BitVec 32 → Int) {line : List (BitVec 8)} {args : List View}
    {s : View} (hs : args[1]? = some s)
    (h : ¬ Stops (cstrAt line s)) : cmdKill taskctl line args =
    taskctlKill taskctl (worth (cstrAt line s)) := by
  obtain ⟨hne, hp⟩ := not_or.mp h
  have hlen : (cstrAt line s).length ≠ 0 := fun hzero => hne (List.length_eq_zero_iff.mp hzero)
  unfold cmdKill
  rw [hs]
  dsimp only
  rw [strtol_passed (Classical.not_not.mp hp)]
  exact if_neg (by simpa using hlen)

/-- `kill` refuses what the parser does not pass. -/
theorem cmdKill_stops (taskctl : BitVec 32 → Int) {line : List (BitVec 8)} {args : List View}
    {s : View} (hs : args[1]? = some s)
    (h : Stops (cstrAt line s)) : cmdKill taskctl line args = invalidId := by
  unfold cmdKill
  rw [hs]
  dsimp only
  rcases h with hnil | hstop
  · rw [hnil]
    rfl
  · exact if_pos (.inr (strtol_stopped hstop))

/-- The system call gets the number that was read. -/
theorem taskctlKill_killed (taskctl : BitVec 32 → Int) (id : BitVec 32) :
    (taskctlKill taskctl id).killed = some id := by
  unfold taskctlKill
  split <;> rfl

/-- The answers of the system call are not that of the parser. -/
theorem taskctlKill_valid (taskctl : BitVec 32 → Int) (id : BitVec 32) :
    taskctlKill taskctl id ≠ invalidId := by
  intro heq
  have hkilled := taskctlKill_killed taskctl id
  rw [heq] at hkilled
  contradiction

/-- The command has the same outcome on both lines, and refuses the token exactly when it is not a
decimal number. -/
structure ActsOnArgument (taskctl : BitVec 32 → Int) (l₁ l₂ : List (BitVec 8)) (a₁ a₂ : List View)
    (tok : List (BitVec 8)) : Prop where
  same : cmdKill taskctl l₁ a₁ = cmdKill taskctl l₂ a₂
  refused : cmdKill taskctl l₁ a₁ = invalidId ↔ ¬ Decimal tok

/-- What is read at the token, in two lines: the token alone, if it is a decimal number, or behind
one that is worth 0 in
64 bits only what is passed over and is worth the same; and otherwise something that stops the
number. -/
def ReadAlone (tok t₁ t₂ : List (BitVec 8)) : Prop :=
  Decimal tok ∧ (t₁ = tok ∧ t₂ = tok ∨ 2 ^ 64 ∣ digitsOf 0 tok ∧ Passed 0 t₁ ∧ Passed 0 t₂ ∧
    worth t₁ = worth t₂) ∨
    ¬ Decimal tok ∧ Stops t₁ ∧ Stops t₂

/-- Behind a token that is not worth 0 in 64 bits nothing is passed over. -/
theorem passed_alone (hf : ∀ ch q, f = ch :: q → isDelimiter ch = true) (hp : Passed 0 (tok ++ f)) :
    f = [] ∨ 2 ^ 64 ∣ digitsOf 0 tok := by
  obtain ⟨-, hrest⟩ := passed_append.mp hp
  cases f with
  | nil => exact .inl rfl
  | cons ch q => exact .inr ((readsOn_delimiter (hf ch q rfl)).mp (passed_cons.mp hrest).1)

/-- When `kill` calls its argument invalid. -/
theorem cmdKill_invalid_iff (taskctl : BitVec 32 → Int) {line : List (BitVec 8)} {args : List View}
    {s : View} (hs : args[1]? = some s) :
    cmdKill taskctl line args = invalidId ↔ Stops (cstrAt line s) := by
  refine ⟨fun heq => Classical.byContradiction fun hpass => ?_, cmdKill_stops taskctl hs⟩
  rw [cmdKill_passed taskctl hs hpass] at heq
  exact taskctlKill_valid _ _ heq

/-- Two commands that name a task have one outcome when it is the same task. -/
theorem cmdKill_same_iff (taskctl : BitVec 32 → Int) {l₁ l₂ : List (BitVec 8)} {a₁ a₂ : List View}
    {s₁ s₂ : View} (hs₁ : a₁[1]? = some s₁)
    (hs₂ : a₂[1]? = some s₂) (h₁ : ¬ Stops (cstrAt l₁ s₁)) (h₂ : ¬ Stops (cstrAt l₂ s₂)) :
    cmdKill taskctl l₁ a₁ = cmdKill taskctl l₂ a₂ ↔
      worth (cstrAt l₁ s₁) = worth (cstrAt l₂ s₂) := by
  rw [cmdKill_passed taskctl hs₁ h₁, cmdKill_passed taskctl hs₂ h₂]
  refine ⟨fun heq => ?_, congrArg _⟩
  have hkilled := congrArg Reply.killed heq
  rw [taskctlKill_killed, taskctlKill_killed] at hkilled
  exact Option.some.inj hkilled

/-- A decimal number with something behind it. -/
theorem Decimal.stops_iff (h : Decimal tok) : Stops (tok ++ f) ↔ ¬ Passed 0 (tok ++ f) :=
  or_iff_right (List.append_ne_nil_of_left_ne_nil h.ne_nil f)

/-- **`kill` acts on its argument** exactly when its token is read alone. -/
theorem kill_acts_on_argument_iff (taskctl : BitVec 32 → Int) {l₁ l₂ : List (BitVec 8)}
    {a₁ a₂ : List View} {s₁ s₂ : View}
    (h₁ : SecondToken l₁ a₁ s₁) (h₂ : SecondToken l₂ a₂ s₂) (htok : s₁.text l₁ = s₂.text l₂) :
    ActsOnArgument taskctl l₁ l₂ a₁ a₂ (s₁.text l₁) ↔
      ReadAlone (s₁.text l₁) (cstrAt l₁ s₁) (cstrAt l₂ s₂) := by
  have hinvalid₁ : cmdKill taskctl l₁ a₁ = invalidId ↔ Stops (cstrAt l₁ s₁) :=
    cmdKill_invalid_iff taskctl h₁.2
  have hinvalid₂ : cmdKill taskctl l₂ a₂ = invalidId ↔ Stops (cstrAt l₂ s₂) :=
    cmdKill_invalid_iff taskctl h₂.2
  have hsame (hp₁ : ¬ Stops (cstrAt l₁ s₁)) (hp₂ : ¬ Stops (cstrAt l₂ s₂)) :=
    cmdKill_same_iff taskctl h₁.2 h₂.2 hp₁ hp₂
  by_cases hdec : Decimal (s₁.text l₁)
  · obtain ⟨f₁, ht₁, hf₁⟩ := h₁.text hdec.nul
    obtain ⟨f₂, ht₂, hf₂⟩ := h₂.text (htok ▸ hdec.nul)
    rw [← htok] at ht₂
    unfold ReadAlone
    rw [ht₁, ht₂]
    rw [ht₁, hdec.stops_iff] at hinvalid₁
    rw [ht₂, hdec.stops_iff] at hinvalid₂
    rw [ht₁, ht₂, hdec.stops_iff, hdec.stops_iff] at hsame
    constructor
    · rintro ⟨heq, hrefused⟩
      have hp₁ : Passed 0 (s₁.text l₁ ++ f₁) :=
        Classical.not_not.mp fun hstop => hrefused.mp (hinvalid₁.mpr hstop) hdec
      have hp₂ : Passed 0 (s₁.text l₁ ++ f₂) :=
        Classical.not_not.mp fun hstop => hrefused.mp (heq.trans (hinvalid₂.mpr hstop)) hdec
      have hworth := (hsame (not_not_intro hp₁) (not_not_intro hp₂)).mp heq
      refine .inl ⟨hdec, ?_⟩
      rcases passed_alone hf₁ hp₁ with rfl | hdvd
      · rcases passed_alone hf₂ hp₂ with rfl | hdvd
        · exact .inl ⟨List.append_nil _, List.append_nil _⟩
        · exact .inr ⟨hdvd, hp₁, hp₂, hworth⟩
      · exact .inr ⟨hdvd, hp₁, hp₂, hworth⟩
    · rintro (⟨-, hread⟩ | ⟨hnot, -⟩)
      · obtain ⟨hp₁, hp₂, hworth⟩ : Passed 0 (s₁.text l₁ ++ f₁) ∧ Passed 0 (s₁.text l₁ ++ f₂) ∧
            worth (s₁.text l₁ ++ f₁) = worth (s₁.text l₁ ++ f₂) := by
          rcases hread with ⟨heq₁, heq₂⟩ | ⟨-, hread⟩
          · rw [heq₁, heq₂]
            exact ⟨hdec.passed, hdec.passed, rfl⟩
          · exact hread
        refine ⟨(hsame (not_not_intro hp₁) (not_not_intro hp₂)).mpr hworth, ?_⟩
        exact hinvalid₁.trans ⟨fun hstop => absurd hp₁ hstop, fun hnot => absurd hdec hnot⟩
      · exact absurd hdec hnot
  · constructor
    · rintro ⟨heq, hrefused⟩
      have hrefused₁ := hrefused.mpr hdec
      exact .inr ⟨hdec, hinvalid₁.mp hrefused₁, hinvalid₂.mp (heq ▸ hrefused₁)⟩
    · rintro (⟨hyes, -⟩ | ⟨-, hstop₁, hstop₂⟩)
      · exact absurd hyes hdec
      · exact ⟨(hinvalid₁.mpr hstop₁).trans (hinvalid₂.mpr hstop₂).symm,
          iff_of_true (hinvalid₁.mpr hstop₁) hdec⟩

/-- A command line. -/
def line (cs : List Char) : List (BitVec 8) := cs.map chr

/-- Every task can be killed. -/
def killsAny : BitVec 32 → Int := fun _ => 0

/-- `kill 5` and `stop  5`. -/
theorem kill_acts_on_argument_iff_alone : ActsOnArgument killsAny
    (line ['k', 'i', 'l', 'l', ' ', '5']) (line ['s', 't', 'o', 'p', ' ', ' ', '5'])
    [⟨some 0, 4⟩, ⟨some 5, 1⟩] [⟨some 0, 4⟩, ⟨some 6, 1⟩] (line ['5']) := by
  have h₁ : SecondToken (line ['k', 'i', 'l', 'l', ' ', '5']) [⟨some 0, 4⟩, ⟨some 5, 1⟩]
      ⟨some 5, 1⟩ :=
    ⟨⟨fun _ => {}, by decide +kernel⟩, rfl⟩
  have h₂ : SecondToken (line ['s', 't', 'o', 'p', ' ', ' ', '5']) [⟨some 0, 4⟩, ⟨some 6, 1⟩]
      ⟨some 6, 1⟩ :=
    ⟨⟨fun _ => {}, by decide +kernel⟩, rfl⟩
  have hdec : Decimal (line ['5']) := ⟨[], false, line ['5'], .none, by decide, by decide, rfl⟩
  exact (kill_acts_on_argument_iff killsAny h₁ h₂ (by decide)).mpr
    (.inl ⟨hdec, .inl ⟨by decide, by decide⟩⟩)

/-- **`kill` reads on**: the token of `kill 0` and of `kill 0 5` is `0`, and the second command
kills task 5. -/
theorem kill_reads_on :
    SecondToken (line ['k', 'i', 'l', 'l', ' ', '0']) [⟨some 0, 4⟩, ⟨some 5, 1⟩] ⟨some 5, 1⟩ ∧
    SecondToken (line ['k', 'i', 'l', 'l', ' ', '0', ' ', '5'])
      [⟨some 0, 4⟩, ⟨some 5, 1⟩, ⟨some 7, 1⟩] ⟨some 5, 1⟩ ∧
    (⟨some 5, 1⟩ : View).text (line ['k', 'i', 'l', 'l', ' ', '0']) = (⟨some 5, 1⟩ : View).text
    (line ['k', 'i', 'l', 'l', ' ', '0', ' ', '5']) ∧
    (cmdKill killsAny (line ['k', 'i', 'l', 'l', ' ', '0']) [⟨some 0, 4⟩, ⟨some 5, 1⟩]).killed =
      some 0 ∧
    (cmdKill killsAny (line ['k', 'i', 'l', 'l', ' ', '0', ' ', '5'])
      [⟨some 0, 4⟩, ⟨some 5, 1⟩, ⟨some 7, 1⟩]).killed = some 5 :=
  ⟨⟨⟨fun _ => {}, by decide +kernel⟩, rfl⟩,
    ⟨⟨fun _ => {}, by decide +kernel⟩, rfl⟩, by decide, by decide +kernel, by decide +kernel⟩

end Doors.Shell
