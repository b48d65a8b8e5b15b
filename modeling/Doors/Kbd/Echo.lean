import Doors.Lib.Run
import Doors.Tty.Tape
import Doors.Kbd.Editor

/-!
# Doors.Kbd.Echo

What the terminal shows of the line that `Kbd::readLine` edits.

`redrawLine` goes back to the start of the row that the cursor is on, which is the
prompt's row only while the cursor has not wrapped.  `echo_matches` follows the echo
through every run in which it has not.
-/

namespace Doors.Kbd

open Run Tty Screen

/-! ## inputs and runs -/

/-- What `readLine` meets between two rounds, and a round. -/
inductive Input where
  | keys (chars : Line) (ups downs lefts rights : Nat)
  | poll
  deriving DecidableEq

/-- An error is the line that `readLine` returns. -/
def Editor.advance (s : Editor) : Input → Except Line Editor
  | .keys chars ups downs lefts rights => .ok (s.arrive chars ups downs lefts rights)
  | .poll =>
      match s.round with
      | .again s => .ok s
      | .done line _ => .error line

/-! ## the echo -/

def promptText : Line := [0x3E, space]

/-- The prompt and the line, and blanks up to where lines have got. -/
def shownLine (line : Line) (longest : Nat) : Line :=
  promptText ++ line ++ List.replicate (longest - line.length) space

/-- **The echo matches**: from the prompt on the cells show the line and blanks behind
it, and the terminal's cursor is at the cell of `pos`. -/
structure Echoes (row₀ n longest : Nat) (s : Editor) : Prop where
  pos : 0 ≤ s.pos ∧ s.pos ≤ s.line.length
  tape : Tape row₀ n s.tty.screen (shownLine s.line longest) (promptText.length + s.pos.toNat)

/-- A step, and the length of the longest line so far. -/
def track (p : Editor × Nat) (i : Input) : Editor × Nat :=
  let s := follow Editor.advance p.1 i
  (s, max p.2 s.line.length)

/-- The length of the longest line of a run. -/
def longest (s : Editor) (tr : List Input) : Nat := (tr.foldl track (s, s.line.length)).2

/-! ## the condition -/

/-- The line that Up loads. -/
def HistoryCtx.recalls (h : HistoryCtx) : Option Line :=
  if h.pos = -1 then if h.count = 0 then none else some (h.buf ((h.head - 1 + h.size).tmod h.size))
  else if h.pos = (h.head - h.count + h.size).tmod h.size then none
  else some (h.buf ((h.pos - 1 + h.size).tmod h.size))

/-- The characters that are not inserted. -/
def commands : Line :=
  [keyCtrlC, keyCtrlA, keyCtrlE, keyCtrlB, keyCtrlF, keyCtrlD, keyCtrlK, newline,
    backspace, keyCtrlU]

namespace Editor

variable (s : Editor)

def recalls : Option Line := s.history.bind HistoryCtx.recalls

/-- Ctrl+P and Ctrl+N are Up and Down. -/
def act : Event → Event
  | .char ch => if s.history.isSome ∧ ch = keyCtrlP then .up
      else if s.history.isSome ∧ ch = keyCtrlN then .down else .char ch
  | e => e

/-- The act makes `readLine` redraw the line. -/
def Redraws : Event → Prop
  | .up => s.recalls.isSome = true
  | .down => s.history.any (fun h => decide (h.pos ≠ -1)) = true
  | .char ch => ch = keyCtrlK ∧ s.pos < s.line.length ∨ ch = keyCtrlU ∧ s.line ≠ []
  | _ => False

/-- The line stays shorter than the room for it, and what is inserted or loaded prints
as glyphs. -/
def Within (n : Nat) : Event → Prop
  | .up => ∀ line ∈ s.recalls, (∀ ch ∈ line, Plain ch) ∧ promptText.length + line.length < n
  | .char ch => ch ∉ commands → Plain ch ∧ promptText.length + (s.line.length + 1) < n
  | _ => True

/-- The event is within the room, and a redraw starts from the prompt's row. -/
def Steadily (n : Nat) (e : Event) : Prop :=
  s.Within n (s.act e) ∧ (s.Redraws (s.act e) → promptText.length + s.pos < vgaWidth)

end Editor

/-- Lines keep within the room. -/
def WithinRoom (n : Nat) (s : Editor) : Input → Prop
  | .keys .. => True
  | .poll => ∀ e ∈ s.next, s.Within n (s.act e)

/-- The line is redrawn from the prompt's row only. -/
def Steady (n : Nat) (s : Editor) : Input → Prop
  | .keys .. => True
  | .poll => ∀ e ∈ s.next, s.Steadily n e

instance (n : Nat) (s : Editor) (e : Event) : Decidable (s.Within n e) := by
  apply @Event.casesOn _ e <;> intros <;> unfold Editor.Within <;> infer_instance

instance (s : Editor) (e : Event) : Decidable (s.Redraws e) := by
  apply @Event.casesOn _ e <;> intros <;> unfold Editor.Redraws <;> infer_instance

instance (n : Nat) (s : Editor) (e : Event) : Decidable (s.Steadily n e) :=
  inferInstanceAs (Decidable (_ ∧ _))

instance (n : Nat) (s : Editor) (i : Input) : Decidable (WithinRoom n s i) := by
  apply @Input.casesOn _ i <;> intros <;> unfold WithinRoom <;> infer_instance

instance (n : Nat) (s : Editor) (i : Input) : Decidable (Steady n s i) := by
  apply @Input.casesOn _ i <;> intros <;> unfold Steady <;> infer_instance

variable {s s' : Editor} {t : Tty} {row₀ n m k ext : Nat} {line line' chs : Line} {ch : BitVec 8}
  {tr : List Input}

/-! ## printing -/

/-- Plain characters go to the screen as they are. -/
theorem printChars_screen (hchs : ∀ ch ∈ chs, Plain ch) :
    (printChars t chs).screen = t.screen.rawPuts chs := by
  induction chs generalizing t with
  | nil => rfl
  | cons ch chs ih =>
      show (printChars (printChar t ch) chs).screen = (t.screen.rawPutc ch).rawPuts chs
      rw [ih fun x hx => hchs x (List.mem_cons_of_mem ch hx)]
      have hch := hchs ch List.mem_cons_self
      rw [printChar, if_neg hch.1]
      rfl

/-- A blank is plain. -/
theorem plain_space : Plain space := by decide

/-- The prompt is plain. -/
theorem plain_prompt : ∀ ch ∈ promptText, Plain ch := by decide

/-- A run of blanks. -/
theorem repeatChar_space (k : Int) : (repeatChar t space k).screen =
    t.screen.rawPuts (List.replicate k.toNat space) := by
  refine printChars_screen fun ch hch => ?_
  rw [List.eq_of_mem_replicate hch]
  exact plain_space

/-- A run of backspaces. -/
theorem repeatChar_backspace (k : Int) : (repeatChar t backspace k).screen =
    t.screen.rawPuts (List.replicate k.toNat backspace) := by
  unfold repeatChar
  generalize k.toNat = k
  induction k generalizing t with
  | zero => rfl
  | succ k ih =>
      rw [List.replicate_succ, List.foldl_cons, ih]
      rfl

/-! ## the line on the tape -/

/-- How many cells are shown. -/
theorem shownLine_length (h : line.length ≤ ext) :
    (shownLine line ext).length = promptText.length + ext := by
  simp [shownLine]
  omega

/-- Typing the end of the new line over that of the old one shows the new line. -/
theorem overlay_shownLine (hk : k ≤ line.length) (hhead : line.take k = line'.take k)
    (hlen : line.length ≤ line'.length + m) :
    overlay (shownLine line ext) (promptText.length + k) (line'.drop k ++ List.replicate m space) =
      shownLine line' (max ext (line'.length + m)) := by
  have hk' : k ≤ line'.length := by
    have := congrArg List.length hhead
    rw [List.length_take, List.length_take] at this
    omega
  have htake : (shownLine line ext).take (promptText.length + k) = promptText ++ line'.take k := by
    rw [shownLine, List.append_assoc, List.take_length_add_append,
      List.take_append_of_le_length hk, hhead]
  have hdrop : (shownLine line ext).drop (promptText.length + (line'.length + m)) =
      List.replicate (ext - (line'.length + m)) space := by
    rw [shownLine, List.append_assoc, List.drop_length_add_append, List.drop_append,
      List.drop_of_length_le hlen, List.nil_append,
      List.drop_replicate]
    congr 1
    omega
  have hchs : promptText.length + k + (line'.drop k ++ List.replicate m space).length =
      promptText.length + (line'.length + m) := by
    simp
    omega
  have hblank : List.replicate (max ext (line'.length + m) - line'.length) space =
      List.replicate m space ++ List.replicate (ext - (line'.length + m)) space := by
    rw [List.replicate_append_replicate]
    congr 1
    omega
  have hline : line'.take k ++ (line'.drop k ++ List.replicate m space) =
      line' ++ List.replicate m space := by
    rw [← List.append_assoc, List.take_append_drop]
  rw [overlay, hchs, htake, hdrop, shownLine, hblank, List.append_assoc promptText, hline]
  simp only [List.append_assoc]

/-- **Typing** the end of the new line over that of the old one, and back to
position `j`. -/
theorem retype {S : Screen} {j : Nat}
    (h : Tape row₀ n S (shownLine line ext) (promptText.length + k)) (hk : k ≤ line.length)
    (hhead : line.take k = line'.take k) (hlen : line.length ≤ line'.length + m)
    (hplain : ∀ ch ∈ line', Plain ch)
    (hroom : promptText.length + (line'.length + m) < n) (hj : j ≤ line'.length + m) :
    Tape row₀ n ((S.rawPuts (line'.drop k ++ List.replicate m space)).rawPuts
      (List.replicate (line'.length + m - j) backspace))
      (shownLine line' (max ext (line'.length + m))) (promptText.length + j) := by
  have hle : k ≤ line'.length := by
    have := congrArg List.length hhead
    rw [List.length_take, List.length_take] at this
    omega
  have hchs : promptText.length + k + (line'.drop k ++ List.replicate m space).length =
      promptText.length + (line'.length + m) := by
    simp
    omega
  have hmem : ∀ ch ∈ line'.drop k ++ List.replicate m space, Plain ch := by
    intro ch hch
    rcases List.mem_append.mp hch with hch | hch
    · exact hplain ch (List.mem_of_mem_drop hch)
    · rw [List.eq_of_mem_replicate hch]
      exact plain_space
  have hputs := h.puts hmem (by rw [hchs]; exact hroom)
  rw [overlay_shownLine hk hhead hlen, hchs] at hputs
  refine Tape.back _ ?_
  rw [show promptText.length + j + (line'.length + m - j) =
    promptText.length + (line'.length + m) by omega]
  exact hputs

/-- **`redrawLine`** from the prompt's row. -/
theorem redrawLine_tape {pos oldLen k' : Nat}
    (h : Tape row₀ n t.screen (shownLine line ext) (promptText.length + pos))
    (hrow : promptText.length + pos < vgaWidth) (hold : line.length = oldLen)
    (hplain : ∀ ch ∈ line', Plain ch)
    (hroom : promptText.length + max line'.length oldLen < n) (hk' : k' ≤ line'.length) :
    Tape row₀ n (redrawLine line' k' oldLen t).screen
      (shownLine line' (max ext (max line'.length oldLen))) (promptText.length + k') := by
  have hreturn := h.return hrow
  have hprompt := hreturn.puts plain_prompt (by omega)
  have hsame : overlay (shownLine line ext) 0 promptText = shownLine line ext := by
    rw [shownLine, List.append_assoc, overlay, Nat.zero_add, List.drop_left]
    rfl
  rw [hsame, Nat.zero_add] at hprompt
  have hmax : line'.length + (max line'.length oldLen - line'.length) =
    max line'.length oldLen := by omega
  have htype := retype (m := max line'.length oldLen - line'.length) (k := 0) hprompt
    (Nat.zero_le _)
    (show line.take 0 = line'.take 0 from rfl) (by omega) hplain (by rwa [hmax])
      (show k' ≤ _ by omega)
  have hint : (if (line'.length : Int) > oldLen then (line'.length : Int) else oldLen) =
      (max line'.length oldLen : Nat) := by
    split
    · omega
    · omega
  have hspaces : ((max line'.length oldLen : Nat) - (line'.length : Int)).toNat =
    max line'.length oldLen - line'.length := by omega
  have hbacks : ((max line'.length oldLen : Nat) - (k' : Int)).toNat =
    max line'.length oldLen - k' := by omega
  unfold redrawLine
  dsimp only
  rw [hint, repeatChar_backspace, repeatChar_space, printChars_screen hplain, hspaces, hbacks,
    ← rawPuts_append _ line']
  rw [hmax] at htype
  exact htype

/-- **`deleteAt`**. -/
theorem deleteAt_tape (h : Tape row₀ n t.screen (shownLine line ext) (promptText.length + k))
    (hk : k < line.length)
    (hplain : ∀ ch ∈ line, Plain ch) (hroom : promptText.length + line.length < n) :
    Tape row₀ n (deleteAt line k line.length t).2.screen
      (shownLine (line.eraseIdx k) (max ext line.length)) (promptText.length + k) := by
  have hlen : (line.eraseIdx k).length + 1 = line.length := by
    rw [List.length_eraseIdx_of_lt hk]
    omega
  have hplain' : ∀ ch ∈ line.eraseIdx k, Plain ch :=
    fun ch hch => hplain ch (List.mem_of_mem_eraseIdx hch)
  have htype := retype (m := 1) (j := k) h (by omega)
    (List.take_eraseIdx_eq_take_of_le line k k (Nat.le_refl k)).symm (by omega) hplain'
    (by omega) (by omega)
  have hdrop : ∀ ch ∈ (line.eraseIdx k).drop k, Plain ch :=
    fun ch hch => hplain' ch (List.mem_of_mem_drop hch)
  have hbacks : ((line.length : Int) - k).toNat = line.length - k := by omega
  unfold deleteAt
  simp only [Int.toNat_natCast]
  rw [repeatChar_backspace, hbacks]
  show Tape row₀ n (((printChars t _).screen.rawPuts [space]).rawPuts _) _ _
  rw [printChars_screen hdrop, ← rawPuts_append t.screen]
  rw [hlen] at htype
  exact htype

/-- **`insertAt`**. -/
theorem insertAt_tape (h : Tape row₀ n t.screen (shownLine line ext) (promptText.length + k))
    (hk : k ≤ line.length)
    (hplain : ∀ ch ∈ line, Plain ch) (hch : Plain ch)
    (hroom : promptText.length + (line.length + 1) < n) :
    Tape row₀ n (insertAt line k ch t).2.screen
      (shownLine (line.take k ++ ch :: line.drop k) (max ext (line.length + 1)))
      (promptText.length + (k + 1)) := by
  have hlen : (line.take k ++ ch :: line.drop k).length = line.length + 1 := by
    simp
    omega
  have hplain' : ∀ x ∈ line.take k ++ ch :: line.drop k, Plain x := by
    intro x hx
    rcases List.mem_append.mp hx with hx | hx
    · exact hplain x (List.mem_of_mem_take hx)
    · cases hx with
      | head => exact hch
      | tail _ hx => exact hplain x (List.mem_of_mem_drop hx)
  have hhead : line.take k = (line.take k ++ ch :: line.drop k).take k := by
    rw [List.take_append_of_le_length (by simp [hk]), List.take_take, Nat.min_self]
  have htype := retype (m := 0) (j := k + 1) h hk hhead (by omega) hplain' (by omega) (by omega)
  have hdrop : ∀ x ∈ (line.take k ++ ch :: line.drop k).drop k, Plain x :=
    fun x hx => hplain' x (List.mem_of_mem_drop hx)
  have hbacks : ((line.length + 1 : Nat) - ((k : Int) + 1)).toNat = line.length + 1 - (k + 1) := by
    omega
  unfold insertAt
  simp only [Int.toNat_natCast]
  rw [repeatChar_backspace, printChars_screen hdrop, hlen, hbacks]
  rw [hlen, List.replicate_zero, List.append_nil] at htype
  exact htype

/-- Printing what is there already. -/
theorem right_tape (h : Tape row₀ n t.screen (shownLine line ext) (promptText.length + k))
    (hk : k < line.length) (hext : line.length ≤ ext)
    (hplain : ∀ ch ∈ line, Plain ch) :
    Tape row₀ n (printChar t (line.getD k 0)).screen (shownLine line ext)
      (promptText.length + (k + 1)) := by
  have hget : (line)[k]? = some (line.getD k 0) := by simp [hk]
  have hch : Plain (line.getD k 0) := hplain _ (List.mem_of_getElem? hget)
  have hlt := h.lt_room
  rw [shownLine_length hext] at hlt
  have hput := h.put hch (by omega)
  have hsame : overlay (shownLine line ext) (promptText.length + k) [line.getD k 0] =
      shownLine line ext := by
    refine List.ext_getElem? fun i => ?_
    rw [overlay_getElem? h.le]
    split
    · next hi =>
        rw [List.length_singleton] at hi
        obtain rfl : i = promptText.length + k := by omega
        rw [Nat.sub_self, shownLine, List.append_assoc, List.getElem?_append_right (by omega),
          Nat.add_sub_cancel_left,
          List.getElem?_append_left hk, hget]
        rfl
    · rfl
  rw [hsame] at hput
  rw [printChar, if_neg hch.1]
  exact hput

/-! ## the editor -/

/-- The echo matches, and goes on matching. -/
structure Echoing (row₀ n longest : Nat) (s : Editor) : Prop where
  pos : 0 ≤ s.pos ∧ s.pos ≤ s.line.length
  tape : Tape row₀ n s.tty.screen (shownLine s.line longest) (promptText.length + s.pos.toNat)
  le : s.line.length ≤ longest
  plain : ∀ ch ∈ s.line, Plain ch
  view : s.tty.scrollbackActive = false
  pages : s.pendingPageUp = 0 ∧ s.pendingPageDown = 0 ∧ s.pendingHome = 0 ∧ s.pendingEnd = 0

namespace Echoing

theorem echoes (h : Echoing row₀ n ext s) : Echoes row₀ n ext s := ⟨h.pos, h.tape⟩

theorem room (h : Echoing row₀ n ext s) : promptText.length + ext < n := by
  rw [← shownLine_length h.le]
  exact h.tape.lt_room

/-- The line has got no longer. -/
theorem same (h : Echoing row₀ n ext s) : Echoing row₀ n (max ext s.line.length) s := by
  rwa [Nat.max_eq_left h.le]

/-- **A redrawn line**. -/
theorem redraw (h : Echoing row₀ n ext s) (hrow : promptText.length + s.pos < vgaWidth)
    (hplain : ∀ ch ∈ line, Plain ch)
    (hroom : promptText.length + line.length < n) (hk : k ≤ line.length) :
    Tape row₀ n (redrawLine line k s.line.length s.tty).screen
      (shownLine line (max ext line.length)) (promptText.length + k) := by
  have hle := h.le
  have hpos := h.pos
  have hlt := h.room
  have htape := redrawLine_tape h.tape (by omega) rfl hplain (by omega) hk
  rwa [show max ext (max line.length s.line.length) = max ext line.length by omega] at htape

/-- An entry of the history is redrawn. -/
theorem loadHistory (h : Echoing row₀ n ext s) (hist : Option HistoryCtx)
    (hrow : promptText.length + s.pos < vgaWidth)
    (hplain : ∀ ch ∈ line, Plain ch) (hroom : promptText.length + line.length < n) :
    Echoing row₀ n (max ext line.length)
      ({ s with history := hist }.loadHistory line s.line.length) where
  pos := ⟨Int.natCast_nonneg _, Int.le_refl _⟩
  tape := h.redraw hrow hplain hroom (Nat.le_refl _)
  le := Nat.le_max_right _ _
  plain := hplain
  view := by simpa [Editor.loadHistory] using h.view
  pages := h.pages

/-- **Up**. -/
theorem historyUp {hist : HistoryCtx} (h : Echoing row₀ n ext s)
    (hload : ∀ line ∈ hist.recalls, promptText.length + s.pos < vgaWidth ∧ (∀ ch ∈ line, Plain ch) ∧
    promptText.length + line.length < n) :
    Echoing row₀ n (max ext (s.historyUp hist).line.length) (s.historyUp hist) := by
  unfold HistoryCtx.recalls at hload
  unfold Editor.historyUp
  dsimp only
  by_cases hnone : hist.pos = -1
  · rw [if_pos hnone] at hload ⊢
    by_cases hcount : hist.count = 0
    · rw [if_pos hcount]
      exact h.same
    · rw [if_neg hcount] at hload ⊢
      obtain ⟨hrow, hplain, hroom⟩ := hload _ rfl
      exact h.loadHistory _ hrow hplain hroom
  · rw [if_neg hnone] at hload ⊢
    by_cases hold : hist.pos = (hist.head - hist.count + hist.size).tmod hist.size
    · rw [if_pos hold]
      exact h.same
    · rw [if_neg hold] at hload ⊢
      obtain ⟨hrow, hplain, hroom⟩ := hload _ rfl
      exact h.loadHistory _ hrow hplain hroom

/-- **Down**. -/
theorem historyDown {hist : HistoryCtx} (h : Echoing row₀ n ext s)
    (hrow : hist.pos ≠ -1 → promptText.length + s.pos < vgaWidth) :
    Echoing row₀ n (max ext (s.historyDown hist).line.length) (s.historyDown hist) := by
  unfold Editor.historyDown
  dsimp only
  by_cases hnone : hist.pos = -1
  · rw [if_pos hnone]
    exact h.same
  · rw [if_neg hnone]
    have hlt := h.room
    have htape := h.redraw (k := 0) (hrow hnone) (show ∀ ch ∈ ([] : Line), Plain ch by simp)
      (by simp; omega) (Nat.le_refl _)
    exact
      { pos := ⟨Int.le_refl _, Int.le_refl _⟩
        tape := htape
        le := Nat.zero_le _
        plain := by simp
        view := by simpa using h.view
        pages := h.pages }

/-- One character to the left. -/
theorem stepLeft (h : Echoing row₀ n ext s) : Echoing row₀ n ext s.stepLeft := by
  have hpos := h.pos
  unfold Editor.stepLeft
  split
  · have htape := h.tape
    rw [show promptText.length + s.pos.toNat =
      promptText.length + (s.pos - 1).toNat + 1 by omega] at htape
    have hback := htape.back 1
    exact { h with pos := by dsimp only; omega, tape := hback }
  · exact h

/-- One character to the right. -/
theorem stepRight (h : Echoing row₀ n ext s) : Echoing row₀ n ext s.stepRight := by
  have hpos := h.pos
  unfold Editor.stepRight
  split
  · have htape := right_tape h.tape (by omega) h.le h.plain
    rw [show s.pos.toNat + 1 = (s.pos + 1).toNat by omega] at htape
    exact { h with pos := by dsimp only; omega, tape := htape }
  · exact h

/-- Ctrl+A. -/
theorem toStart (m : Nat) (h : Echoing row₀ n ext s) : Echoing row₀ n ext (Editor.toStart m s) := by
  induction m generalizing s with
  | zero => exact h
  | succ m ih =>
      rw [Editor.toStart]
      split
      · exact ih h.stepLeft
      · exact h

/-- Ctrl+E. -/
theorem toEnd (m : Nat) (h : Echoing row₀ n ext s) : Echoing row₀ n ext (Editor.toEnd m s) := by
  induction m generalizing s with
  | zero => exact h
  | succ m ih =>
      rw [Editor.toEnd]
      split
      · exact ih h.stepRight
      · exact h

/-- Ctrl+D. -/
theorem deleteAtCursor (h : Echoing row₀ n ext s) (hlt : s.pos < s.line.length) :
    Echoing row₀ n ext { s with
      line := (deleteAt s.line s.pos s.line.length s.tty).1
      tty := (deleteAt s.line s.pos s.line.length s.tty).2 } := by
  have hpos := h.pos
  have hle := h.le
  have hroom := h.room
  have htape := deleteAt_tape h.tape (by omega) h.plain (by omega)
  rw [Int.toNat_of_nonneg hpos.1, Nat.max_eq_left hle] at htape
  have hlen := List.length_eraseIdx_of_lt (l := s.line) (i := s.pos.toNat) (by omega)
  exact
    { pos := by dsimp only [deleteAt]; omega
      tape := htape
      le := by dsimp only [deleteAt]; omega
      plain := fun ch hch => h.plain ch (List.mem_of_mem_eraseIdx hch)
      view := by simpa using h.view
      pages := h.pages }

/-- Backspace. -/
theorem deleteBefore (h : Echoing row₀ n ext s) (hlt : s.pos > 0) :
    Echoing row₀ n ext { s with
      line := (deleteAt s.line (s.pos - 1) s.line.length (print s.tty [backspace])).1
      pos := s.pos - 1
      tty := (deleteAt s.line (s.pos - 1) s.line.length (print s.tty [backspace])).2 } := by
  have hpos := h.pos
  have hleft := h.stepLeft
  rw [Editor.stepLeft, if_pos hlt] at hleft
  exact hleft.deleteAtCursor (by dsimp only; omega)

/-- Ctrl+K. -/
theorem killToEnd (h : Echoing row₀ n ext s) (hrow : promptText.length + s.pos < vgaWidth) :
    Echoing row₀ n ext { s with
      line := (clearRange s.line s.pos s.line.length s.tty).1
      tty := (clearRange s.line s.pos s.line.length s.tty).2 } := by
  have hpos := h.pos
  have hle := h.le
  have hroom := h.room
  have hlen : (s.line.take s.pos.toNat).length = s.pos.toNat := List.length_take_of_le (by omega)
  have hplain : ∀ ch ∈ s.line.take s.pos.toNat, Plain ch :=
    fun ch hch => h.plain ch (List.mem_of_mem_take hch)
  have htape := h.redraw (k := s.pos.toNat) hrow hplain (by omega) (by omega)
  rw [Int.toNat_of_nonneg hpos.1, Nat.max_eq_left (by omega)] at htape
  exact
    { pos := by dsimp only [clearRange]; omega
      tape := htape
      le := by dsimp only [clearRange]; omega
      plain := hplain
      view := by simpa using h.view
      pages := h.pages }

/-- Ctrl+U. -/
theorem killLine (h : Echoing row₀ n ext s) (hrow : promptText.length + s.pos < vgaWidth) :
    Echoing row₀ n ext { s with
      line := (clearRange s.line 0 s.line.length s.tty).1
      pos := 0
      tty := (clearRange s.line 0 s.line.length s.tty).2 } := by
  have hroom := h.room
  have htape := h.redraw (k := 0) hrow (show ∀ ch ∈ ([] : Line), Plain ch by simp) (by simp; omega)
    (Nat.le_refl _)
  rw [Nat.max_eq_left (show ([] : Line).length ≤ ext from Nat.zero_le _)] at htape
  exact
    { pos := ⟨Int.le_refl _, Int.le_refl _⟩
      tape := htape
      le := Nat.zero_le _
      plain := by simp [clearRange]
      view := by simpa using h.view
      pages := h.pages }

/-- A character that is inserted. -/
theorem insert (h : Echoing row₀ n ext s) (hch : Plain ch)
    (hroom : promptText.length + (s.line.length + 1) < n) :
    Echoing row₀ n (max ext (insertAt s.line s.pos ch s.tty).1.length) { s with
      line := (insertAt s.line s.pos ch s.tty).1
      pos := s.pos + 1
      tty := (insertAt s.line s.pos ch s.tty).2 } := by
  have hpos := h.pos
  have htape := insertAt_tape h.tape (by omega) h.plain hch hroom
  have hlen : (s.line.take s.pos.toNat ++ ch :: s.line.drop s.pos.toNat).length =
      s.line.length + 1 := by
    simp
    omega
  rw [Int.toNat_of_nonneg hpos.1, ← hlen, show s.pos.toNat + 1 =
    (s.pos + 1).toNat by omega] at htape
  exact
    { pos := by dsimp only [insertAt]; omega
      tape := htape
      le := Nat.le_max_right _ _
      plain := by
        intro x hx
        rcases List.mem_append.mp hx with hx | hx
        · exact h.plain x (List.mem_of_mem_take hx)
        · cases hx with
          | head => exact hch
          | tail _ hx => exact h.plain x (List.mem_of_mem_drop hx)
      view := by simpa using h.view
      pages := h.pages }

end Echoing

/-! ## rounds and runs -/

/-- The round leaves a matching echo, or `readLine` returns. -/
def Leaves (row₀ n ext : Nat) : Outcome → Prop
  | .again s => Echoing row₀ n (max ext s.line.length) s
  | .done _ _ => True

/-- Both ways of a test. -/
theorem leaves_ite {c : Prop} [Decidable c] {o o' : Outcome} (h : c → Leaves row₀ n ext o)
    (h' : ¬ c → Leaves row₀ n ext o') :
    Leaves row₀ n ext (if c then o else o') := by
  split
  · next hc => exact h hc
  · next hc => exact h' hc

/-- A control key. -/
theorem Echoing.onKey (h : Echoing row₀ n ext s) (hwithin : s.Within n (.char ch))
    (hrow : s.Redraws (.char ch) → promptText.length + s.pos < vgaWidth) :
    Leaves row₀ n ext (s.onKey ch) := by
  unfold Editor.onKey
  refine leaves_ite (fun _ => trivial) fun h₁ => ?_
  refine leaves_ite (fun _ => (h.toStart _).same) fun h₂ => ?_
  refine leaves_ite (fun _ => (h.toEnd _).same) fun h₃ => ?_
  refine leaves_ite (fun _ => h.stepLeft.same) fun h₄ => ?_
  refine leaves_ite (fun _ => h.stepRight.same) fun h₅ => ?_
  refine leaves_ite (fun _ => leaves_ite (fun hlt => (h.deleteAtCursor hlt).same) fun _ => h.same)
    fun h₆ => ?_
  refine leaves_ite (fun hk => leaves_ite (fun hlt => (h.killToEnd (hrow (.inl ⟨hk, hlt⟩))).same)
    fun _ => h.same) fun h₇ => ?_
  refine leaves_ite (fun _ => trivial) fun h₈ => ?_
  refine leaves_ite (fun _ => leaves_ite (fun hlt => (h.deleteBefore hlt).same) fun _ => h.same)
    fun h₉ => ?_
  refine leaves_ite (fun hu => leaves_ite (fun hne => (h.killLine (hrow (.inr ⟨hu, hne⟩))).same)
    fun _ => h.same) fun h₁₀ => ?_
  obtain ⟨hplain, hroom⟩ := hwithin (by simp [commands, h₁, h₂, h₃, h₄, h₅, h₆, h₇, h₈, h₉, h₁₀])
  exact h.insert hplain hroom

/-- Up. -/
theorem Echoing.up {hist : HistoryCtx} (h : Echoing row₀ n ext s) (hh : s.history = some hist)
    (hwithin : s.Within n .up)
    (hrow : s.Redraws .up → promptText.length + s.pos < vgaWidth) :
    Leaves row₀ n ext (.again (s.historyUp hist)) := by
  have hrecalls : s.recalls = hist.recalls := by simp [Editor.recalls, hh]
  refine h.historyUp fun line hline => ?_
  rw [← hrecalls] at hline
  obtain ⟨hplain, hroom⟩ := hwithin line hline
  exact ⟨hrow (Option.isSome_of_mem hline), hplain, hroom⟩

/-- Down. -/
theorem Echoing.down {hist : HistoryCtx} (h : Echoing row₀ n ext s) (hh : s.history = some hist)
    (hrow : s.Redraws .down → promptText.length + s.pos < vgaWidth) :
    Leaves row₀ n ext (.again (s.historyDown hist)) :=
  h.historyDown fun hne => hrow (by simpa [Editor.Redraws, hh] using hne)

/-- **A character**. -/
theorem Echoing.onChar (h : Echoing row₀ n ext s) (hwithin : s.Within n (s.act (.char ch)))
    (hrow : s.Redraws (s.act (.char ch)) → promptText.length + s.pos < vgaWidth) :
    Leaves row₀ n ext (s.onChar ch) := by
  unfold Editor.act at hwithin hrow
  unfold Editor.onChar
  cases hh : s.history with
  | none =>
      simp only [hh, Option.isSome_none, Bool.false_eq_true, false_and, if_false] at hwithin hrow
      exact h.onKey hwithin hrow
  | some hist =>
      simp only [hh, Option.isSome_some, true_and] at hwithin hrow
      dsimp only
      by_cases hp : ch = keyCtrlP
      · rw [if_pos hp] at hwithin hrow ⊢
        exact h.up hh hwithin hrow
      rw [if_neg hp] at hwithin hrow ⊢
      by_cases hn : ch = keyCtrlN
      · rw [if_pos hn] at hrow ⊢
        exact h.down hh hrow
      · rw [if_neg hn] at hwithin hrow ⊢
        exact h.onKey hwithin hrow

/-- The polls behind the history and the view. -/
theorem Echoing.pollRest (h : Echoing row₀ n ext s)
    (hsteady : ∀ e ∈ (if s.pendingLeft > 0 then some Event.left
      else if s.pendingRight > 0 then some Event.right else s.chars.head?.map Event.char),
      s.Steadily n e) : Leaves row₀ n ext s.pollRest := by
  rw [pollRest_quiet h.view h.pages]
  by_cases hleft : s.pendingLeft > 0
  · simp only [if_pos hleft]
    have h' : Echoing row₀ n ext { s with pendingLeft := s.pendingLeft - 1 } := { h with }
    exact h'.stepLeft.same
  by_cases hright : s.pendingRight > 0
  · simp only [if_neg hleft, if_pos hright]
    have h' : Echoing row₀ n ext { s with pendingRight := s.pendingRight - 1 } := { h with }
    exact h'.stepRight.same
  simp only [if_neg hleft, if_neg hright] at hsteady ⊢
  cases hc : s.chars with
  | nil => exact h.same
  | cons ch chars =>
      rw [hc] at hsteady
      obtain ⟨hwithin, hrow⟩ := hsteady (.char ch) rfl
      have h' : Echoing row₀ n ext { s with chars } := { h with }
      exact h'.onChar hwithin hrow

/-- **A round** on the next event. -/
theorem Echoing.round (h : Echoing row₀ n ext s) (hsteady : ∀ e ∈ s.next, s.Steadily n e) :
    Leaves row₀ n ext s.round := by
  unfold Editor.next at hsteady
  cases hh : s.history with
  | none =>
      have hround : s.round = s.pollRest := by simp [Editor.round, h.view, hh]
      simp only [hh, Option.isSome_none, Bool.false_eq_true, false_and, if_false] at hsteady
      rw [hround]
      exact h.pollRest hsteady
  | some hist =>
      simp only [hh, Option.isSome_some, true_and] at hsteady
      by_cases hup : s.pendingUp > 0
      · have hround :
            s.round = .again ({ s with pendingUp := s.pendingUp - 1 }.historyUp hist) := by
          simp [Editor.round, h.view, hh, hup]
        rw [if_pos hup] at hsteady
        obtain ⟨hwithin, hrow⟩ := hsteady .up rfl
        have h' : Echoing row₀ n ext { s with pendingUp := s.pendingUp - 1 } := { h with }
        rw [hround]
        exact h'.up hh hwithin hrow
      by_cases hdown : s.pendingDown > 0
      · have hround :
            s.round = .again ({ s with pendingDown := s.pendingDown - 1 }.historyDown hist) := by
          simp [Editor.round, h.view, hh, hup, hdown]
        rw [if_neg hup, if_pos hdown] at hsteady
        obtain ⟨-, hrow⟩ := hsteady .down rfl
        have h' : Echoing row₀ n ext { s with pendingDown := s.pendingDown - 1 } := { h with }
        rw [hround]
        exact h'.down hh hrow
      · have hround : s.round = s.pollRest := by simp [Editor.round, h.view, hh, hup, hdown]
        rw [if_neg hup, if_neg hdown] at hsteady
        rw [hround]
        exact h.pollRest hsteady

/-- What the run lemma carries. -/
structure Followed (row₀ n : Nat) (s₀ : Editor) (tr : List Input) (s : Editor) : Prop where
  track : (tr.foldl track (s₀, s₀.line.length)).1 = s
  echoing : Echoing row₀ n (longest s₀ tr) s

/-- One more input. -/
theorem Followed.advance {s₀ : Editor} {i : Input} (h : Followed row₀ n s₀ tr s)
    (hsteady : Steady n s i)
    (hs : s.advance i = .ok s') : Followed row₀ n s₀ (tr ++ [i]) s' := by
  have hfollow : follow Editor.advance s i = s' := by
    unfold follow
    rw [hs]
  have htrack : (tr ++ [i]).foldl Kbd.track (s₀, s₀.line.length) =
      (s', max (longest s₀ tr) s'.line.length) := by
    rw [List.foldl_append, List.foldl_cons, List.foldl_nil, Kbd.track, h.track, hfollow]
    rfl
  have hlongest : longest s₀ (tr ++ [i]) = max (longest s₀ tr) s'.line.length :=
    congrArg Prod.snd htrack
  refine ⟨congrArg Prod.fst htrack, ?_⟩
  rw [hlongest]
  have hecho := h.echoing
  cases i with
  | keys chars ups downs lefts rights =>
      obtain rfl := Except.ok.inj hs
      have harrive : Echoing row₀ n (longest s₀ tr) (s.arrive chars ups downs lefts rights) :=
        { hecho with }
      exact harrive.same
  | poll =>
      have hround := hecho.round hsteady
      unfold Editor.advance at hs
      dsimp only at hs
      cases hr : s.round with
      | again s'' =>
          rw [hr] at hs hround
          obtain rfl := Except.ok.inj hs
          exact hround
      | done line s'' =>
          rw [hr] at hs
          cases hs

/-- What `readLine` is called with when the prompt has been printed on an empty row. -/
structure Prompted (t : Tty) (s₀ : Editor) : Prop where
  row : t.screen.termRow ≤ rows
  col : t.screen.termCol = 0
  view : t.scrollbackActive = false
  tty : s₀.tty = print t promptText
  pages : s₀.pendingPageUp = 0 ∧ s₀.pendingPageDown = 0 ∧ s₀.pendingHome = 0 ∧ s₀.pendingEnd = 0

/-- Behind the prompt the line is empty. -/
theorem Prompted.echoing {s₀ : Editor} (h : Prompted t s₀) :
    Echoing t.screen.termRow (room t.screen.scrolling t.screen.termRow) 0 s₀.start where
  pos := ⟨Int.le_refl _, Int.le_refl _⟩
  tape := by
    have hstart := tape_start h.row h.col
    have hroom : promptText.length < room t.screen.scrolling t.screen.termRow :=
      Nat.lt_of_lt_of_le (by decide) (width_le_room h.row _)
    have hputs := hstart.puts plain_prompt (by rwa [Nat.zero_add])
    rw [show s₀.start.tty = print t promptText from h.tty]
    exact hputs
  le := Nat.le_refl _
  plain := by simp [Editor.start]
  view := by
    rw [show s₀.start.tty = print t promptText from h.tty]
    exact h.view
  pages := h.pages

/-- **The echo matches the line** in every run of `readLine` that begins behind the
prompt, keeps within the screen, and redraws the line from the prompt's row only. -/
theorem echo_matches {s₀ : Editor} (h₀ : Prompted t s₀)
    (hrun : Reach Editor.advance (Steady (room t.screen.scrolling t.screen.termRow))
    s₀.start tr s) :
    Echoes t.screen.termRow (room t.screen.scrolling t.screen.termRow) (longest s₀.start tr) s := by
  have hfollowed : Followed t.screen.termRow (room t.screen.scrolling t.screen.termRow)
      s₀.start tr s := by
    induction hrun with
    | nil => exact ⟨rfl, h₀.echoing⟩
    | snoc _ cond next ih => exact ih.advance cond next
  exact hfollowed.echoing.echoes

/-- Keys on a line that Up loads and Down clears. -/
def editKeys : Editor :=
  { pendingUp := 0, pendingDown := 0, pendingLeft := 0, pendingRight := 0, pendingPageUp := 0,
    pendingPageDown := 0,
    pendingHome := 0,
    pendingEnd := 0,
    chars := [97, 98, keyCtrlB, 99, keyCtrlA, keyCtrlD, keyCtrlK],
    history :=
      some { buf := fun _ => [100, 101, 102], size := 8, count := 1, head := 1, pos := -1 },
    line := [], pos := 0, tty := print {} promptText }

/-- A line that is edited. -/
theorem echo_matches_editKeys :
    ∃ tr s, Reach Editor.advance (Steady 1920) editKeys.start tr s ∧ s.line = [100, 101, 102] ∧
      Echoes 0 1920 3 s := by
  let tr : List Input :=
    List.replicate 7 .poll ++ [.keys [97] 0 0 0 0, .poll, .keys [] 1 0 0 0, .poll]
  have h₀ : Prompted {} editKeys := ⟨by decide, rfl, rfl, rfl, rfl, rfl, rfl, rfl⟩
  obtain ⟨s, hrun, hline⟩ := Reach.of_runsTo Editor.advance (Steady 1920) editKeys.start tr
    (fun s => decide (s.line = [100, 101, 102]))
    (by decide +kernel)
  have hlongest : longest editKeys.start tr = 3 := by decide +kernel
  have hecho := echo_matches h₀ hrun
  rw [hlongest] at hecho
  exact ⟨tr, s, hrun, of_decide_eq_true hline, hecho⟩

/-- A line of a row's length in the history. -/
def longEntry : Editor :=
  { pendingUp := 1, pendingDown := 1, pendingLeft := 0, pendingRight := 0, pendingPageUp := 0,
    pendingPageDown := 0,
    pendingHome := 0, pendingEnd := 0, chars := [],
    history :=
      some { buf := fun _ => List.replicate 80 97, size := 8, count := 1, head := 1, pos := -1 },
    line := [], pos := 0, tty := print {} promptText }

/-- The line is cleared from the row that its end has wrapped to. -/
theorem echo_differs :
    ¬ ∀ (tr : List Input) (s : Editor), Reach Editor.advance
      (WithinRoom 1920) longEntry.start tr s →
      Echoes 0 1920 (longest longEntry.start tr) s := by
  intro hall
  obtain ⟨s, hrun, hend⟩ :=
    Reach.of_runsTo Editor.advance (WithinRoom 1920) longEntry.start [.poll, .poll]
    (fun s => decide (s.pos = 0 ∧ s.tty.screen.termRow * vgaWidth + s.tty.screen.termCol = 82))
      (by decide +kernel)
  obtain ⟨hpos, hat⟩ := of_decide_eq_true hend
  have hcursor := (hall _ s hrun).tape.cursor
  rw [hat, hpos] at hcursor
  simp [top, rows, promptText] at hcursor

end Doors.Kbd
