import Mathlib.Logic.Function.Basic
import Doors.Kbd.Editor

/-!
# Doors.Kbd.History

The command history of a task (`handleReadLine`, `kernel/Syscall.cc`, and the
navigation in `kernel/arch/i386/Kbd.cc`).

* `history_is_recent` — the ring holds the last 100 lines that were stored, and Up
  goes back through them;
* `down_leaves` — Down leaves the history, however far back Up has gone.
-/

namespace Doors.Kbd

/-- `Task::HISTORY_MAX`. -/
def historyMax : Int := 100

/-- The history of a `Task`; `buf` is `none` before the first call. -/
structure TaskHistory where
  buf : Option (Int → Line)
  count : Int
  head : Int
  pos : Int

namespace TaskHistory

variable (t : TaskHistory)

/-- The history of a new task. -/
def fresh : TaskHistory := { buf := none, count := 0, head := 0, pos := 0 }

/-- `handleReadLine` allocates the buffer on the first call. -/
def opened : TaskHistory :=
  match t.buf with
  | some _ => t
  | none => { buf := some fun _ => [], count := 0, head := 0, pos := -1 }

/-- What `Kbd::readLine` gets. -/
def ctx : HistoryCtx :=
  { buf := t.buf.getD fun _ => [], size := historyMax, count := t.count, head := t.head,
    pos := t.pos }

/-- The end of `handleReadLine`: the line goes into the ring. -/
def store (line : Line) : TaskHistory :=
  let buf := t.buf.getD fun _ => []
  if line ≠ [] ∧ (t.count = 0 ∨ line ≠ buf ((t.head - 1 + historyMax).tmod historyMax)) then
    { buf := some (Function.update buf t.head line), head := (t.head + 1).tmod historyMax,
      count := if t.count < historyMax then t.count + 1 else t.count, pos := -1 }
  else { t with pos := -1 }

end TaskHistory

/-- `handleReadLine`, where `valid` is the test of the user's buffer and `line` what
`Kbd::readLine` returns; the first component is what the buffer gets. -/
def handleReadLine (valid : Bool) (maxlen : Nat) (t : TaskHistory) (line : Line) :
    Option Line × TaskHistory :=
  if ¬ valid then (none, t)
  else if maxlen < 2 then (none, t)
  else
    let copyLen := if line.length ≥ maxlen then maxlen - 1 else line.length
    (some (line.take copyLen ++ [0]), t.opened.store line)

/-! ## what is stored -/

/-- The entries of the history, first to last: empty lines and lines equal to the one
stored before are dropped. -/
def stored (lines : List Line) : List Line :=
  lines.foldl (fun acc line => if line = [] ∨ acc.getLast? = some line then acc else acc ++ [line])
    []

/-- The last 100 of them, latest first. -/
def recent (lines : List Line) : List Line := (stored lines).reverse.take 100

/-- Calls of `handleReadLine` by one task, with the lines they read. -/
inductive Calls : List Line → TaskHistory → Prop where
  | fresh : Calls [] .fresh
  | read {lines : List Line} {t : TaskHistory} (calls : Calls lines t) (maxlen : Nat)
    (hmax : 2 ≤ maxlen) (line : Line) :
      Calls (lines ++ [line]) (handleReadLine true maxlen t line).2
  | rejected {lines : List Line} {t : TaskHistory} (calls : Calls lines t) (valid : Bool)
    (maxlen : Nat)
      (hbad : valid = false ∨ maxlen < 2) (line : Line) : Calls lines
        (handleReadLine valid maxlen t line).2

variable {t : TaskHistory} {lines entries : List Line} {line : Line} {s s₀ : Editor} {k j d : Nat}
  {es : List Event}

theorem stored_append (lines : List Line) (line : Line) :
    stored (lines ++ [line]) = if line = [] ∨ (stored lines).getLast? = some line then stored lines
      else stored lines ++ [line] := by
  unfold stored
  rw [List.foldl_append, List.foldl_cons, List.foldl_nil]

theorem historyMax_eq (t : TaskHistory) : t.ctx.size = 100 := rfl

/-- The slot that is written next is that of the line before the oldest one. -/
theorem slot_head (hs : (TaskHistory.ctx t).Shows entries 0) : t.ctx.slot 100 = t.head := by
  have h₀ := hs.head_nonneg
  have h₁ := hs.head_lt
  have hsize := historyMax_eq t
  rw [hs.slot_eq (by omega) (by omega), hsize, if_neg (by omega)]
  show t.head - 100 + 100 = t.head
  omega

/-- **A line goes in front** of the ring, and the oldest one out. -/
theorem shows_store (hs : (TaskHistory.ctx t).Shows entries 0)
    (hnew : line ≠ [] ∧ (t.count = 0 ∨ line ≠ t.ctx.buf (t.ctx.slot 1))) :
    (TaskHistory.ctx (t.store line)).Shows ((line :: entries).take 100) 0 := by
  have hhead : t.ctx.head = t.head := rfl
  have h₀ : 0 ≤ t.head := hs.head_nonneg
  have h₁ : t.head < 100 := hs.head_lt
  have hcount : t.count = entries.length := hs.count
  have hle : t.count ≤ 100 := hs.le
  have hstore : t.store line = ⟨some (Function.update t.ctx.buf t.head line),
      if t.count < historyMax then t.count + 1 else t.count, (t.head + 1).tmod historyMax, -1⟩ :=
        if_pos hnew
  have hmod : (t.head + 1).tmod historyMax = if t.head = 99 then 0 else t.head + 1 := by
    unfold historyMax
    rw [Int.tmod_eq_emod_of_nonneg (by omega)]
    split <;> omega
  have hnext : 0 ≤ (t.head + 1).tmod historyMax ∧ (t.head + 1).tmod historyMax < 100 := by
    rw [hmod]
    split <;> omega
  -- the slots of the lines that stay
  have hslot : ∀ d : Int, 0 ≤ d → d < 100 → (t.store line).ctx.slot (d + 1) = t.ctx.slot d := by
    intro d hd₀ hd
    rw [hs.slot_eq hd₀ (by rw [historyMax_eq]; omega), hstore]
    show ((t.head + 1).tmod historyMax - (d + 1) + 100).tmod 100 = if d ≤ t.head then t.head - d
      else t.head - d + 100
    rw [hmod, Int.tmod_eq_emod_of_nonneg (by split <;> omega)]
    split <;> split <;> omega
  refine ⟨by rw [historyMax_eq]; decide, ?_, ?_, ?_, ?_, fun d hd => ?_, ?_, Nat.zero_le _⟩
  · rw [hstore]
    show (if t.count < 100 then t.count + 1 else t.count) = _
    rw [List.length_take, List.length_cons]
    split <;> omega
  · rw [hstore]
    show (if t.count < 100 then t.count + 1 else t.count) ≤ 100
    split <;> omega
  · rw [hstore]
    exact hnext.1
  · rw [hstore]
    exact hnext.2
  · have hd' : d < entries.length + 1 ∧ d < 100 := by
      rw [List.length_take, List.length_cons] at hd
      omega
    rw [hslot d (by omega) (by omega), hstore]
    show _ = Function.update t.ctx.buf t.head line (t.ctx.slot d)
    cases d with
    | zero =>
        have hzero : t.ctx.slot 0 = t.head := by
          rw [hs.slot_eq (by omega) (by rw [historyMax_eq]; omega), if_pos hs.head_nonneg]
          show t.head - 0 = t.head
          omega
        show _ = Function.update t.ctx.buf t.head line (t.ctx.slot 0)
        rw [hzero, Function.update_self]
        simp
    | succ d =>
        have hne : t.ctx.slot (d + 1) ≠ t.head := by
          rw [← slot_head hs]
          intro heq
          have := hs.slot_inj (by omega) (by omega) (by rw [historyMax_eq]; omega)
            (by rw [historyMax_eq]) heq
          omega
        have hold := hs.lines d (by omega)
        rw [Nat.cast_succ, Function.update_of_ne hne, ← hold]
        simp
  · rw [hstore]
    rfl

theorem shows_same (hs : (TaskHistory.ctx t).Shows entries 0)
    (hold : ¬ (line ≠ [] ∧ (t.count = 0 ∨ line ≠ t.ctx.buf (t.ctx.slot 1)))) :
    (TaskHistory.ctx (t.store line)).Shows entries 0 := by
  have hstore : t.store line = { t with pos := -1 } := if_neg hold
  rw [hstore]
  exact ⟨hs.size, hs.count, hs.le, hs.head_nonneg, hs.head_lt, hs.lines, rfl, hs.depth⟩

theorem opened_store (t : TaskHistory) (line : Line) :
    (t.opened.store line).opened = t.opened.store line := by
  unfold TaskHistory.store
  dsimp only
  split
  · rfl
  · unfold TaskHistory.opened
    cases hb : t.buf with
    | none => rfl
    | some buf => simp [hb]

/-- The test of `handleReadLine` compares with the last line stored. -/
theorem stores_iff (hs : (TaskHistory.ctx t).Shows (recent lines) 0) :
    (line ≠ [] ∧ (t.count = 0 ∨ line ≠ t.ctx.buf (t.ctx.slot 1))) ↔
      ¬ (line = [] ∨ (stored lines).getLast? = some line) := by
  have hcount : t.count = (recent lines).length := hs.count
  have hhead : (recent lines).head? = (stored lines).getLast? := by
    rw [recent, List.head?_take, if_neg (by decide), List.head?_reverse]
  rw [← hhead]
  cases hr : recent lines with
  | nil =>
      have hzero : t.count = 0 := by simp [hcount, hr]
      simp [hzero]
  | cons latest rest =>
      have hlatest : latest = t.ctx.buf (t.ctx.slot 1) := by
        rw [hr] at hs
        exact hs.lines 0 (by simp)
      have hpos : t.count ≠ 0 := by
        rw [hcount, hr, List.length_cons]
        omega
      rw [← hlatest]
      simp [hpos, eq_comm]

theorem recent_append (lines : List Line) (line : Line) :
    recent (lines ++ [line]) =
      if line = [] ∨ (stored lines).getLast? = some line then recent lines
        else (line :: recent lines).take 100 := by
  unfold recent
  rw [stored_append]
  split
  · rfl
  · simp [List.take_take]

/-- **After every sequence of calls** the ring holds the recent lines. -/
theorem calls_shows (hcalls : Calls lines t) :
    (TaskHistory.ctx t.opened).Shows (recent lines) 0 := by
  induction hcalls with
  | fresh =>
      show (TaskHistory.ctx ⟨some fun _ => [], 0, 0, -1⟩).Shows [] 0
      exact ⟨by decide, rfl, by decide, by decide, by decide, by simp, rfl, by simp⟩
  | @read lines t calls maxlen hmax line ih =>
      have hstep : (handleReadLine true maxlen t line).2 = t.opened.store line := by
        simp [handleReadLine, show ¬ maxlen < 2 by omega]
      rw [hstep, opened_store, recent_append]
      by_cases hnew : line = [] ∨ (stored lines).getLast? = some line
      · rw [if_pos hnew]
        exact shows_same ih fun h => (stores_iff ih).mp h hnew
      · rw [if_neg hnew]
        exact shows_store ih ((stores_iff ih).mpr hnew)
  | rejected calls valid maxlen hbad line ih =>
      have hstep : ∀ t, (handleReadLine valid maxlen t line).2 = t := by
        intro t
        rcases hbad with rfl | hlt
        · rfl
        · simp [handleReadLine, hlt]
      rwa [hstep]

/-! ## navigation -/

/-- What is shown `d` entries back. -/
def shown (entries : List Line) : Nat → Line
  | 0 => []
  | d + 1 => entries.getD d []

/-- The reference `d` entries back. -/
theorem run_ups (entries : List Line) (k : Nat) :
    ∃ r, Ref.run (some entries) 0 (List.replicate k .up) = .ok r ∧ r.depth = min k entries.length ∧
      r.text = shown entries (min k entries.length) := by
  induction k with
  | zero => exact ⟨.empty 0, rfl, by simp [Ref.empty], by simp [Ref.empty, shown]⟩
  | succ k ih =>
      obtain ⟨r, hr, hdepth, htext⟩ := ih
      refine ⟨r.up entries, ?_, ?_⟩
      · rw [List.replicate_succ', run_append _ _ hr]
        rfl
      · unfold Ref.up
        by_cases hmore : r.depth < entries.length
        · have hmin : min (k + 1) entries.length = r.depth + 1 := by omega
          rw [dif_pos hmore, hmin]
          simp [Ref.load, shown, hmore]
        · have hmin : min (k + 1) entries.length = min k entries.length := by omega
          rw [dif_neg hmore, hmin]
          exact ⟨hdepth, htext⟩

/-- Down as often as one likes: the text is empty. -/
theorem run_downs (entries : List Line) (k j : Nat) (hj : 0 < j) :
    ∃ r, Ref.run (some entries) 0 (List.replicate k .up ++ List.replicate j .down) = .ok r ∧
      r.depth = 0 ∧ r.text = [] := by
  induction j with
  | zero => omega
  | succ j ih =>
      rw [List.replicate_succ', ← List.append_assoc]
      rcases Nat.eq_zero_or_pos j with rfl | hpos
      · obtain ⟨r, hr, hdepth, htext⟩ := run_ups entries k
        refine ⟨r.down, ?_, ?_⟩
        · rw [List.replicate_zero, List.append_nil, run_append _ _ hr]
          rfl
        · unfold Ref.down
          split
          · next hzero =>
              rw [hdepth] at hzero
              rw [hzero] at htext
              exact ⟨by omega, htext⟩
          · exact ⟨rfl, rfl⟩
      · obtain ⟨r, hr, hdepth, htext⟩ := ih hpos
        refine ⟨r, ?_, hdepth, htext⟩
        rw [run_append _ _ hr]
        simp [Ref.step, Ref.down, hdepth]

/-- The editor shows what the reference has. -/
theorem Session.text {entries : List Line} {r : Ref} (h₀ : Ready (some entries) 0 s₀)
    (hrun : Session s₀ es s)
    (hr : Ref.run (some entries) 0 es = .ok r) : s.line = r.text := by
  obtain ⟨r', hr', hs⟩ := hrun.sim h₀
  cases hr.symm.trans hr'
  exact hs.line

theorem historyUp_pending (s : Editor) (h : HistoryCtx) :
    (s.historyUp h).pendingUp = s.pendingUp ∧ (s.historyUp h).pendingDown = s.pendingDown := by
  unfold Editor.historyUp
  dsimp only
  split
  · split
    · exact ⟨rfl, rfl⟩
    · exact ⟨rfl, rfl⟩
  · split
    · exact ⟨rfl, rfl⟩
    · exact ⟨rfl, rfl⟩

theorem historyDown_pending (s : Editor) (h : HistoryCtx) :
    (s.historyDown h).pendingUp = s.pendingUp ∧ (s.historyDown h).pendingDown = s.pendingDown := by
  unfold Editor.historyDown
  dsimp only
  split
  · exact ⟨rfl, rfl⟩
  · exact ⟨rfl, rfl⟩

/-- No Up and no Down is waiting. -/
def Idle (s : Editor) : Prop := s.pendingUp = 0 ∧ s.pendingDown = 0

/-- An Up that arrives is consumed. -/
theorem session_up (h₀ : Ready (some entries) 0 s₀) (hrun : Session s₀ es s) (hidle : Idle s) :
    ∃ s', Session s₀ (es ++ [.up]) s' ∧ Idle s' := by
  obtain ⟨r, -, hs⟩ := hrun.sim h₀
  obtain ⟨hup, hdown⟩ := hidle
  have hholds := hs.history
  cases hh : s.history with
  | none => simp [hh, Holds] at hholds
  | some h =>
      have hstep : Session s₀ _ ({ s.arrive [] 1 0 0 0 with pendingUp := 0 }.historyUp h) :=
        .round (hrun.arrive [] 1 0 0 0) (by simp [Editor.round, Editor.arrive, hs.view, hh, hup])
      have hnext : (s.arrive [] 1 0 0 0).next = some .up := by simp [Editor.next, Editor.arrive, hh]
      rw [hnext] at hstep
      refine ⟨_, hstep, ?_, ?_⟩
      · rw [(historyUp_pending _ _).1]
      · rw [(historyUp_pending _ _).2]
        simpa [Editor.arrive] using hdown

/-- A Down that arrives is consumed. -/
theorem session_down (h₀ : Ready (some entries) 0 s₀) (hrun : Session s₀ es s) (hidle : Idle s) :
    ∃ s', Session s₀ (es ++ [.down]) s' ∧ Idle s' := by
  obtain ⟨r, -, hs⟩ := hrun.sim h₀
  obtain ⟨hup, hdown⟩ := hidle
  have hholds := hs.history
  cases hh : s.history with
  | none => simp [hh, Holds] at hholds
  | some h =>
      have hstep : Session s₀ _ ({ s.arrive [] 0 1 0 0 with pendingDown := 0 }.historyDown h) :=
        .round (hrun.arrive [] 0 1 0 0)
          (by simp [Editor.round, Editor.arrive, hs.view, hh, hup, hdown])
      have hnext : (s.arrive [] 0 1 0 0).next = some .down := by
        simp [Editor.next, Editor.arrive, hh, hup]
      rw [hnext] at hstep
      refine ⟨_, hstep, ?_, ?_⟩
      · rw [(historyDown_pending _ _).1]
        simpa [Editor.arrive] using hup
      · rw [(historyDown_pending _ _).2]

/-- There is a session of `k` Ups and `j` Downs. -/
theorem session_ups_downs (h₀ : Ready (some entries) 0 s₀) (hidle : Idle s₀) (k j : Nat) :
    ∃ s, Session s₀ (List.replicate k .up ++ List.replicate j .down) s ∧ Idle s := by
  induction j with
  | zero =>
      induction k with
      | zero => exact ⟨_, .start, hidle⟩
      | succ k ih =>
          obtain ⟨s, hrun, hs⟩ := ih
          obtain ⟨s', hrun', hs'⟩ := session_up h₀ hrun hs
          rw [List.replicate_succ']
          exact ⟨s', by simpa using hrun', hs'⟩
  | succ j ih =>
      obtain ⟨s, hrun, hs⟩ := ih
      obtain ⟨s', hrun', hs'⟩ := session_down h₀ hrun hs
      rw [List.replicate_succ', ← List.append_assoc]
      exact ⟨s', hrun', hs'⟩

/-- **The history is the recent past**: after any calls of one task the ring holds
the last 100 lines stored, and in the next call `k` Ups on the empty prompt show the
`k`-th most recent of them, or the oldest. -/
theorem history_is_recent (hcalls : Calls lines t) (hhist : s₀.history = some t.opened.ctx)
    (hidle : Idle s₀)
    (hview : s₀.tty.scrollbackActive = false)
    (hpages : s₀.pendingPageUp = 0 ∧ s₀.pendingPageDown = 0 ∧ s₀.pendingHome = 0 ∧
    s₀.pendingEnd = 0) (k : Nat) :
    (TaskHistory.ctx t.opened).Shows (recent lines) 0 ∧ (∃ s, Session s₀ (List.replicate k .up) s) ∧
      ∀ s, Session s₀ (List.replicate k .up) s →
        s.line = shown (recent lines) (min k (recent lines).length) := by
  have hshow := calls_shows hcalls
  have h₀ : Ready (some (recent lines)) 0 s₀ := ⟨by rw [hhist]; exact hshow, hview, hpages⟩
  refine ⟨hshow, ?_, fun s hrun => ?_⟩
  · obtain ⟨s, hrun, -⟩ := session_ups_downs h₀ hidle k 0
    exact ⟨s, by simpa using hrun⟩
  · obtain ⟨r, hr, -, htext⟩ := run_ups (recent lines) k
    rw [hrun.text h₀ hr, htext]

/-- The prompt of a task's next call. -/
def prompt (t : TaskHistory) : Editor :=
  { pendingUp := 0, pendingDown := 0, pendingLeft := 0, pendingRight := 0, pendingPageUp := 0,
    pendingPageDown := 0,
    pendingHome := 0,
    pendingEnd := 0,
    chars := [],
    history := some t.opened.ctx,
    line := [],
    pos := 0,
    tty := {} }

/-- A line, the same line again and another one were read: the first of them is two
entries back. -/
theorem history_is_recent_repeated :
    ∃ t, Calls [[97], [97], [98]] t ∧ ∀ s, Session (prompt t) (List.replicate 2 .up) s →
      s.line = [97] := by
  have hcalls : Calls [[97], [97], [98]] _ :=
    .read (.read (.read .fresh 80 (by decide) [97]) 80 (by decide) [97]) 80 (by decide) [98]
  refine ⟨_, hcalls, fun s hrun => ?_⟩
  have hline :=
    (@history_is_recent _ _ (prompt _) hcalls rfl ⟨rfl, rfl⟩ rfl ⟨rfl, rfl, rfl, rfl⟩ 2).2.2 s hrun
  exact hline

/-- **Down leaves the history**: after `k` Ups on the empty prompt and `j` Downs the
line is the one that `k` Ups show when `j` is 0, and empty otherwise. -/
theorem down_leaves (h₀ : Ready (some entries) 0 s₀) (hidle : Idle s₀) (k j : Nat) :
    (∃ s, Session s₀ (List.replicate k .up ++ List.replicate j .down) s) ∧
      ∀ s, Session s₀ (List.replicate k .up ++ List.replicate j .down) s →
        s.line = if j = 0 then shown entries (min k entries.length) else [] := by
  refine ⟨?_, fun s hrun => ?_⟩
  · obtain ⟨s, hrun, -⟩ := session_ups_downs h₀ hidle k j
    exact ⟨s, hrun⟩
  · split
    · next hj =>
        obtain ⟨r, hr, -, htext⟩ := run_ups entries k
        rw [hj, List.replicate_zero, List.append_nil] at hrun
        rw [hrun.text h₀ hr, htext]
    · obtain ⟨r, hr, -, htext⟩ := run_downs entries k j (by omega)
      rw [hrun.text h₀ hr, htext]

/-- Two lines of history and nothing waiting. -/
def quietLines : Editor := { twoLines with pendingUp := 0 }

theorem quietLines_ready : Ready (some [[99], [97, 98]]) 0 quietLines := { twoLines_ready with }

theorem down_leaves_quietLines :
    ∃ s, Session quietLines (List.replicate 2 .up ++ List.replicate 1 .down) s ∧ s.line = [] := by
  obtain ⟨⟨s, hrun⟩, hall⟩ := down_leaves quietLines_ready ⟨rfl, rfl⟩ 2 1
  exact ⟨s, hrun, hall s hrun⟩

/-- Two Ups and a Down: the line is empty, not the latest entry. -/
theorem down_skips_entries :
    ¬ ∀ (entries : List Line) (s₀ : Editor), Ready (some entries) 0 s₀ → Idle s₀ → ∀ k, 1 ≤ k →
      k ≤ entries.length →
      ∀ s, Session s₀ (List.replicate k .up ++ List.replicate 1 .down) s →
        s.line = shown entries (k - 1) := by
  intro hall
  obtain ⟨s, hrun, -⟩ := session_ups_downs quietLines_ready ⟨rfl, rfl⟩ 2 1
  have hline := hall _ _ quietLines_ready ⟨rfl, rfl⟩ 2 (by decide) (by decide) s hrun
  obtain ⟨r, hr, -, htext⟩ := run_downs [[99], [97, 98]] 2 1 (by decide)
  rw [hrun.text quietLines_ready hr, htext] at hline
  simp [shown] at hline

end Doors.Kbd
