import Doors.Elf.Outcome

/-!
# Doors.Elf.Calls

The calls that `load` makes of the paging code, one by one.

* `Pages.logged`, `load_logged` — the same code with a log of its calls, which does
  not change what `load` does;
* `panicked_alloc` and its like — a kernel that has stopped stays stopped.
-/

namespace Doors.Elf

open Run Memory

/-- A call of the loader. -/
inductive Call where
  | clearPageTable (v : Nat)
  | allocFrame
  | mapPage (v phys : Nat)
  | freeFrame (phys : Nat)
  | unmapPage (v : Nat)
  | store (a : Nat) (bs : List (BitVec 8))

/-- A call, between the states before and after it. -/
structure Step (σ : Type) where
  before : σ
  call : Call
  after : σ

/-- `st'` is reached from the logged state `s` by the call `c`. -/
def note {σ : Type} (s : σ × List (Step σ)) (c : Call) (st' : σ) : σ × List (Step σ) :=
  (st', s.2 ++ [⟨s.1, c, st'⟩])

/-- The same code, with a log of the calls that are made of it. -/
def Pages.logged {σ : Type} (P : Pages σ) : Pages (σ × List (Step σ)) where
  clearPageTable s v := note s (.clearPageTable v) (P.clearPageTable s.1 v)
  allocFrame s := ((P.allocFrame s.1).1, note s .allocFrame (P.allocFrame s.1).2)
  mapPage s v phys := ((P.mapPage s.1 v phys).1, note s (.mapPage v phys) (P.mapPage s.1 v phys).2)
  freeFrame s phys := note s (.freeFrame phys) (P.freeFrame s.1 phys)
  unmapPage s v := note s (.unmapPage v) (P.unmapPage s.1 v)
  store s a bs := note s (.store a bs) (P.store s.1 a bs)

/-- A map goes through a bind. -/
theorem map_bind {ε α β γ : Type} {x : Except ε α} {f : α → Except ε β} {f' : α → Except ε γ}
    {g : β → γ}
    (h : ∀ a, (f a).map g = f' a) : (x >>= f).map g = x >>= f' := by
  cases x with
  | error e => rfl
  | ok a => exact h a

section

variable {σ : Type} (P : Pages σ) (F : File) {o v phys : Nat} {ms : List MappedPage}

/-- What the recorded `allocFrame` answers, and what it notes. -/
theorem logged_allocFrame {r : Option Nat} {s s₁ : σ × List (Step σ)}
    (h : P.logged.allocFrame s = (r, s₁)) :
    ∃ st₁, P.allocFrame s.1 = (r, st₁) ∧ s₁ = note s .allocFrame st₁ := by
  obtain ⟨rfl, rfl⟩ := Prod.mk.inj h
  exact ⟨_, rfl, rfl⟩

/-- What the recorded `mapPage` answers, and what it notes. -/
theorem logged_mapPage {b : Bool} {s s₁ : σ × List (Step σ)}
    (h : P.logged.mapPage s v phys = (b, s₁)) :
    ∃ st₁, P.mapPage s.1 v phys = (b, st₁) ∧ s₁ = note s (.mapPage v phys) st₁ := by
  obtain ⟨rfl, rfl⟩ := Prod.mk.inj h
  exact ⟨_, rfl, rfl⟩

/-- Recording changes nothing for `framePage`. -/
theorem framePage_logged (s : σ × List (Step σ)) :
    ((framePage P.logged v ms s).1, (framePage P.logged v ms s).2.1) = framePage P v ms s.1 := by
  have halloc : (P.logged.allocFrame s).1 = (P.allocFrame s.1).1 ∧
      (P.logged.allocFrame s).2.1 = (P.allocFrame s.1).2 :=
    ⟨rfl, rfl⟩
  unfold framePage
  split
  · rfl
  · obtain ⟨h₁, h₂⟩ := halloc
    cases hlog : P.logged.allocFrame s with
    | mk r s₁ =>
        cases hplain : P.allocFrame s.1 with
        | mk r' st₁ =>
            rw [hlog, hplain] at h₁ h₂
            obtain rfl : r = r' := h₁
            obtain rfl : s₁.1 = st₁ := h₂
            cases r with
            | none => rfl
            | some phys =>
                have hmap : (P.logged.mapPage s₁ v phys).1 = (P.mapPage s₁.1 v phys).1 ∧
                    (P.logged.mapPage s₁ v phys).2.1 = (P.mapPage s₁.1 v phys).2 := ⟨rfl, rfl⟩
                obtain ⟨h₃, h₄⟩ := hmap
                dsimp only
                cases hlog' : P.logged.mapPage s₁ v phys with
                | mk b s₂ =>
                    cases hplain' : P.mapPage s₁.1 v phys with
                    | mk b' st₂ =>
                        rw [hlog', hplain'] at h₃ h₄
                        obtain rfl : b = b' := h₃
                        obtain rfl : s₂.1 = st₂ := h₄
                        cases b <;> rfl

/-- Recording changes nothing for `fillPage`. -/
theorem fillPage_logged (s : σ × List (Step σ)) :
    (fillPage P.logged F o v phys s).map Prod.fst = fillPage P F o v phys s.1 := by
  unfold fillPage
  refine map_bind fun start => map_bind fun filesz => ?_
  dsimp only
  split
  · refine map_bind fun offset => map_bind fun bytes => ?_
    rw [pure_bind, pure_bind]
    refine map_bind fun memsz => ?_
    split <;> rfl
  · rw [pure_bind, pure_bind]
    refine map_bind fun memsz => ?_
    split <;> rfl

/-- Recording changes nothing for the loop over the pages of a segment. -/
theorem mapPages_logged (vs : List Nat) (ms : List MappedPage) (s : σ × List (Step σ)) :
    (mapPages P.logged F o vs ms s).map (fun r => (r.1, r.2.1, r.2.2.1)) =
      mapPages P F o vs ms s.1 := by
  induction vs generalizing ms s with
  | nil => rfl
  | cons v vs ih =>
      have hframe : ((framePage P.logged v ms s).1, (framePage P.logged v ms s).2.1) =
          framePage P v ms s.1 :=
        framePage_logged P s
      simp only [mapPages]
      split
      · rfl
      · rw [← hframe]
        cases hlog : framePage P.logged v ms s with
        | mk r s₁ =>
            cases r with
            | none => rfl
            | some r =>
                dsimp only
                rw [← fillPage_logged P F s₁]
                cases fillPage P.logged F o v r.1 s₁ with
                | error e => rfl
                | ok s₂ => exact ih r.2 s₂

/-- Recording changes nothing for the loop over the headers. -/
theorem loadSegments_logged (os : List Nat) (ms : List MappedPage) (s : σ × List (Step σ)) :
    (loadSegments P.logged F os ms s).map (fun r => (r.1, r.2.1, r.2.2.1)) =
      loadSegments P F os ms s.1 := by
  induction os generalizing ms s with
  | nil => rfl
  | cons o os ih =>
      unfold loadSegments
      refine map_bind fun type => ?_
      split
      · exact ih ms s
      · refine map_bind fun memsz => ?_
        split
        · exact ih ms s
        · refine map_bind fun vaddr => map_bind fun memsz => ?_
          split
          · rfl
          · unfold mapSegmentRange
            simp only [bind_assoc]
            refine map_bind fun vaddr => map_bind fun memsz => ?_
            rw [← mapPages_logged P F (segmentPages vaddr memsz) ms s]
            cases mapPages P.logged F o (segmentPages vaddr memsz) ms s with
            | error e => rfl
            | ok r =>
                obtain ⟨done, ms₁, s₁⟩ := r
                cases done with
                | true => exact ih ms₁ s₁
                | false => rfl

/-- Recording changes nothing for the rollback. -/
theorem rollbackMapped_logged (ms : List MappedPage) (s : σ × List (Step σ)) :
    (rollbackMapped P.logged ms s).1 = rollbackMapped P ms s.1 := by
  induction ms generalizing s with
  | nil => rfl
  | cons m ms ih => exact ih (P.logged.unmapPage s m.vaddr)

/-- Recording changes nothing for the clearing of the lowest table. -/
theorem start_logged (low : Option Nat) (s : σ × List (Step σ)) :
    (start P.logged low s).1 = start P low s.1 := by
  unfold start
  split
  · split <;> rfl
  · rfl

/-- Recording changes nothing for the loop of `load`. -/
theorem attempt_logged (s : σ × List (Step σ)) :
    (attempt P.logged F s).map (fun r => (r.1, r.2.1, r.2.2.1)) = attempt P F s.1 := by
  refine map_bind fun low => ?_
  rw [← start_logged]
  exact loadSegments_logged P F F.headers [] (start P.logged low s)

/-- **The log changes nothing**: `load` does the same, and its calls are noted. -/
theorem load_logged (s : σ × List (Step σ)) :
    (load P.logged F s).map (fun r => (r.1, r.2.1)) = load P F s.1 := by
  unfold load
  refine map_bind fun valid => ?_
  split
  · rfl
  · refine map_bind fun phoff => map_bind fun phnum => map_bind fun phentsize =>
      map_bind fun low => ?_
    show Except.map _ (loadSegments P.logged F _ [] (start P.logged low s) >>= _) =
      loadSegments P F _ [] (start P low s.1) >>= _
    rw [← start_logged, ← loadSegments_logged]
    generalize loadSegments P.logged F (phdrs phoff phnum phentsize) [] (start P.logged low s) = r
    cases r with
    | error e => rfl
    | ok r =>
        obtain ⟨done, ms, s₁⟩ := r
        cases done with
        | true =>
            show Except.map _ (F.read 24 4 >>= _) = F.read 24 4 >>= _
            exact map_bind fun entry => rfl
        | false =>
            show Except.ok (none, (rollbackMapped P.logged ms s₁).1) = _
            rw [rollbackMapped_logged]
            rfl

end

/-! ## a panic is for good -/

section

variable {st : Phys}

/-- A check does not take a panic back. -/
theorem panicked_check (h : st.panicked = true) (a : Nat) :
    (st.checkPhysAddr a).panicked = true := by
  unfold Phys.checkPhysAddr
  split
  · rfl
  · exact h

/-- A write does not take a panic back. -/
theorem panicked_setEntry (h : st.panicked = true) (t k e : Nat) :
    (st.setEntry t k e).panicked = true := h

/-- `allocFrame` does not take a panic back. -/
theorem panicked_alloc {r : Option Nat} {st' : Phys} (h : st.panicked = true)
    (hal : st.allocFrame = (r, st')) :
    st'.panicked = true := by
  cases r with
  | none =>
      rw [(allocFrame_none hal).1]
      exact h
  | some a => exact (allocFrame_some hal).2.2.2.2.trans h

/-- `freeFrame` does not take a panic back. -/
theorem panicked_free (h : st.panicked = true) (a : Nat) : (st.freeFrame a).panicked = true := by
  unfold Phys.freeFrame
  split
  · exact h
  · split
    · rfl
    · dsimp only
      split <;> exact h

/-- Dropping an entry does not take a panic back. -/
theorem panicked_drop (h : st.panicked = true) (e : Nat) : (st.dropEntry e).panicked = true := by
  have hcheck := panicked_check h (addr e)
  unfold Phys.dropEntry
  split
  · unfold Phys.dropRef Phys.removeRef
    split
    · next st₁ heq =>
        have hst₁ : st₁.panicked = true := by
          split at heq
          · simp at heq
          · split at heq
            · simp at heq
            · rw [← (Prod.mk.inj heq).2]
              exact hcheck
        unfold Phys.freeFrameFast
        split <;> exact hst₁
    · next st₁ heq =>
        split at heq
        · rw [← (Prod.mk.inj heq).2]
          exact hcheck
        · split at heq
          · rw [← (Prod.mk.inj heq).2]
            rfl
          · rw [← (Prod.mk.inj heq).2]
            exact hcheck
  · exact h

/-- `mapPage` does not take a panic back. -/
theorem panicked_mapPage (h : st.panicked = true) (dir v a flags : Nat) :
    (st.mapPage dir v a flags).2.panicked = true := by
  have hfound : (if present (st.entry dir (pdeIdx v)) then (true, st)
      else st.ensurePageTable dir (pdeIdx v) flags).2.panicked = true := by
    split
    · exact h
    · unfold Phys.ensurePageTable
      split
      · next st₁ hal => exact panicked_alloc h hal
      · next f st₁ hal => exact panicked_setEntry (panicked_alloc h hal) _ _ _
  unfold Phys.mapPage
  generalize (if present (st.entry dir (pdeIdx v)) then (true, st)
    else st.ensurePageTable dir (pdeIdx v) flags) = found at hfound
  dsimp only
  split
  · have hdropped := panicked_drop (panicked_check hfound (addr (found.2.entry dir (pdeIdx v))))
    split <;> exact hdropped _
  · exact hfound

/-- `unmapPage` does not take a panic back. -/
theorem panicked_unmapPage (h : st.panicked = true) (dir v : Nat) :
    (st.unmapPage dir v).panicked = true := by
  unfold Phys.unmapPage Phys.tryFreePageTable
  split
  · have hdropped := panicked_drop (panicked_check h (addr (st.entry dir (pdeIdx v))))
    dsimp only
    split
    · exact panicked_free
        (panicked_setEntry (panicked_check (panicked_setEntry (hdropped _) _ _ _) _) _ _ _) _
    · exact panicked_check (panicked_setEntry (hdropped _) _ _ _) _
  · exact h

end

end Doors.Elf
