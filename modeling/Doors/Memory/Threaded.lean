import Doors.Memory.FreeList
import Doors.Memory.Stats

/-!
# Doors.Memory.Threaded

The list of free frames that the allocator is modelled with is the one in memory.

`Pmm.raw` forgets the list and keeps its head; the links are read from the memory, into
which `freeFrame` writes them.

* `init_threaded`, `Paged.step` — the two agree after `Pmm::init`, and a step that is about a
  frame in use keeps it so;
* `reserveFrame_raw`, `unlink_raw` — where they agree, the walks do what `Pmm.reserveFrame`
  and `Phys.unlink` say.
-/

namespace Doors.Memory

open Chain Run

/-- What is in memory of the allocator. -/
def Pmm.raw (p : Pmm) : Raw :=
  { mem := p.phys.mem, freeList := p.phys.free.headD 0, freeCount := p.freeCount,
    refs := p.phys.refs, maxFrameIdx := p.phys.maxFrameIdx }

/-- **The list in memory** is the one of the model. -/
def Pmm.Threaded (p : Pmm) : Prop := FreeList p.raw p.phys.free

variable {s : Raw} {p q : Pmm} {l pre rest : List Nat} {a k n addr kernelEnd : Nat}
  {mem : Nat → BitVec 8} {mbi : Mbi}
  {ms : List ModuleRange} {u u' : Usage} {tr : List FrameOp} {gone : Nat → Bool}

/-! ## one frame more or less -/

/-- A frame is put in front of the list. -/
theorem FreeList.push (h : FreeList s l) (hmod : a % pageSize = 0) (hpos : 0 < a) (hlt : a < 2 ^ 32)
    (hfresh : a ∉ l) :
    FreeList
      { s with
        mem := setWord s.mem a s.freeList, freeList := a,
        freeCount := (s.freeCount + 1) % 2 ^ 32 } (a :: l) := by
  have hlen := h.length_le
  have hhead : s.freeList < 2 ^ 32 := by
    rcases h.linked.head_mem with hnull | hmem
    · rw [hnull]
      exact Nat.two_pow_pos 32
    · exact (h.frames _ hmem).2
  have hlink : word (setWord s.mem a s.freeList) a = s.freeList := word_setWord s.mem hhead
  have hsame : ∀ b ∈ l, word (setWord s.mem a s.freeList) b = word s.mem b := fun b hb =>
    next_setWord (h.frames b hb).1 hmod (by grind) s.mem
  refine ⟨⟨rfl, Nat.ne_of_gt hpos, ?_⟩, List.forall_mem_cons.mpr ⟨⟨hmod, hlt⟩, h.frames⟩, ?_⟩
  · show Linked _ (word (setWord s.mem a s.freeList) a) l
    rw [hlink]
    exact h.linked.congr hsame
  · show (s.freeCount + 1) % 2 ^ 32 = (a :: l).length
    rw [h.count, List.length_cons]
    unfold maxFrames at hlen
    omega

/-- The first frame is handed out, filled with zeros. -/
theorem FreeList.pop (h : FreeList s (a :: l)) :
    FreeList
      { s with
        mem := zeroFrame s.mem a, freeList := l.headD 0,
        freeCount := (s.freeCount + 2 ^ 32 - 1) % 2 ^ 32 } l := by
  have hlen := h.length_le
  have hnodup := List.nodup_cons.mp h.linked.nodup
  obtain ⟨-, -, hlinked⟩ := h.linked
  have hsame : ∀ b ∈ l, word (zeroFrame s.mem a) b = word s.mem b := by
    intro b hb
    have hne : b ≠ a := fun heq => hnodup.1 (heq ▸ hb)
    have hb := (h.frames b (by simp [hb])).1
    have ha := (h.frames a (by simp)).1
    refine word_congr fun x hlo hhi => if_neg ?_
    unfold pageSize at *
    omega
  refine ⟨?_, fun b hb => h.frames b (by simp [hb]), ?_⟩
  · show Linked _ (l.headD 0) l
    rw [← hlinked.head]
    exact hlinked.congr hsame
  · show (s.freeCount + 2 ^ 32 - 1) % 2 ^ 32 = l.length
    rw [h.count, List.length_cons]
    simp only [List.length_cons, maxFrames] at hlen
    omega

/-! ## the operations -/

/-- What neither writes nor moves frames keeps the thread. -/
theorem Pmm.Threaded.same (h : p.Threaded) (hmem : q.phys.mem = p.phys.mem)
    (hfree : q.phys.free = p.phys.free)
    (hcount : q.freeCount = p.freeCount) : q.Threaded := by
  unfold Pmm.Threaded Pmm.raw
  rw [hmem, hfree, hcount]
  exact ⟨h.linked, h.frames, h.count⟩

/-- The frame `a` may be put into the list. -/
structure Pmm.Takes (p : Pmm) (a : Nat) : Prop where
  page : a % pageSize = 0
  pos : 0 < a
  lt : a < 2 ^ 32
  fresh : a ∉ p.phys.free

/-- A frame is linked in front. -/
theorem Pmm.Threaded.push (h : p.Threaded) (ha : p.Takes a)
    (hmem : q.phys.mem = setWord p.phys.mem a (p.phys.free.headD 0))
    (hfree : q.phys.free = a :: p.phys.free) (hcount : q.freeCount = (p.freeCount + 1) % 2 ^ 32) :
    q.Threaded := by
  have hpush := FreeList.push h ha.page ha.pos ha.lt ha.fresh
  unfold Pmm.Threaded Pmm.raw
  rw [hmem, hfree, hcount]
  exact ⟨hpush.linked, hpush.frames, hpush.count⟩

/-- A frame of the scan is linked in front. -/
theorem Pmm.Threaded.freeFrameFast (h : p.Threaded) (ha : p.Takes a) :
    (p.freeFrameFast a).Threaded := by
  have hne := Nat.ne_of_gt ha.pos
  apply h.push ha <;> simp [Pmm.freeFrameFast, Phys.freeFrameFast, hne]

/-- A frame whose last reference goes is linked in front. -/
theorem Pmm.Threaded.freeFrame (h : p.Threaded) (ha : p.phys.refs (a / pageSize) = 1 → p.Takes a) :
    (p.freeFrame a).Threaded := by
  unfold Pmm.freeFrame
  split
  · next hkeep =>
      refine h.same ?_ (phys_freeFrame_same _ _ hkeep) rfl
      show (p.phys.freeFrame a).mem = _
      unfold Phys.freeFrame Phys.setRef
      grind [Phys.panic]
  · next hgone =>
      refine h.push (ha (last_of_push hgone)) ?_ (phys_freeFrame_push _ _ hgone) rfl
      show (p.phys.freeFrame a).mem = _
      unfold Phys.freeFrame Phys.setRef
      grind

/-- Counting up touches no frame. -/
theorem Pmm.Threaded.addRef (h : p.Threaded) (a : Nat) : (p.addRef a).Threaded := by
  apply h.same <;> (unfold Pmm.addRef Phys.addRef; grind [Phys.setRef])

/-- Counting down touches no frame. -/
theorem removeRef_mem (st : Phys) (a : Nat) : (st.removeRef a).2.mem = st.mem := by
  unfold Phys.removeRef
  grind [Phys.setRef, Phys.panic]

/-- A reference goes, and with the last one the frame. -/
theorem Pmm.Threaded.dropRef (h : p.Threaded) (ha : p.phys.refs (a / pageSize) = 1 → p.Takes a) :
    (p.dropRef a).Threaded := by
  have hmem := removeRef_mem p.phys a
  have hfree := removeRef_free p.phys a
  have hlast := removeRef_last p.phys a
  unfold Pmm.dropRef Pmm.removeRef
  rcases hrm : p.phys.removeRef a with ⟨gone, phys⟩
  rw [hrm] at hmem hfree hlast
  cases gone with
  | false => exact h.same hmem hfree rfl
  | true =>
      have hsame : Pmm.Threaded
        { p with phys, freeTotalCount := (p.freeTotalCount + 1) % 2 ^ 32 } := h.same hmem hfree rfl
      have htakes := ha (hlast rfl)
      exact hsame.freeFrameFast ⟨htakes.page, htakes.pos, htakes.lt,
        fun hin => htakes.fresh (hfree ▸ hin)⟩

/-- The first frame leaves the list. -/
theorem Pmm.Threaded.allocFrame (h : p.Threaded) : p.allocFrame.2.Threaded := by
  unfold Pmm.allocFrame
  rcases halloc : p.phys.allocFrame with ⟨a | a, phys⟩
  · exact h
  · obtain ⟨hfree, hmem, -⟩ := allocFrame_some halloc
    have hlist : FreeList p.raw (a :: phys.free) := hfree ▸ (show FreeList p.raw p.phys.free from h)
    have hpop := hlist.pop
    unfold Pmm.Threaded Pmm.raw
    dsimp only
    rw [hmem]
    exact ⟨hpop.linked, hpop.frames, hpop.count⟩

/-- A count is set in both models alike. -/
theorem countOne_raw (p : Pmm) (a : Nat) :
    Pmm.raw { p with phys := if p.phys.Counted a then p.phys.setRef a 1 else p.phys } =
      p.raw.countOne a := by
  unfold Raw.countOne
  by_cases hc : p.phys.Counted a
  · rw [if_pos hc, if_pos (show a / pageSize < p.raw.maxFrameIdx from hc)]
    rfl
  · rw [if_neg hc, if_neg (show ¬ a / pageSize < p.raw.maxFrameIdx from hc)]

/-- `reserveFrame` on the list is the walk in memory. -/
theorem reserveFrame_raw (h : p.Threaded) (a : Nat) (hk : p.phys.free.length < k) :
    p.raw.reserveFrame k a = some (p.reserveFrame a).raw := by
  rw [reserveFrame_eq h a hk, Option.some.injEq]
  by_cases hin : a ∈ p.phys.free
  · have hne : a ≠ 0 := h.linked.ne_zero a hin
    obtain ⟨pre, post, hsplit, hpre⟩ := List.eq_append_cons_of_mem hin
    have htake : p.phys.free.takeWhile (· ≠ a) = pre := by
      rw [hsplit, List.takeWhile_append_of_pos (by grind)]
      simp
    have hdrop : p.phys.free.dropWhile (· ≠ a) = a :: post := by
      rw [hsplit, List.dropWhile_append_of_pos (by grind)]
      simp
    have herase : p.phys.free.erase a = pre ++ post := by
      rw [hsplit, List.erase_append_right _ hpre, List.erase_cons_head]
    have hnext : p.raw.next a = post.headD 0 := by
      have hlinked := h.linked
      rw [hsplit] at hlinked
      exact hlinked.drop.head
    have hfound : ¬ (a = 0 ∨ a ∉ p.phys.free) := by simp [hne, hin]
    rw [reserved, if_pos hin, Pmm.reserveFrame, if_neg hfound, htake, hdrop, herase,
      Raw.unlink, hnext]
    rcases List.eq_nil_or_concat pre with rfl | ⟨init, b, rfl⟩
    · exact (countOne_raw
        { p with
          phys := { p.phys with free := post },
          freeCount := (p.freeCount + 2 ^ 32 - 1) % 2 ^ 32 } a).symm
    · have hhead : p.phys.free.headD 0 = (init ++ [b] ++ post).headD 0 := by
        rw [hsplit, List.concat_eq_append]
        cases init <;> rfl
      rw [List.concat_eq_append, slot_append, List.getLast?_concat, Raw.store, Pmm.raw, hhead]
      let phys :=
        { p.phys with mem := setWord p.phys.mem b (post.headD 0), free := init ++ [b] ++ post }
      exact (countOne_raw { p with phys, freeCount := (p.freeCount + 2 ^ 32 - 1) % 2 ^ 32 } a).symm
  · rw [reserved, if_neg hin, Pmm.reserveFrame, if_pos (.inr hin)]

/-- A frame leaves the list wherever it is. -/
theorem Pmm.Threaded.reserveFrame (h : p.Threaded) (a : Nat) : (p.reserveFrame a).Threaded := by
  by_cases hzero : a = 0
  · rwa [show p.reserveFrame a = p from if_pos (.inl hzero)]
  · have heq := (reserveFrame_eq h a (Nat.lt_succ_self _)).symm.trans
      (reserveFrame_raw h a (Nat.lt_succ_self _))
    have hlist := (reserved_removes h a).list
    rw [Option.some.inj heq] at hlist
    have hfilter : p.phys.free.filter (fun b => !decide (b = a)) =
        (p.reserveFrame a).phys.free := by
      rw [reserveFrame_free hzero, h.linked.nodup.erase_eq_filter]
      exact List.filter_congr fun b _ => by grind
    rwa [hfilter] at hlist

/-! ## the walks over many frames -/

/-- The links that a walk writes over the frames that stay: `prev` is the last of them,
or none. -/
def relink (gone : Nat → Bool) : Option Nat → List Nat → (Nat → BitVec 8) → Nat → BitVec 8
  | _, [], mem => mem
  | prev, a :: rest, mem =>
      if gone a then
        relink gone prev rest (match prev with
          | none => mem
          | some b => setWord mem b (rest.headD 0))
      else relink gone (some a) rest mem

namespace Phys

variable (st : Phys)

/-- The loop of `removeFramesAbove` and of `reserveRegion`. -/
def unlink (gone : Nat → Bool) : Phys :=
  { st with free := st.free.filter fun a => !gone a, mem := relink gone none st.free st.mem }

/-- `Pmm::removeFramesAbove`. -/
def removeFramesAbove (boundary : Nat) : Phys := st.unlink fun a => boundary ≤ a

/-- `Pmm::reserveRegion`. -/
def reserveRegion (start stop : Nat) : Phys :=
  st.unlink fun a => pageUp start ≤ a && a < pageDown stop

end Phys

/-- What a sweep leaves of the allocator. -/
theorem sweep_relink (h : FreeList s (pre ++ rest)) (hpre : ∀ a ∈ pre, gone a = false)
    (hk : rest.length < k) :
    sweep gone k (slot pre) (rest.headD 0) s =
      some { s with
        mem := relink gone pre.getLast? rest s.mem
        freeList := ((pre ++ rest).filter fun a => !gone a).headD 0
        freeCount := ((pre ++ rest).filter fun a => !gone a).length } := by
  induction rest generalizing s pre k with
  | nil =>
      obtain ⟨k, rfl⟩ := Nat.exists_eq_add_of_lt hk
      rw [List.filter_eq_self.mpr (by simpa using hpre), ← h.linked.head, ← h.count]
      rfl
  | cons c rest ih =>
      obtain ⟨k, rfl⟩ := Nat.exists_eq_add_of_lt hk
      have hne : c ≠ 0 := h.linked.ne_zero c (by simp)
      have hnext : s.next c = rest.headD 0 := h.linked.drop.head
      by_cases hgone : gone c = true
      · have hfilter : (pre ++ c :: rest).filter (fun a => !gone a) = (pre ++ rest).filter fun a =>
            !gone a := by
          simp [List.filter_append, hgone]
        rw [List.headD_cons, sweep, if_neg hne, if_pos hgone]
        dsimp only
        rw [h.unlink_next, ih h.unlink hpre (by simp only [List.length_cons]; omega), hfilter]
        conv_rhs => unfold relink
        rw [if_pos hgone]
        unfold slot Raw.unlink
        rw [hnext]
        cases pre.getLast? with
        | none => rfl
        | some b => rfl
      · rw [show pre ++ c :: rest = pre ++ [c] ++ rest by simp] at h ⊢
        rw [List.headD_cons, sweep, if_neg hne, if_neg hgone, hnext, ← slot_append pre,
          ih h (by grind) (by simp only [List.length_cons]; omega), List.getLast?_concat]
        conv_rhs => unfold relink
        rw [if_neg hgone]

/-- `removeFramesAbove` and `reserveRegion` on the list are the walk in memory. -/
theorem unlink_raw (h : p.Threaded) (gone : Nat → Bool) (hk : p.phys.free.length < k) :
    sweep gone k .freeList p.raw.freeList p.raw =
      some (Pmm.raw
        { p with phys := p.phys.unlink gone, freeCount := (p.phys.unlink gone).free.length }) :=
  sweep_relink (show FreeList p.raw ([] ++ p.phys.free) from h) (by simp) hk

/-! ## runs -/

/-- The frames of a region are linked one by one. -/
theorem Pmm.Threaded.addFrames (h : p.Threaded) (hmod : addr % pageSize = 0)
    (hlt : addr + n * pageSize ≤ 2 ^ 32)
    (hnodup : ((framesFrom kernelEnd ms n addr).reverse ++ p.phys.free).Nodup) :
    (Pmm.addFrames kernelEnd ms n addr p).Threaded := by
  induction n generalizing addr p with
  | zero => exact h
  | succ n ih =>
      rw [Nat.succ_mul] at hlt
      have hmod' : (addr + pageSize) % pageSize = 0 := by rw [Nat.add_mod_right, hmod]
      rw [framesFrom] at hnodup
      rw [Pmm.addFrames]
      cases hskip : Pmm.skips kernelEnd ms addr with
      | true =>
          rw [if_pos (by simp [hskip])] at hnodup
          exact ih h hmod' (by omega) hnodup
      | false =>
          by_cases hzero : addr = 0
          · rw [if_pos (by simp [hzero])] at hnodup
            rw [if_neg (by decide), show p.freeFrameFast addr = p from if_pos hzero]
            exact ih h hmod' (by omega) hnodup
          · rw [if_neg (by simp [hskip, hzero]), List.reverse_cons, List.append_assoc,
              List.singleton_append] at hnodup
            have hfresh := (List.nodup_cons.mp (List.nodup_append.mp hnodup).2.1).1
            have hpage : 0 < pageSize := by decide
            have hpushed := h.freeFrameFast ⟨hmod, Nat.pos_of_ne_zero hzero, by omega, hfresh⟩
            rw [if_neg (by decide)]
            refine ih hpushed hmod' (by omega) ?_
            simpa [Pmm.freeFrameFast, Phys.freeFrameFast, hzero] using hnodup

/-- The end of a region is a word. -/
theorem stop_lt (e : MmapEntry) : e.stop < 2 ^ 32 := by
  unfold MmapEntry.stop pageDown MmapEntry.end32 pageSize
  omega

/-- The start of a region is a word. -/
theorem start_lt (e : MmapEntry) : e.start < 2 ^ 32 := by
  unfold MmapEntry.start pageUp pageSize
  omega

/-- The scan of the memory map threads all it adds. -/
theorem scan_threaded (kernelEnd : Nat) (ms : List ModuleRange) (mmap : List MmapEntry)
    (acc : Pmm × Nat) (h : acc.1.Threaded)
    (hnodup : ((mmap.flatMap (entryFrames kernelEnd ms)).reverse ++ acc.1.phys.free).Nodup) :
    (mmap.foldl (Pmm.addEntry kernelEnd ms) acc).1.Threaded := by
  induction mmap generalizing acc with
  | nil => exact h
  | cons e mmap ih =>
      rw [List.flatMap_cons, List.reverse_append, List.append_assoc] at hnodup
      have hentry : (Pmm.addEntry kernelEnd ms acc e).1.phys.free =
          (entryFrames kernelEnd ms e).reverse ++ acc.1.phys.free :=
        scan_free [e] acc |>.trans (by simp)
      refine ih _ ?_ (hentry ▸ hnodup)
      unfold Pmm.addEntry
      unfold entryFrames at hnodup
      split
      · next htype =>
          rw [if_pos htype] at hnodup
          refine h.addFrames (start_mod e) ?_ (List.nodup_append.mp hnodup).2.1
          have hstart := start_lt e
          have hstop := stop_lt e
          unfold pageSize
          omega
      · exact h

/-- **After `Pmm::init`** on a map of which no frame is read twice. -/
theorem init_threaded (mem : Nat → BitVec 8) (honce : (scanned kernelEnd mbi).Nodup) :
    ((Pmm.zero mem).addListedPages kernelEnd mbi.ranges mbi.mmap).Threaded := by
  have hzero : (Pmm.zero mem).Threaded := ⟨rfl, by simp [Pmm.zero], rfl⟩
  have hscan := scan_threaded kernelEnd mbi.ranges mbi.mmap (Pmm.zero mem, 0) hzero (by
    rw [show (Pmm.zero mem).phys.free = [] from rfl, List.append_nil]
    exact List.nodup_reverse.mpr honce)
  exact hscan.same rfl rfl rfl

/-- The books are kept, the list in memory is the right one, and frames that were handed
out are whole pages. -/
structure Paged (u : Usage) : Prop where
  kept : Kept u
  threaded : u.pmm.Threaded
  handed : ∀ a ∈ u.handed, a % pageSize = 0

/-- A frame in use may be linked again. -/
theorem Paged.takes (h : Paged u) (ha : a ∈ u.used) : u.pmm.Takes a := by
  obtain ⟨hhanded, hfresh⟩ := mem_used.mp ha
  obtain ⟨hpos, hlt⟩ := h.kept.handedFrames a hhanded
  exact ⟨h.handed a hhanded, hpos, hlt, hfresh⟩

/-- What is handed out was free. -/
theorem allocFrame_mem (h : p.allocFrame = (some a, q)) : a ∈ p.phys.free := by
  unfold Pmm.allocFrame at h
  split at h
  · simp at h
  · next halloc =>
      simp only [Prod.mk.injEq, Option.some.injEq] at h
      rw [(allocFrame_some halloc).1, h.1]
      exact List.mem_cons_self

/-- **One operation** keeps used and free frames apart and threaded. -/
theorem Paged.step {op : FrameOp} (h : Paged u) (hop : OnUsed u op) (hstep : u.step op = .ok u') :
    Paged u' := by
  have hkept := h.kept.step hop hstep
  cases op with
  | alloc =>
      have hthreaded := h.threaded.allocFrame
      rw [Usage.step] at hstep
      rcases halloc : u.pmm.allocFrame with ⟨a | a, pmm⟩
      · rw [halloc] at hstep hthreaded
        obtain rfl := Except.ok.inj hstep
        exact ⟨hkept, hthreaded, h.handed⟩
      · rw [halloc] at hstep hthreaded
        obtain rfl := Except.ok.inj hstep
        refine ⟨hkept, hthreaded, fun b hb => ?_⟩
        rcases List.mem_insert_iff.mp hb with rfl | hb
        · exact (h.threaded.frames b (allocFrame_mem halloc)).1
        · exact h.handed b hb
  | free a =>
      have hthreaded := h.threaded.freeFrame fun hone => h.takes (hop.2 hone)
      rw [Usage.step] at hstep
      split at hstep
      · simp at hstep
      · obtain rfl := Except.ok.inj hstep
        exact ⟨hkept, hthreaded, h.handed⟩
  | addRef a =>
      obtain rfl := Except.ok.inj hstep
      exact ⟨hkept, h.threaded.addRef a, h.handed⟩
  | drop a =>
      have hthreaded := h.threaded.dropRef fun hone => h.takes (hop.2 hone)
      rw [Usage.step] at hstep
      split at hstep
      · simp at hstep
      · obtain rfl := Except.ok.inj hstep
        exact ⟨hkept, hthreaded, h.handed⟩

end Doors.Memory
