import Mathlib.Data.List.Perm.Subperm
import Doors.Lib.Linked
import Doors.Memory.Boot

/-!
# Doors.Memory.FreeList

The free list as it stands in memory (`kernel/Pmm.cc`): `freeList_` points to a free
frame, and the first word of a free frame to the next one.  `Raw` has the pointers and
the bytes where `Phys` has a list.

`removeFramesAbove`, `reserveRegion` and `reserveFrame` walk along the pointers and write
through `prev`, a pointer to the pointer by which they came.

* `sweep_removes`, `take_found` — the walks take out what they are to take out and keep
  the order of the rest;
* `filters_iff` — all three do what they are for, but for `reserveRegion` with a start in
  the last page of the address space, which is rounded up to 0.
-/

namespace Doors.Memory

open Chain

/-! ## the model -/

/-- Where a pointer to a frame is kept: in `freeList_` or in a free frame. -/
inductive Slot where
  | freeList
  | next (frame : Nat)

/-- The memory and what the walks use of the statics. -/
structure Raw where
  mem : Nat → BitVec 8
  freeList : Nat
  freeCount : Nat
  refs : Nat → Nat
  maxFrameIdx : Nat

namespace Raw

variable (s : Raw)

/-- `frame->next`. -/
def next (frame : Nat) : Nat := word s.mem frame

/-- `*prev = v`. -/
def store (prev : Slot) (v : Nat) : Raw :=
  match prev with
  | .freeList => { s with freeList := v }
  | .next frame => { s with mem := setWord s.mem frame v }

/-- `*prev = curr->next; --freeCount_;` -/
def unlink (prev : Slot) (curr : Nat) : Raw :=
  { s.store prev (s.next curr) with freeCount := (s.freeCount + 2 ^ 32 - 1) % 2 ^ 32 }

/-- `if (auto *e = refCountEntry(a)) *e = 1;` -/
def countOne (a : Nat) : Raw :=
  if a / pageSize < s.maxFrameIdx then { s with refs := Function.update s.refs (a / pageSize) 1 }
    else s

end Raw

/-- The loop of `removeFramesAbove` and of `reserveRegion`, which unlinks every frame
that is `gone`.  `none` when the fuel does not suffice. -/
def sweep (gone : Nat → Bool) : Nat → Slot → Nat → Raw → Option Raw
  | 0, _, _, _ => none
  | k + 1, prev, curr, s =>
      if curr = 0 then some s
      else if gone curr then
        let s := s.unlink prev curr
        sweep gone k prev (s.next curr) s
      else sweep gone k (.next curr) (s.next curr) s

/-- The loop of `reserveFrame`. -/
def take (physAddr : Nat) : Nat → Slot → Nat → Raw → Option Raw
  | 0, _, _, _ => none
  | k + 1, prev, curr, s =>
      if curr = 0 then some s
      else if curr = physAddr then some ((s.unlink prev curr).countOne physAddr)
      else take physAddr k (.next curr) (s.next curr) s

namespace Raw

variable (s : Raw) (fuel : Nat)

/-- `Pmm::removeFramesAbove`. -/
def removeFramesAbove (boundary : Nat) : Option Raw :=
  sweep (fun a => boundary ≤ a) fuel .freeList s.freeList s

/-- `Pmm::reserveRegion`. -/
def reserveRegion (start stop : Nat) : Option Raw :=
  let lo := pageUp start
  let hi := pageDown stop
  sweep (fun a => lo ≤ a && a < hi) fuel .freeList s.freeList s

/-- `Pmm::reserveFrame`. -/
def reserveFrame (physAddr : Nat) : Option Raw :=
  if physAddr = 0 then some s else take physAddr fuel .freeList s.freeList s

end Raw

/-! ## the list in memory -/

/-- **The free list** in memory is `l`: frames, linked in this order and counted.  As the
links come to an end, no frame is in it twice. -/
structure FreeList (s : Raw) (l : List Nat) : Prop where
  linked : Linked s.next s.freeList l
  frames : ∀ a ∈ l, a % pageSize = 0 ∧ a < 2 ^ 32
  count : s.freeCount = l.length

/-- The slot that the walks write to when the frames `pre` stay. -/
def slot (pre : List Nat) : Slot :=
  match pre.getLast? with
  | none => .freeList
  | some a => .next a

variable {s s' : Raw} {l pre rest : List Nat} {a c k x start : Nat} {gone : Nat → Bool}

/-- There are no more free frames than pages. -/
theorem FreeList.length_le (h : FreeList s l) : l.length ≤ maxFrames := by
  have hnodup : (l.map (· / pageSize)).Nodup := by
    refine List.Nodup.map_on (fun a ha b hb hab => ?_) h.linked.nodup
    have hmod := (h.frames a ha).1
    have hmod' := (h.frames b hb).1
    unfold pageSize at *
    omega
  have hsub : l.map (· / pageSize) ⊆ List.range maxFrames := by
    intro n hn
    obtain ⟨a, ha, rfl⟩ := List.mem_map.mp hn
    have hlt := (h.frames a ha).2
    rw [List.mem_range]
    unfold pageSize maxFrames
    omega
  simpa using (List.subperm_of_subset hnodup hsub).length_le

/-- A link does not change when another frame's is written. -/
theorem next_setWord {v : Nat} (ha : a % pageSize = 0) (hc : c % pageSize = 0) (hne : a ≠ c)
    (mem : Nat → BitVec 8) :
    word (setWord mem c v) a = word mem a := by
  refine word_congr fun x hlo hhi => setWord_of_ne mem ?_
  unfold pageSize at *
  omega

theorem slot_append (pre : List Nat) (a : Nat) : slot (pre ++ [a]) = .next a := by
  rw [slot, List.getLast?_concat]

/-- **Unlinking**: the frame behind `pre` leaves the list. -/
theorem FreeList.unlink (h : FreeList s (pre ++ c :: rest)) :
    FreeList (s.unlink (slot pre) c) (pre ++ rest) := by
  have hlen := h.length_le
  have hnodup := h.linked.nodup
  have hsub : (pre ++ rest).Sublist (pre ++ c :: rest) :=
    (List.sublist_cons_self c rest).append_left pre
  have hrest : Linked s.next (s.next c) rest := h.linked.drop
  have hcount : (s.freeCount + 2 ^ 32 - 1) % 2 ^ 32 = (pre ++ rest).length := by
    rw [h.count]
    simp only [List.length_append, List.length_cons, maxFrames] at hlen ⊢
    omega
  refine ⟨?_, fun a ha => h.frames a (hsub.subset ha), hcount⟩
  rcases List.eq_nil_or_concat pre with rfl | ⟨init, b, rfl⟩
  · exact hrest
  · rw [List.concat_eq_append] at *
    have hother : ∀ a ∈ init ++ rest, (s.unlink (slot (init ++ [b])) c).next a = s.next a := by
      intro a ha
      have hne : a ≠ b := by grind
      rw [slot_append]
      exact next_setWord (h.frames a (by grind)).1 (h.frames b (by simp)).1 hne s.mem
    have hlast : (s.unlink (slot (init ++ [b])) c).next b = s.next c := by
      rw [slot_append]
      exact word_setWord s.mem (word_lt s.mem c)
    have hnew := hrest.congr fun a ha => hother a (List.mem_append_right init ha)
    have hspliced :=
      h.linked.splice hnew (fun a ha => hother a (List.mem_append_left rest (by simpa using ha)))
      fun a ha => by
        simp only [List.getLast?_concat, Option.some.injEq] at ha; rw [← ha]; exact hlast
    rw [if_neg (by simp)] at hspliced
    rwa [slot_append] at hspliced ⊢

/-- The frame that was unlinked still has its own link, with which the walk goes on. -/
theorem FreeList.unlink_next (h : FreeList s (pre ++ c :: rest)) :
    (s.unlink (slot pre) c).next c = rest.headD 0 := by
  have hnext : s.next c = rest.headD 0 := h.linked.drop.head
  rw [← hnext]
  rcases List.eq_nil_or_concat pre with rfl | ⟨init, b, rfl⟩
  · rfl
  · have hnodup := h.linked.nodup
    rw [List.concat_eq_append] at *
    rw [slot_append]
    exact next_setWord (h.frames c (by simp)).1 (h.frames b (by simp)).1 (by grind) s.mem

/-- What unlinking writes, beside the count: at most the link of the last frame that stays. -/
theorem unlink_mem (h : ∀ a ∈ pre, x < a ∨ a + 4 ≤ x) :
    (s.unlink (slot pre) c).mem x = s.mem x := by
  unfold slot
  split
  · rfl
  · next a ha => exact setWord_of_ne s.mem (h a (List.mem_of_getLast? ha))

/-! ## the walks -/

/-- **Filtering**: the frames that are not `gone` are left, in order, linked and counted,
and outside their links no byte changes. -/
structure Removes (gone : Nat → Bool) (s : Raw) (l : List Nat) (s' : Raw) : Prop where
  list : FreeList s' (l.filter fun a => !gone a)
  kept : ∀ x, (∀ a ∈ l, gone a = false → x < a ∨ a + 4 ≤ x) → s'.mem x = s.mem x

/-- The sweep from the frame behind `pre` on. -/
theorem sweep_from (h : FreeList s (pre ++ rest)) (hpre : ∀ a ∈ pre, gone a = false) :
    ∃ s', (∀ k, rest.length < k → sweep gone k (slot pre) (rest.headD 0) s = some s') ∧
      Removes gone s (pre ++ rest) s' := by
  induction rest generalizing s pre with
  | nil =>
      refine ⟨s, fun k hk => ?_, ?_, fun _ _ => rfl⟩
      · obtain ⟨k, rfl⟩ := Nat.exists_eq_add_of_lt hk
        rfl
      · rwa [List.filter_eq_self.mpr (by simpa using hpre)]
  | cons c rest ih =>
      have hne : c ≠ 0 := h.linked.ne_zero c (by simp)
      by_cases hgone : gone c = true
      · obtain ⟨s', hrun, hrem⟩ := ih h.unlink hpre
        have hfilter : (pre ++ c :: rest).filter (fun a => !gone a) = (pre ++ rest).filter fun a =>
            !gone a := by
          simp [List.filter_append, hgone]
        refine ⟨s', fun k hk => ?_, hfilter ▸ hrem.list, fun x hx => ?_⟩
        · obtain ⟨k, rfl⟩ := Nat.exists_eq_add_of_lt hk
          rw [List.headD_cons, sweep, if_neg hne, if_pos hgone]
          dsimp only
          rw [h.unlink_next]
          exact hrun _ (by simp only [List.length_cons]; omega)
        · rw [hrem.kept x fun a ha => hx a (by grind),
            unlink_mem fun a ha => hx a (by simp [ha]) (hpre a ha)]
      · have hnext : s.next c = rest.headD 0 := h.linked.drop.head
        rw [show pre ++ c :: rest = pre ++ [c] ++ rest by simp] at h ⊢
        obtain ⟨s', hrun, hrem⟩ := ih h (by grind)
        refine ⟨s', fun k hk => ?_, hrem⟩
        obtain ⟨k, rfl⟩ := Nat.exists_eq_add_of_lt hk
        rw [List.headD_cons, sweep, if_neg hne, if_neg hgone, hnext, ← slot_append pre]
        exact hrun _ (by simp only [List.length_cons]; omega)

/-- **The sweep** of the whole list. -/
theorem sweep_removes (h : FreeList s l) (gone : Nat → Bool) :
    ∃ s', (∀ k, l.length < k → sweep gone k .freeList s.freeList s = some s') ∧
      Removes gone s l s' := by
  rw [h.linked.head]
  exact sweep_from (show FreeList s ([] ++ l) from h) (by simp)

/-- The loop of `reserveFrame` passes over the frames before `a`. -/
theorem take_from (h : FreeList s (pre ++ rest)) (ha : a ∉ pre) :
    ∀ k, rest.length < k → take a k (slot pre) (rest.headD 0) s =
      some (if a ∈ rest then ((s.unlink (slot (pre ++ rest.takeWhile (· ≠ a))) a).countOne a)
        else s) := by
  induction rest generalizing pre with
  | nil =>
      intro k hk
      obtain ⟨k, rfl⟩ := Nat.exists_eq_add_of_lt hk
      rfl
  | cons c rest ih =>
      intro k hk
      obtain ⟨k, rfl⟩ := Nat.exists_eq_add_of_lt hk
      have hne : c ≠ 0 := h.linked.ne_zero c (by simp)
      have hnext : s.next c = rest.headD 0 := h.linked.drop.head
      rw [List.headD_cons, take, if_neg hne]
      by_cases hc : c = a
      · rw [if_pos hc, if_pos (by simp [hc]), List.takeWhile_cons, if_neg (by simpa using hc),
          List.append_nil, hc]
      · rw [show pre ++ c :: rest = pre ++ [c] ++ rest by simp] at h
        rw [if_neg hc, hnext, ← slot_append pre,
          ih h (by grind) _ (by simp only [List.length_cons]; omega)]
        simp [Ne.symm hc, hc]

/-- What a successful `reserveFrame` leaves of the state. -/
def reserved (s : Raw) (l : List Nat) (a : Nat) : Raw :=
  if a ∈ l then (s.unlink (slot (l.takeWhile (· ≠ a))) a).countOne a else s

theorem FreeList.countOne (h : FreeList s l) (a : Nat) : FreeList (s.countOne a) l := by
  unfold Raw.countOne
  split
  · exact ⟨h.linked, h.frames, h.count⟩
  · exact h

theorem countOne_mem (s : Raw) (a : Nat) : (s.countOne a).mem = s.mem := by
  unfold Raw.countOne
  split
  · rfl
  · rfl

/-- **`reserveFrame`** takes out the frame, if it is free. -/
theorem reserved_removes (h : FreeList s l) (a : Nat) :
    Removes (fun b => b = a) s l (reserved s l a) := by
  unfold reserved
  split
  · next hmem =>
      obtain ⟨pre, post, rfl, hpre⟩ := List.eq_append_cons_of_mem hmem
      have hnodup := h.linked.nodup
      have hfilter : (pre ++ a :: post).filter (fun b => !decide (b = a)) = pre ++ post := by
        rw [List.filter_append, List.filter_cons_of_neg (by simp),
          List.filter_eq_self.mpr (by grind), List.filter_eq_self.mpr (by grind)]
      have htake : (pre ++ a :: post).takeWhile (· ≠ a) = pre := by
        rw [List.takeWhile_append_of_pos (by grind)]
        simp
      rw [htake]
      refine ⟨hfilter ▸ h.unlink.countOne a, fun x hx => ?_⟩
      rw [countOne_mem]
      exact unlink_mem fun b hb => hx b (by simp [hb]) (by grind)
  · next hmem =>
      refine ⟨?_, fun _ _ => rfl⟩
      rwa [List.filter_eq_self.mpr (by grind)]

theorem reserveFrame_eq (h : FreeList s l) (a : Nat) (hk : l.length < k) :
    s.reserveFrame k a = some (reserved s l a) := by
  unfold Raw.reserveFrame reserved
  split
  · next hzero => rw [if_neg fun hmem => h.linked.ne_zero a hmem hzero]
  · rw [h.linked.head]
    exact take_from (show FreeList s ([] ++ l) from h) (by simp) k hk

/-! ## what the operations are for -/

/-- The operations that walk along the list. -/
inductive Surgery where
  | removeFramesAbove (boundary : BitVec 32)
  | reserveRegion (start stop : BitVec 32)
  | reserveFrame (physAddr : BitVec 32)

namespace Surgery

def run (k : Nat) (s : Raw) : Surgery → Option Raw
  | removeFramesAbove boundary => s.removeFramesAbove k boundary.toNat
  | reserveRegion start stop => s.reserveRegion k start.toNat stop.toNat
  | reserveFrame physAddr => s.reserveFrame k physAddr.toNat

/-- The frames an operation is to take out: those from the boundary on, those of the
region, with its start rounded up to a page and its end rounded down, or the one frame. -/
def names : Surgery → Nat → Bool
  | removeFramesAbove boundary, a => boundary.toNat ≤ a
  | reserveRegion start stop, a => (start.toNat + (pageSize - 1)) / pageSize * pageSize ≤ a &&
      a < pageDown stop.toNat
  | reserveFrame physAddr, a => a = physAddr.toNat

/-- **The operation is filtering**: it comes to an end and leaves the frames that it is
not to take out. -/
def Filters (op : Surgery) (s : Raw) (l : List Nat) : Prop :=
  ∃ s', (∀ k, l.length < k → op.run k s = some s') ∧ Removes op.names s l s'

/-- The start of the region is not in the last page, or no free frame is below its end. -/
def Exact (l : List Nat) : Surgery → Prop
  | reserveRegion start stop => start.toNat ≤ 0xFFFFF000 ∨ ∀ a ∈ l, pageDown stop.toNat ≤ a
  | _ => True

end Surgery

theorem Removes.congr {gone' : Nat → Bool} (h : Removes gone s l s')
    (heq : ∀ a ∈ l, gone a = gone' a) : Removes gone' s l s' where
  list := by
    have hfilter : l.filter (fun a => !gone' a) = l.filter fun a => !gone a :=
      List.filter_congr fun a ha => by rw [heq a ha]
    exact hfilter ▸ h.list
  kept := fun x hx => h.kept x fun a ha hg => hx a ha (heq a ha ▸ hg)

/-- The walks leave one list only. -/
theorem Removes.unique {gone' : Nat → Bool} (h : Removes gone s l s') (h' : Removes gone' s l s')
    (ha : a ∈ l) : gone a = gone' a := by
  have heq := h.list.linked.unique h'.list.linked
  have hmem : a ∈ l.filter (fun a => !gone a) ↔ a ∈ l.filter fun a => !gone' a := by rw [heq]
  simp only [List.mem_filter, ha, true_and] at hmem
  cases hg : gone a <;> cases hg' : gone' a <;> simp_all

/-- The code's start of the region is the right one but for the last page. -/
theorem pageUp_eq (h : start ≤ 0xFFFFF000) : pageUp start =
    (start + (pageSize - 1)) / pageSize * pageSize := by
  unfold pageUp pageSize
  omega

theorem pageUp_wraps (h : 0xFFFFF000 < start) (hlt : start < 2 ^ 32) : pageUp start = 0 := by
  unfold pageUp pageSize
  omega

/-- The region that `reserveRegion` takes out is the one it is for exactly when the start
is not rounded up to 0, or when that takes no frame. -/
theorem region_iff (h : FreeList s l) (start stop : BitVec 32) :
    (∀ a ∈ l, (decide (pageUp start.toNat ≤ a) && decide (a < pageDown stop.toNat)) =
      (Surgery.reserveRegion start stop).names a) ↔
      (Surgery.reserveRegion start stop).Exact l := by
  have hlt := start.isLt
  rcases Nat.lt_or_ge 0xFFFFF000 start.toNat with hlast | hle
  · have hceil : 2 ^ 32 ≤ (start.toNat + (pageSize - 1)) / pageSize * pageSize := by
      unfold pageSize
      omega
    rw [pageUp_wraps hlast hlt]
    constructor
    · refine fun heq => .inr fun a ha => ?_
      have hframe := (h.frames a ha).2
      have hnot : ¬ (start.toNat + (pageSize - 1)) / pageSize * pageSize ≤ a := by omega
      have hgone := heq a ha
      simp only [Surgery.names, hnot] at hgone
      simpa using hgone
    · rintro (hle | hbelow) a ha
      · omega
      · simp [Surgery.names, Nat.not_lt.mpr (hbelow a ha)]
  · rw [pageUp_eq hle]
    exact ⟨fun _ => .inl hle, fun _ _ _ => rfl⟩

/-- **Free-list surgery is filtering**, in every list and for every operation, but for a
region whose start is rounded up to 0. -/
theorem filters_iff (h : FreeList s l) (op : Surgery) : op.Filters s l ↔ op.Exact l := by
  cases op with
  | removeFramesAbove boundary => exact ⟨fun _ => trivial, fun _ => sweep_removes h _⟩
  | reserveFrame physAddr =>
      exact ⟨fun _ => trivial,
        fun _ => ⟨_, fun k hk => reserveFrame_eq h _ hk, reserved_removes h _⟩⟩
  | reserveRegion start stop =>
      obtain ⟨s', hrun, hrem⟩ := sweep_removes h fun a =>
        pageUp start.toNat ≤ a && a < pageDown stop.toNat
      rw [← region_iff h]
      constructor
      · rintro ⟨s₁, hrun₁, hrem₁⟩ a ha
        have hsame : some s' = some s₁ :=
          (hrun _ (Nat.lt_succ_self _)).symm.trans (hrun₁ _ (Nat.lt_succ_self _))
        obtain rfl := Option.some.inj hsame
        exact hrem.unique hrem₁ ha
      · exact fun heq => ⟨s', hrun, hrem.congr heq⟩

/-- One free frame. -/
def oneFree : Raw :=
  { mem := fun _ => 0, freeList := 0x1000, freeCount := 1, refs := fun _ => 0, maxFrameIdx := 2 }

theorem oneFree_list : FreeList oneFree [0x1000] :=
  ⟨⟨rfl, by decide, rfl⟩, by decide, rfl⟩

/-- Five free frames, which are not linked in the order of their addresses. -/
def fiveFree : Raw where
  mem :=
    setWord (setWord (setWord (setWord (fun _ => 0) 0x5000 0x3000) 0x3000 0x2000) 0x2000 0x1000)
    0x1000 0x4000
  freeList := 0x5000
  freeCount := 5
  refs _ := 0
  maxFrameIdx := 6

theorem fiveFree_list : FreeList fiveFree [0x5000, 0x3000, 0x2000, 0x1000, 0x4000] :=
  ⟨⟨rfl, by decide, by decide, by decide, by decide, by decide, by decide, by decide, by decide,
      by decide, rfl⟩,
    by decide, rfl⟩

/-- The head goes, two frames behind one another, and the last one. -/
theorem filters_iff_fiveFree :
    (Surgery.removeFramesAbove 0x5000).Filters fiveFree [0x5000, 0x3000, 0x2000, 0x1000, 0x4000] ∧
      (Surgery.reserveRegion 0x1800 0x4000).Filters fiveFree
        [0x5000, 0x3000, 0x2000, 0x1000, 0x4000] ∧
        (Surgery.reserveFrame 0x4000).Filters fiveFree [0x5000, 0x3000, 0x2000, 0x1000, 0x4000] :=
  ⟨(filters_iff fiveFree_list _).mpr trivial, (filters_iff fiveFree_list _).mpr (.inl (by decide)),
    (filters_iff fiveFree_list _).mpr trivial⟩

/-- A region in the last page has no page, and takes out every frame. -/
theorem region_wraps : ¬ ∀ (s : Raw) (l : List Nat) (op : Surgery), FreeList s l →
    op.Filters s l := by
  intro hall
  obtain ⟨s', hrun, hrem⟩ :=
    hall oneFree [0x1000] (.reserveRegion 0xFFFFF001 0xFFFFFFFF) oneFree_list
  have hleft : ((Surgery.reserveRegion 0xFFFFF001 0xFFFFFFFF).run 2 oneFree).map Raw.freeList =
    some 0 := by decide
  rw [hrun 2 (by decide)] at hleft
  have hempty : s'.freeList = 0 := Option.some.inj hleft
  have hstays : s'.freeList = 0x1000 := hrem.list.linked.1
  omega

end Doors.Memory
