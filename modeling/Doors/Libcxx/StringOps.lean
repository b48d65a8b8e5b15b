import Doors.Libcxx.StringContents

/-!
# Doors.Libcxx.StringOps

One specification for each constructor, assignment and mutator of the string
class, in terms of `Done`: where the result is, what became of the old block,
and how long the string is now.
-/

namespace Doors.Libcxx

open Run

namespace Str

variable {E : Env} {h h' : Heap} {i j n off b pos count : Nat} {s s' t : Str} {bs : List (BitVec 8)}
  {blk : Block}

/-! ## constructors -/

/-- The empty string. -/
theorem ctor_safe (h : Heap) : Safe (ctor E i h) (Done i ∅ h 0) :=
  Post.mono (ctor_has h) fun _ hr => hr.done (by decide)

/-- `string(const char *)`: a null pointer counts as the empty text. -/
theorem ctorCstr_safe {cs : Option (List (BitVec 8))} (hw : h.WF)
    (hmax : (text cs).length < maxSize) :
    Safe (ctorCstr E i h cs) (Done i ∅ h (text cs).length) := by
  have hmax' : maxSize + 1 ≤ 2 ^ 32 := by decide
  cases cs with
  | none => exact Post.throw rfl
  | some cs => exact Post.mono (ctorCstr_has hw (by omega)).safe fun r hr => hr.done hmax

/-- `string(const char *, size_type)`. -/
theorem ctorBuf_safe {bs : Option (List (BitVec 8))} (hw : h.WF)
    (hmax : (bs.getD []).length < maxSize) :
    Safe (ctorBuf E i h bs) (Done i ∅ h (bs.getD []).length) := by
  have hmax' : maxSize + 1 ≤ 2 ^ 32 := by decide
  cases bs with
  | none => exact Post.throw rfl
  | some bs =>
      have hlen : bs.length + 1 < 2 ^ 32 := Nat.lt_of_le_of_lt hmax (by decide)
      exact Post.mono (ctorBuf_has hw hlen).safe fun r hr => hr.done hmax

/-- `string(size_type, char)`. -/
theorem ctorFill_safe (hw : h.WF) (hmax : n < maxSize) (ch : BitVec 8) :
    Safe (ctorFill E i h n ch) (Done i ∅ h n) := by
  have hmax' : maxSize + 1 ≤ 2 ^ 32 := by decide
  have hlen : (List.replicate n ch).length = n := List.length_replicate
  exact Post.mono (ctorFill_has hw (by omega) ch).safe fun r hr => hlen ▸ hr.done (by omega)

/-- The copy of a string is a string of its own. -/
theorem copyCtor_safe (hw : h.WF) (ht : t.Good j h) :
    Safe (copyCtor E i h j t) (Done i ∅ h t.size) := by
  obtain ⟨m, hm, hmax⟩ := ht.has
  exact Post.mono (copyCtor_has hm hw).safe fun r hr => hm.size ▸ hr.done hmax

/-! ## moves -/

/-- The representation moves as it is, and the source becomes empty. -/
theorem moveFrom_safe (ht : t.Good j h) :
    Safe (s.moveFrom i h j t) fun r => r.1.Good i h ∧ own r.1 = own t ∧ r.1.size = t.size ∧
      r.2.Good j h ∧ own r.2 = ∅ := by
  obtain ⟨m, hm, hmax⟩ := ht.has
  refine Post.mono (moveFrom_has hm) fun r hr => ?_
  exact ⟨hr.has.good hmax, hr.owned, hr.has.size.trans hm.size.symm,
    hr.empty.good (by decide), hr.free⟩

/-! ## assignments -/

/-- The copied string may be any but the target. -/
theorem copyAssign_safe (hw : h.WF) (hg : s.Good i h) (ht : t.Good j h)
    (hdisj : ∀ b ∈ own t, b ∉ own s) :
    Safe (s.copyAssign E i h j t) (Done i (own s) h t.size) := by
  obtain ⟨l, hl, -⟩ := hg.has
  obtain ⟨m, hm, hmax⟩ := ht.has
  exact Post.mono (copyAssign_has hl hm hw hdisj).safe fun r hr => hm.size ▸ hr.done hmax

/-- `operator=(const char *)`. -/
theorem assignCstr_safe {cs : Option (List (BitVec 8))} (hw : h.WF) (hg : s.Good i h)
    (hmax : (text cs).length < maxSize) :
    Safe (s.assignCstr E i h cs) (Done i (own s) h (text cs).length) := by
  have hmax' : maxSize + 1 ≤ 2 ^ 32 := by decide
  obtain ⟨l, hl, -⟩ := hg.has
  cases cs with
  | none => exact Post.throw rfl
  | some cs => exact Post.mono (assignCstr_has hl hw cs (by omega)).safe fun r hr => hr.done hmax

/-! ## mutators -/

/-- `reserve` keeps the contents, and so the size. -/
theorem reserve_safe (hw : h.WF) (hg : s.Good i h) (hn : n < 2 ^ 32) :
    Safe (s.reserve E i h n) (Done i (own s) h s.size) := by
  unfold reserve
  split
  · exact Post.pure ⟨hg, Shift.refl _ _, rfl⟩
  · next hgrow =>
      by_cases hlast : n = npos
      · rw [hlast, grow_halts]
        exact Post.throw rfl
      · obtain ⟨l, hl, hmax⟩ := hg.has
        have hlt : n + 1 < 2 ^ 32 := by
          unfold npos at hlast
          omega
        exact Post.mono (grow_has hl hw (by omega) hlt).safe fun r hr => hl.size ▸ hr.1.done hmax

/-- `shrink_to_fit` keeps the size, whether it moves the text back into the object or not. -/
theorem shrinkToFit_safe (hw : h.WF) (hg : s.Good i h) :
    Safe (s.shrinkToFit E i h) (Done i (own s) h s.size) := by
  obtain ⟨l, hl, hmax⟩ := hg.has
  exact Post.mono (shrinkToFit_has hl hw).safe fun r hr => hl.size ▸ hr.done hmax

/-- `clear` keeps the buffer. -/
theorem clear_safe (hg : s.Good i h) : Safe (s.clear i h) (Done i (own s) h 0) := by
  obtain ⟨l, hl, -⟩ := hg.has
  exact Post.mono (clear_has hl) fun r hr => hr.done (by decide)

/-- `pop_back`; the empty string stays empty. -/
theorem popBack_safe (hg : s.Good i h) : Safe (s.popBack i h) (Done i (own s) h (s.size - 1)) := by
  obtain ⟨l, hl, hmax⟩ := hg.has
  have hsize := hl.size
  have hlen : l.dropLast.length = s.size - 1 := by rw [List.length_dropLast, hsize]
  exact Post.mono (popBack_has hl) fun r hr => hlen ▸ hr.done (by omega)

/-- `insert` of another string, wherever it begins. -/
theorem insertStr_safe (hw : h.WF) (hg : s.Good i h) (ht : t.Good j h)
    (hdisj : ∀ b ∈ own t, b ∉ own s)
    (hmax : s.size + t.size < maxSize) :
    Safe (s.insertStr E i h pos j t) (Done i (own s) h (s.size + t.size)) := by
  have hmax' : maxSize + 1 ≤ 2 ^ 32 := by decide
  obtain ⟨l, hl, -⟩ := hg.has
  obtain ⟨m, hm, -⟩ := ht.has
  have hlen : (spliced l pos 0 m).length = s.size + t.size := by
    rw [length_spliced, hl.size, hm.size]
    omega
  have hfits : l.length + m.length + 1 < 2 ^ 32 := by
    rw [← hl.size, ← hm.size]
    omega
  exact Post.mono (insertStr_has hl hm hw hdisj hfits pos).safe fun r hr =>
    hlen ▸ hr.done (by omega)

/-- `insert` of a repeated character. -/
theorem insertFill_safe (hw : h.WF) (hg : s.Good i h) (hmax : s.size + n < maxSize) (pos : Nat)
    (ch : BitVec 8) :
    Safe (s.insertFill E i h pos n ch) (Done i (own s) h (s.size + n)) := by
  have hmax' : maxSize + 1 ≤ 2 ^ 32 := by decide
  obtain ⟨l, hl, -⟩ := hg.has
  have hlen : (spliced l pos 0 (List.replicate n ch)).length = s.size + n := by
    rw [length_spliced, hl.size, List.length_replicate]
    omega
  have hfits : l.length + n + 1 < 2 ^ 32 := by
    rw [← hl.size]
    omega
  exact Post.mono (insertFill_has hl hw hfits pos ch).safe fun r hr => hlen ▸ hr.done (by omega)

/-- `replace`: a count that wraps with the position is excluded, `npos` is not. -/
theorem replaceBuf_safe {bs : Option (List (BitVec 8))} (hw : h.WF) (hg : s.Good i h)
    (hcount : count = npos ∨ pos + count < 2 ^ 32)
    (hmax : s.size - s.cut (min pos s.size) count + (bs.getD []).length < maxSize) :
    Safe (s.replaceBuf E i h pos count bs)
      (Done i (own s) h (s.size - s.cut (min pos s.size) count + (bs.getD []).length)) := by
  have hmax' : maxSize + 1 ≤ 2 ^ 32 := by decide
  cases bs with
  | none => exact Post.throw rfl
  | some bs =>
      obtain ⟨l, hl, -⟩ := hg.has
      have hcount' : ¬ Wraps l (min pos l.length) count :=
        not_wraps (hcount.imp_right fun h => by omega)
      have hlen : (spliced l pos count bs).length =
          s.size - s.cut (min pos s.size) count + bs.length := by
        rw [hl.size, hl.cut (Nat.min_le_right _ _) hcount', length_spliced]
        omega
      simp only [Option.getD_some] at hmax ⊢
      have hfits : (spliced l pos count bs).length + 1 < 2 ^ 32 := by omega
      exact Post.mono (replaceBuf_has hl hw hcount' hfits).safe fun r hr =>
        hlen ▸ hr.done (by omega)

/-- The length of a string after `erase`. -/
def erased (s : Str) (pos count : Nat) : Nat :=
  if pos > s.size then s.size else s.size - s.cut pos count

/-- `erase` moves the tail down in place. -/
theorem erase_safe (hg : s.Good i h) (hcount : count = npos ∨ pos + count < 2 ^ 32) :
    Safe (s.erase i h pos count) (Done i (own s) h (s.erased pos count)) := by
  obtain ⟨l, hl, hmax⟩ := hg.has
  have hlen : (spliced l pos count []).length = s.erased pos count := by
    unfold erased
    rw [length_spliced, List.length_nil, hl.size]
    split
    · omega
    · next hpos =>
        rw [hl.cut (Nat.le_of_not_lt hpos) (not_wraps hcount)]
        omega
  have hshort : (spliced l pos count []).length ≤ l.length := by
    rw [length_spliced, List.length_nil]
    omega
  exact Post.mono (erase_has hl (not_wraps hcount)) fun r hr => hlen ▸ hr.done (by omega)

/-- `push_back`. -/
theorem pushBack_safe (hw : h.WF) (hg : s.Good i h) (hmax : s.size + 1 < maxSize) (ch : BitVec 8) :
    Safe (s.pushBack E i h ch) (Done i (own s) h (s.size + 1)) := by
  have hmax' : maxSize + 1 ≤ 2 ^ 32 := by decide
  obtain ⟨l, hl, -⟩ := hg.has
  have hsize := hl.size
  have hlen : (l ++ [ch]).length = s.size + 1 := by
    rw [List.length_append, hl.size]
    rfl
  exact Post.mono (pushBack_has hl hw (by omega) ch).safe fun r hr => hlen ▸ hr.done (by omega)

/-- `resize`, up or down. -/
theorem resize_safe (hw : h.WF) (hg : s.Good i h) (hmax : n < maxSize) (ch : BitVec 8) :
    Safe (s.resize E i h n ch) (Done i (own s) h n) := by
  have hmax' : maxSize + 1 ≤ 2 ^ 32 := by decide
  obtain ⟨l, hl, -⟩ := hg.has
  have hlen : (l.take n ++ List.replicate (n - l.length) ch).length = n := by
    rw [List.length_append, List.length_take, List.length_replicate]
    omega
  have hfits : n + 1 < 2 ^ 32 := by omega
  exact Post.mono (resize_has hl hw hfits ch).safe fun r hr => hlen ▸ hr.done (by omega)

end Str

end Doors.Libcxx
