import Doors.Libcxx.StringRun

/-!
# Doors.Libcxx.StringEdit

Edits of strings are edits of lists.

`Mach.Shows m c` says that the strings of `m` have the contents `c`: the abstract
store, with a list for each live object, that a program with strings is about.  Every
edit changes one entry of the store to `Edit.result`, which is a list operation, as
long as `pos + count` does not wrap and the new contents can be stored (`Edit.Fits`).

Where `pos + count` wraps, the tail of the string moves forward, and the string is
longer than before; this is seen from its size alone (`Sizes`).
-/

namespace Doors.Libcxx

open Run

namespace Mach

/-! ## strings as a store of lists -/

/-- **The strings of `m` have the contents `c`.** -/
structure Shows (m : Mach) (c : Nat → Option (List (BitVec 8))) : Prop where
  wf : m.heap.WF
  apart : m.Apart
  texts : ∀ k, Option.Rel (fun s l => Str.Has k s m.heap l) (m.strs k) (c k)

variable {E : Env} {m : Mach} {c : Nat → Option (List (BitVec 8))} {i j k pos count n : Nat}
  {s t : Str} {l r : List (BitVec 8)}
  {ok : Stop → Prop}

/-- A string with contents is live. -/
theorem Shows.get (hm : m.Shows c) (hi : c i = some l) :
    ∃ s, m.strs i = some s ∧ s.Has i m.heap l := by
  have hrel := hm.texts i
  rw [hi] at hrel
  generalize m.strs i = o at hrel
  cases hrel with
  | some hs => exact ⟨_, rfl, hs⟩

/-- A string without contents is not. -/
theorem Shows.dead (hm : m.Shows c) (hi : c i = none) : m.strs i = none := by
  have hrel := hm.texts i
  rw [hi] at hrel
  generalize m.strs i = o at hrel
  cases hrel
  rfl

/-- The strings of every reachable machine have contents. -/
theorem Inv.shows (hI : m.Inv) : ∃ c, m.Shows c := by
  have htext : ∀ k, ∃ o, Option.Rel (fun s l => Str.Has k s m.heap l) (m.strs k) o := by
    intro k
    cases hk : m.strs k with
    | none => exact ⟨none, .none⟩
    | some s =>
        obtain ⟨l, hl, -⟩ := (hI.good k s hk).has
        exact ⟨some l, .some hl⟩
  choose c hc using htext
  exact ⟨c, hI.wf, hI.apart, hc⟩

/-- The empty machine. -/
theorem Shows.empty : Mach.empty.Shows fun _ => none :=
  ⟨Inv.empty.wf, Inv.empty.apart, fun _ => .none⟩

/-- **Frame**: an operation on the string at `i` that shifts its blocks. -/
theorem Shows.change {os : Option Str} {oc : Option (List (BitVec 8))} {h : Heap} (hm : m.Shows c)
    (hrel : Option.Rel (fun s l => Str.Has i s h l) os oc)
    (hshift : Shift (m.ownAt i) {b | ∃ s, os = some s ∧ b ∈ own s} m.heap h) :
    Shows ⟨Function.update m.strs i os, h⟩ (Function.update c i oc) where
  wf := hshift.wf hm.wf
  apart := by
    refine hm.apart.change {i} (fun k hk => Function.update_of_ne hk _ _) ?_ ?_ ?_
    · rintro k b rfl ⟨s, hs, hb⟩
      have hos : os = some s := by simpa using hs
      subst hos
      cases hrel with
      | some hhas =>
          obtain ⟨blk, hroom, -⟩ := hhas.room
          exact hroom.live hb
    · rintro k l b rfl rfl - -
      rfl
    · simpa [ownAt] using hshift
  texts k := by
    dsimp only
    by_cases hk : k = i
    · subst hk
      rw [Function.update_self, Function.update_self]
      exact hrel
    · rw [Function.update_of_ne hk, Function.update_of_ne hk]
      have hkeep : ∀ s l, m.strs k = some s → s.Has k m.heap l → s.Has k h l := by
        intro s l hs hl
        refine hl.shift hshift fun b hb hin => hk ?_
        exact hm.apart.unique k i b (by rw [ownAt_some hs]; exact hb) hin
      have hold := hm.texts k
      generalize m.strs k = o at hold hkeep
      generalize c k = o' at hold
      cases hold with
      | none => exact .none
      | some hl => exact .some (hkeep _ _ rfl hl)

/-- One string gets new contents, the others keep theirs. -/
theorem Shows.put {q : Str × Heap} (hm : m.Shows c) (hq : Str.Result i (m.ownAt i) m.heap l q) :
    (m.put i q).Shows (Function.update c i (some l)) :=
  hm.change (.some hq.has) (by simpa using hq.shift)

/-- A constructor that makes `l`. -/
theorem make_shows {f : Heap → Except Stop (Str × Heap)} (hm : m.Shows c) (hi : c i = none)
    (hf : Post ok (f m.heap) (Str.Result i ∅ m.heap l)) :
    Post ok (m.make i f) fun m' => m'.Shows (Function.update c i (some l)) := by
  refine Post.bind hf fun q hq => Post.pure (hm.put ?_)
  rw [ownAt_none (hm.dead hi)]
  exact hq

/-- A member function that makes `l` of its string. -/
theorem apply_shows {f : Str → Heap → Except Stop (Str × Heap)} (hm : m.Shows c)
    (hs : m.strs i = some s)
    (hf : Post ok (f s m.heap) (Str.Result i (own s) m.heap l)) :
    Post ok (m.apply i f) fun m' => m'.Shows (Function.update c i (some l)) := by
  simp only [apply, get_eq hs]
  refine Post.pure_bind (Post.bind hf fun q hq => Post.pure (hm.put ?_))
  rw [ownAt_some hs]
  exact hq

/-- A destroyed string has no contents. -/
theorem dtor_shows (hm : m.Shows c) (hi : c i = some l) :
    Post ok (m.dtor i) fun m' => m'.Shows (Function.update c i none) := by
  obtain ⟨s, hs, hhas⟩ := hm.get hi
  obtain ⟨blk, hroom, -⟩ := hhas.room
  simp only [dtor, get_eq hs]
  refine Post.pure_bind
    (Post.bind (Str.release_safe hroom) fun h hfree => Post.pure (hm.change .none ?_))
  rw [ownAt_some hs]
  simpa using hfree

/-! ## the edits, one by one -/

/-- `erase` cuts a piece out. -/
theorem erase_shows (hm : m.Shows c) (hi : c i = some l) (hcount : ¬ Str.Wraps l pos count) :
    Post ok (m.erase i pos count) fun m' => m'.Shows
      (Function.update c i (some (spliced l pos count []))) := by
  obtain ⟨s, hs, hhas⟩ := hm.get hi
  exact apply_shows hm hs (Str.erase_has hhas hcount)

/-- `insert` puts a string in. -/
theorem insertStr_shows (hm : m.Shows c) (hij : i ≠ j) (hi : c i = some l) (hj : c j = some r)
    (hlen : l.length + r.length + 1 < 2 ^ 32) :
    Gives E (m.insertStr E i pos j) fun m' =>
      m'.Shows (Function.update c i (some (spliced l pos 0 r))) := by
  obtain ⟨s, hs, hl⟩ := hm.get hi
  obtain ⟨t, ht, hr⟩ := hm.get hj
  have hdisj : ∀ b ∈ own t, b ∉ own s := by
    intro b hbt hbs
    exact hij
      (hm.apart.unique i j b (by rw [ownAt_some hs]; exact hbs) (by rw [ownAt_some ht]; exact hbt))
  simp only [insertStr, get_eq ht]
  exact Post.pure_bind (apply_shows hm hs (Str.insertStr_has hl hr hm.wf hdisj hlen pos))

/-- A replacement is an erasure and an insertion; behind the end nothing is erased, and
the insertion is at the end. -/
theorem spliced_twice (l r : List (BitVec 8)) (pos count : Nat) :
    spliced (spliced l pos count []) pos 0 r = spliced l pos count r := by
  unfold spliced
  rw [List.append_nil, Nat.add_zero]
  rcases Nat.le_total pos l.length with hle | hle
  · have htake : (l.take pos).length = pos := by
      rw [List.length_take]
      omega
    rw [List.take_left' htake, List.drop_left' htake]
  · rw [List.take_of_length_le hle, List.drop_eq_nil_of_le (Nat.le_add_right_of_le hle),
      List.append_nil, List.take_of_length_le hle,
      List.drop_eq_nil_of_le hle]

/-- `replace` puts a string in the place of a piece. -/
theorem replaceStr_shows (hm : m.Shows c) (hij : i ≠ j) (hi : c i = some l) (hj : c j = some r)
    (hcount : ¬ Str.Wraps l pos count) (hlen : (spliced l pos count r).length + 1 < 2 ^ 32) :
    Gives E (m.replaceStr E i pos count j) fun m' =>
      m'.Shows (Function.update c i (some (spliced l pos count r))) := by
  rw [length_spliced] at hlen
  have hlen' : (spliced l pos count []).length + r.length + 1 < 2 ^ 32 := by
    rw [length_spliced, List.length_nil]
    omega
  unfold replaceStr
  refine Post.bind (erase_shows hm hi hcount) fun m₁ hm₁ => ?_
  have hj₁ : Function.update c i (some (spliced l pos count [])) j = some r := by
    rw [Function.update_of_ne hij.symm]
    exact hj
  refine Post.mono (insertStr_shows hm₁ hij (Function.update_self ..) hj₁ hlen') fun m₂ hm₂ => ?_
  rwa [Function.update_idem, spliced_twice] at hm₂

/-- A temporary has the text of its C string. -/
theorem ctorCstr_shows (hm : m.Shows c) (hk : c k = none) (cs : List (BitVec 8))
    (hlen : (Str.text (some cs)).length + 1 < 2 ^ 32) :
    Gives E (m.ctorCstr E k (some cs)) fun m' =>
      m'.Shows (Function.update c k (some (Str.text (some cs)))) :=
  make_shows hm hk (Str.ctorCstr_has hm.wf hlen)

/-- A temporary string leaves nothing behind. -/
theorem update_temporary {x y : List (BitVec 8)} (hik : i ≠ k) (hk : c k = none) :
    Function.update (Function.update (Function.update c k (some x)) i (some y)) k none =
      Function.update c i (some y) := by
  have hnone : Function.update c k none = c := Function.update_eq_self_iff.mpr hk.symm
  rw [Function.update_comm hik, Function.update_idem, hnone]

/-- An operation through a temporary string made of a C string. -/
theorem temporary_shows {cs x : List (BitVec 8)} {f : Mach → Except Stop Mach} (hm : m.Shows c)
    (hi : c i = some l)
    (hk : c k = none) (hlen : (Str.text (some cs)).length + 1 < 2 ^ 32)
    (hf : ∀ m₁, m₁.Shows (Function.update c k (some (Str.text (some cs)))) →
      Gives E (f m₁) fun m₂ =>
        m₂.Shows (Function.update (Function.update c k (some (Str.text (some cs)))) i (some x))) :
    Gives E (do
      let m ← m.ctorCstr E k (some cs)
      let m ← f m
      m.dtor k) fun m' => m'.Shows (Function.update c i (some x)) := by
  have hik : i ≠ k := by
    rintro rfl
    simp [hk] at hi
  refine Post.bind (ctorCstr_shows hm hk cs hlen) fun m₁ hm₁ =>
    Post.bind (hf m₁ hm₁) fun m₂ hm₂ => ?_
  have hk₂ : Function.update (Function.update c k (some (Str.text (some cs)))) i (some x) k =
      some (Str.text (some cs)) := by
    rw [Function.update_of_ne hik.symm, Function.update_self]
  refine Post.mono (dtor_shows hm₂ hk₂) fun m₃ hm₃ => ?_
  rwa [update_temporary hik hk] at hm₃

section

variable {cs x : List (BitVec 8)} (hm : m.Shows c) (hi : c i = some l) (hk : c k = none)
  (hcs : Str.text (some cs) = x)
  (hfits : x.length + 1 < 2 ^ 32)
include hm hi hk hcs hfits

/-- `insert` of a C string puts its text in. -/
theorem insertCstr_shows (hlen : (spliced l pos 0 x).length + 1 < 2 ^ 32) :
    Gives E (m.exec E (.insertCstr i pos (some cs) k)) fun m' =>
      m'.Shows (Function.update c i (some (spliced l pos 0 x))) := by
  subst hcs
  have hik : i ≠ k := by
    rintro rfl
    simp [hk] at hi
  rw [length_spliced] at hlen
  refine temporary_shows hm hi hk hfits fun m₁ hm₁ => ?_
  have hi₁ : Function.update c k (some (Str.text (some cs))) i = some l := by
    rw [Function.update_of_ne hik, hi]
  exact insertStr_shows hm₁ hik hi₁ (Function.update_self ..) (by omega)

/-- `replace` by a C string puts its text in the place of a piece. -/
theorem replaceCstr_shows (hcount : ¬ Str.Wraps l pos count)
    (hlen : (spliced l pos count x).length + 1 < 2 ^ 32) :
    Gives E (m.exec E (.replaceCstr i pos count (some cs) k)) fun m' =>
      m'.Shows (Function.update c i (some (spliced l pos count x))) := by
  subst hcs
  have hik : i ≠ k := by
    rintro rfl
    simp [hk] at hi
  refine temporary_shows hm hi hk hfits fun m₁ hm₁ => ?_
  have hi₁ : Function.update c k (some (Str.text (some cs))) i = some l := by
    rw [Function.update_of_ne hik, hi]
  exact replaceStr_shows hm₁ hik hi₁ (Function.update_self ..) hcount hlen

end

end Mach

/-! ## edits -/

/-- A C string in the address space. -/
structure CString where
  bytes : List (BitVec 8)
  fits : (Str.text (some bytes)).length + 1 < 2 ^ 32

/-- A buffer in the address space. -/
structure Buffer where
  bytes : List (BitVec 8)
  fits : bytes.length < 2 ^ 32

/-- An edit of one string, with the arguments that it takes besides another string. -/
inductive Edit where
  | erase (pos count : BitVec 32)
  | insertStr (pos : BitVec 32)
  | insertCstr (pos : BitVec 32) (cs : CString)
  | insertFill (pos n : BitVec 32) (ch : BitVec 8)
  | replaceStr (pos count : BitVec 32)
  | replaceCstr (pos count : BitVec 32) (cs : CString)
  | replaceBuf (pos count : BitVec 32) (bs : Buffer)
  | resize (n : BitVec 32) (ch : BitVec 8)

namespace Edit

variable (i j tmp : Nat) (l r : List (BitVec 8))

/-- The call on the string at `i`, with the string at `j` for an argument. -/
def op : Edit → Op
  | erase pos count => .erase i pos.toNat count.toNat
  | insertStr pos => .insertStr i pos.toNat j
  | insertCstr pos cs => .insertCstr i pos.toNat (some cs.bytes) tmp
  | insertFill pos n ch => .insertFill i pos.toNat n.toNat ch
  | replaceStr pos count => .replaceStr i pos.toNat count.toNat j
  | replaceCstr pos count cs => .replaceCstr i pos.toNat count.toNat (some cs.bytes) tmp
  | replaceBuf pos count bs => .replaceBuf i pos.toNat count.toNat (some bs.bytes)
  | resize n ch => .resize i n.toNat ch

/-- **The edit of the list**: a position behind the end is the end, and a count reaches
to the end at most. -/
def result : Edit → List (BitVec 8)
  | erase pos count => spliced l pos.toNat count.toNat []
  | insertStr pos => spliced l pos.toNat 0 r
  | insertCstr pos cs => spliced l pos.toNat 0 (Str.text (some cs.bytes))
  | insertFill pos n ch => spliced l pos.toNat 0 (List.replicate n.toNat ch)
  | replaceStr pos count => spliced l pos.toNat count.toNat r
  | replaceCstr pos count cs => spliced l pos.toNat count.toNat (Str.text (some cs.bytes))
  | replaceBuf pos count bs => spliced l pos.toNat count.toNat bs.bytes
  | resize n ch => l.take n.toNat ++ List.replicate (n.toNat - l.length) ch

/-- The edits that count characters from a position. -/
def Wraps : Edit → Prop
  | erase pos count | replaceStr pos count | replaceCstr pos count _ =>
      Str.Wraps l pos.toNat count.toNat
  | replaceBuf pos count _ => Str.Wraps l (min pos.toNat l.length) count.toNat
  | insertStr _ | insertCstr _ _ | insertFill _ _ _ | resize _ _ => False

/-- **When an edit is right**: its sum does not wrap, and a block can hold the result. -/
def Fits (e : Edit) : Prop := ¬ e.Wraps l ∧ (e.result l r).length + 1 < 2 ^ 32

end Edit

namespace Mach

open Edit

variable {E : Env} {m : Mach} {c : Nat → Option (List (BitVec 8))} {i j tmp : Nat}
  {l r : List (BitVec 8)}

/-- Every edit that fits changes its string as the list is changed, and no other string. -/
theorem exec_shows {e : Edit} (hm : m.Shows c) (hij : i ≠ j) (hi : c i = some l) (hj : c j = some r)
    (htmp : c tmp = none)
    (hfits : e.Fits l r) : Gives E (m.exec E (e.op i j tmp)) fun m' =>
    m'.Shows (Function.update c i (some (e.result l r))) := by
  obtain ⟨s, hs, hl⟩ := hm.get hi
  obtain ⟨hwraps, hlen⟩ := hfits
  cases e with
  | erase pos count => exact erase_shows hm hi hwraps
  | insertStr pos =>
      simp only [result, length_spliced] at hlen
      exact insertStr_shows hm hij hi hj (by omega)
  | insertCstr pos cs => exact insertCstr_shows hm hi htmp rfl cs.fits hlen
  | insertFill pos n ch =>
      simp only [result, length_spliced, List.length_replicate] at hlen
      have hfill := Str.insertFill_has (E := E) (n := n.toNat) hl hm.wf (by omega) pos.toNat ch
      simp only [op, exec]
      exact apply_shows hm hs hfill
  | replaceStr pos count => exact replaceStr_shows hm hij hi hj hwraps hlen
  | replaceCstr pos count cs => exact replaceCstr_shows hm hi htmp rfl cs.fits hwraps hlen
  | replaceBuf pos count bs =>
      have hbuf := Str.replaceBuf_has (E := E) hl hm.wf hwraps hlen
      simp only [op, exec]
      exact apply_shows hm hs hbuf
  | resize n ch =>
      simp only [result, List.length_append, List.length_take, List.length_replicate] at hlen
      have hres := Str.resize_has (E := E) (n := n.toNat) hl hm.wf (by omega) ch
      simp only [op, exec]
      exact apply_shows hm hs hres

end Mach

/-! ## the size of what comes out -/

/-- If `x` ends, then with a string of `n` characters. -/
abbrev Sizes (n : Nat) (x : Except Stop (Str × Heap)) : Prop :=
  Post (fun _ => True) x fun q => q.1.size = n

namespace Str

variable {E : Env} {i j k n b off pos count : Nat} {s t : Str} {h : Heap} {l bs : List (BitVec 8)}

/-- A write keeps the size. -/
theorem write_sizes : Sizes s.size (s.write i h off bs) := by
  unfold write writeSSO
  cases s.data with
  | sso o =>
      dsimp only
      split
      · split
        · exact Post.pure rfl
        · exact Post.throw True.intro
      · exact Post.throw True.intro
  | heap b => exact Post.bind (Post.trivial _) fun h _ => Post.pure rfl

/-- `setSize` sets the size. -/
theorem setSize_sizes : Sizes n (s.setSize i h n) := write_sizes (s := { s with size := n })

/-- `setHeap` sets the size. -/
theorem setHeap_sizes : Sizes n (s.setHeap i h b n count) :=
  write_sizes (s := { s with data := .heap b, size := n, capacity := count })

/-- Growing keeps the size. -/
theorem grow_sizes : Sizes s.size (s.grow E i h n) := by
  unfold grow
  refine Post.bind (Post.trivial _) fun q _ => ?_
  dsimp only
  split
  · exact Post.bind (Post.trivial _) fun _ _ => Post.bind (Post.trivial _) fun _ _ =>
      Post.bind (Post.trivial _) fun _ _ =>
      Post.bind (Post.trivial _) fun _ _ => setHeap_sizes
  · exact Post.bind (Post.trivial _) fun _ _ => Post.bind (Post.trivial _) fun _ _ =>
      Post.bind (Post.trivial _) fun _ _ => setHeap_sizes

/-- Making room keeps the size. -/
theorem reserveFor_sizes : Sizes s.size (s.reserveFor E i h n) := by
  unfold reserveFor
  split
  · exact Post.pure rfl
  · split
    · exact Post.pure rfl
    · exact grow_sizes

/-- Opening a gap keeps the size. -/
theorem openGap_sizes : Sizes s.size (s.openGap E i h pos count n) := by
  unfold openGap
  refine Post.bind reserveFor_sizes fun q hq => ?_
  dsimp only
  split
  · exact Post.bind (Post.trivial _) fun _ _ => hq ▸ write_sizes
  · exact Post.pure hq

/-- The size after an edit, also where the text is wrong. -/
theorem splice_sizes {src : Heap → Except Stop (List (BitVec 8))} :
    Sizes (u32 (sub32 s.size count + n)) (s.splice E i h pos count n src) := by
  unfold splice
  refine Post.bind openGap_sizes fun q hq => Post.bind (Post.trivial _) fun _ _ =>
    Post.bind write_sizes fun q' hq' => ?_
  rw [← hq, ← hq']
  exact setSize_sizes

/-- The size after `erase`. -/
theorem erase_sizes (hpos : pos ≤ s.size) :
    Sizes (sub32 s.size (s.cut pos count)) (s.erase i h pos count) := by
  unfold erase
  rw [if_neg (Nat.not_lt.mpr hpos)]
  dsimp only
  split
  · refine Post.bind (Post.trivial _) fun _ _ => Post.bind write_sizes fun q hq => ?_
    rw [← hq]
    exact setSize_sizes
  · exact setSize_sizes

/-- The size after `replace`. -/
theorem replaceBuf_sizes :
    Sizes (u32 (sub32 s.size (s.cut (min pos s.size) count) + bs.length))
      (s.replaceBuf E i h pos count (some bs)) := by
  unfold replaceBuf
  rw [if_neg (by simp)]
  exact splice_sizes

/-- A read gives as many characters as it was asked for. -/
theorem read_sizes : Post (fun _ => True) (s.read i h off n) fun bs => bs.length = n := by
  unfold read
  cases s.buffer i h with
  | none => exact Post.throw True.intro
  | some blk =>
      dsimp only
      split
      · exact Post.pure (by simp)
      · exact Post.throw True.intro

/-- A short text sets the size. -/
theorem setSSO_sizes : Post (fun _ => True) (s.setSSO i bs) fun s' => s'.size = bs.length := by
  unfold setSSO
  exact Post.bind (Post.trivial _) fun _ _ => Post.bind (Post.trivial _) fun _ _ => Post.pure rfl

/-- The size of a part. -/
theorem substr_sizes (hpos : pos < s.size) :
    Sizes (s.cut pos count) (s.substr E i h k pos count) := by
  unfold substr
  rw [if_neg (Nat.not_le.mpr hpos)]
  split
  · refine Post.bind read_sizes fun bs hbs => Post.bind setSSO_sizes fun s' hs' => Post.pure ?_
    exact hs'.trans hbs
  · exact Post.bind (Post.trivial _) fun _ _ => Post.bind (Post.trivial _) fun _ _ =>
      Post.bind (Post.trivial _) fun _ _ => setHeap_sizes

/-- A sum that wraps is not behind the end. -/
theorem Has.cut_wraps (hs : s.Has i h l) (hcount : count < 2 ^ 32) (hwraps : Wraps l pos count) :
    s.cut pos count = count := by
  have hle := hs.size_le
  have hlt := hs.cap_lt
  have hsize := hs.size
  obtain ⟨hpos, hnpos, hsum⟩ := hwraps
  unfold Str.cut u32
  rw [if_neg]
  omega

/-- Nothing is taken away. -/
theorem sub32_zero (a b : Nat) : sub32 (sub32 a b) 0 = sub32 a b := by
  unfold sub32 u32
  omega

/-- A difference is a word. -/
theorem u32_sub32 (a b : Nat) : u32 (sub32 a b) = sub32 a b := Nat.mod_mod _ _

/-- Where the sum wraps, the size is not that of the list. -/
theorem Has.wraps_size (hs : s.Has i h l) (hcount : count < 2 ^ 32) (hwraps : Wraps l pos count)
    (m : List (BitVec 8)) :
    u32 (sub32 s.size (s.cut pos count) + m.length) ≠ (spliced l pos count m).length := by
  have hle := hs.size_le
  have hlt := hs.cap_lt
  have hsize := hs.size
  rw [hs.cut_wraps hcount hwraps, length_spliced]
  obtain ⟨hpos, hnpos, hsum⟩ := hwraps
  unfold sub32 u32
  omega

end Str

namespace Mach

open Edit

variable {E : Env} {m : Mach} {c : Nat → Option (List (BitVec 8))} {i j k tmp n pos count : Nat}
  {s t : Str} {l r : List (BitVec 8)}

/-- String `i` has `n` characters now, and the others are as they were. -/
structure Sized (m : Mach) (i n : Nat) (m' : Mach) : Prop where
  size : ∃ s, m'.strs i = some s ∧ s.size = n
  other : ∀ k, k ≠ i → m'.strs k = m.strs k

/-- A string of the wrong size is wrong. -/
theorem Sized.wrong {m' : Mach} {n' : Nat} (h : Sized m i n m') (hne : n ≠ n') :
    ∃ s, m'.strs i = some s ∧ s.size ≠ n' := by
  obtain ⟨s, hs, rfl⟩ := h.size
  exact ⟨s, hs, hne⟩

/-- The size that a member leaves. -/
theorem apply_sized {f : Str → Heap → Except Stop (Str × Heap)} (hs : m.strs i = some s)
    (hf : Sizes n (f s m.heap)) :
    Post (fun _ => True) (m.apply i f) (Sized m i n) := by
  simp only [apply, get_eq hs]
  refine Post.pure_bind
    (Post.bind hf fun q hq => Post.pure ⟨⟨q.1, ?_, hq⟩, fun k hk => Function.update_of_ne hk _ _⟩)
  simp [put]

/-- The size that `erase` leaves. -/
theorem erase_sized (hs : m.strs i = some s) (hpos : pos ≤ s.size) :
    Post (fun _ => True) (m.erase i pos count) (Sized m i (sub32 s.size (s.cut pos count))) :=
  apply_sized hs (Str.erase_sizes hpos)

/-- The size that `insert` leaves. -/
theorem insertStr_sized (hs : m.strs i = some s) (ht : m.strs j = some t) :
    Post (fun _ => True) (m.insertStr E i pos j) (Sized m i (u32 (sub32 s.size 0 + t.size))) := by
  simp only [insertStr, get_eq ht]
  exact Post.pure_bind (apply_sized hs Str.splice_sizes)

/-- The size that `replace` leaves. -/
theorem replaceStr_sized (hij : i ≠ j) (hs : m.strs i = some s) (ht : m.strs j = some t)
    (hpos : pos ≤ s.size) :
    Post (fun _ => True) (m.replaceStr E i pos count j)
      (Sized m i (u32 (sub32 s.size (s.cut pos count) + t.size))) := by
  unfold replaceStr
  refine Post.bind (erase_sized hs hpos) fun m₁ hm₁ => ?_
  obtain ⟨s₁, hs₁, hsize⟩ := hm₁.size
  have ht₁ := (hm₁.other j hij.symm).trans ht
  refine Post.mono (insertStr_sized hs₁ ht₁) fun m₂ hm₂ =>
    ⟨?_, fun k hk => (hm₂.other k hk).trans (hm₁.other k hk)⟩
  rw [hsize, Str.sub32_zero] at hm₂
  exact hm₂.size

/-- A destructor keeps the other strings. -/
theorem dtor_other : Post (fun _ => True) (m.dtor k) fun m' => ∀ i, i ≠ k →
    m'.strs i = m.strs i := by
  unfold dtor
  exact Post.bind (Post.trivial _) fun _ _ => Post.bind (Post.trivial _) fun _ _ =>
    Post.pure fun i hi => Function.update_of_ne hi _ _

/-- An edit whose sum wraps ends with a wrong size, if it ends. -/
theorem exec_wraps {e : Edit} (hm : m.Shows c) (hij : i ≠ j) (hi : c i = some l) (hj : c j = some r)
    (htmp : c tmp = none)
    (hwraps : e.Wraps l) : Post (fun _ => True) (m.exec E (e.op i j tmp)) fun m' =>
    ∃ s, m'.strs i = some s ∧ s.size ≠ (e.result l r).length := by
  obtain ⟨s, hs, hl⟩ := hm.get hi
  obtain ⟨t, ht, hr⟩ := hm.get hj
  have hsize := hl.size
  have hlen : l.length + 1 < 2 ^ 32 := by
    have hle := hl.size_le
    have hlt := hl.cap_lt
    omega
  have hitmp : i ≠ tmp := by
    rintro rfl
    simp [htmp] at hi
  cases e with
  | erase pos count =>
      have hne := hl.wraps_size count.isLt hwraps []
      rw [List.length_nil, Nat.add_zero, Str.u32_sub32] at hne
      exact Post.mono (erase_sized hs (hsize ▸ hwraps.1)) fun m' hm' => hm'.wrong hne
  | insertStr pos => exact hwraps.elim
  | insertCstr pos cs => exact hwraps.elim
  | insertFill pos n ch => exact hwraps.elim
  | replaceStr pos count =>
      have hne := hl.wraps_size count.isLt hwraps r
      rw [← hr.size] at hne
      exact Post.mono (replaceStr_sized hij hs ht (hsize ▸ hwraps.1)) fun m' hm' => hm'.wrong hne
  | replaceCstr pos count cs =>
      refine Post.bind (ctorCstr_shows hm htmp cs.bytes cs.fits).any fun m₁ hm₁ => ?_
      obtain ⟨s₁, hs₁, hl₁⟩ := hm₁.get (i := i) (l := l) (by rw [Function.update_of_ne hitmp, hi])
      obtain ⟨t₁, ht₁, hr₁⟩ := hm₁.get (i := tmp) (Function.update_self ..)
      have hne := hl₁.wraps_size count.isLt hwraps (Str.text (some cs.bytes))
      rw [← hr₁.size] at hne
      refine Post.bind (replaceStr_sized hitmp hs₁ ht₁ (hl₁.size ▸ hwraps.1)) fun m₂ hm₂ => ?_
      obtain ⟨s₂, hs₂, hne₂⟩ := hm₂.wrong hne
      exact Post.mono dtor_other fun m₃ hm₃ => ⟨s₂, (hm₃ i hitmp).trans hs₂, hne₂⟩
  | replaceBuf pos count bs =>
      have hne := hl.wraps_size count.isLt hwraps bs.bytes
      rw [spliced_clamp, ← hsize] at hne
      simp only [op, exec]
      refine Post.mono
        (apply_sized hs
        (n := u32 (sub32 s.size (s.cut (min pos.toNat s.size) count.toNat) + bs.bytes.length)) ?_)
        fun m' hm' => hm'.wrong hne
      exact Str.replaceBuf_sizes
  | resize n ch => exact hwraps.elim

/-! ## the parts of a string -/

/-- `copy` reads a part. -/
theorem copy_eq (hm : m.Shows c) (hi : c i = some l) (count pos : Nat) :
    m.copy i count pos = .ok ((l.drop pos).take count) := by
  obtain ⟨s, hs, hl⟩ := hm.get hi
  simp only [copy, get_eq hs]
  exact Str.copy_has hl count pos

/-- `substr` makes a string of a part. -/
theorem substr_shows (hm : m.Shows c) (hi : c i = some l) (hk : c k = none)
    (hcount : l.length ≤ pos ∨ ¬ Str.Wraps l pos count) :
    Gives E (m.substr E i k pos count) fun m' =>
      m'.Shows (Function.update c k (some ((l.drop pos).take count))) := by
  obtain ⟨s, hs, hl⟩ := hm.get hi
  have hsub := Str.substr_has (E := E) (k := k) hl hm.wf hcount
  simp only [substr, get_eq hs]
  exact Post.pure_bind (make_shows hm hk hsub)

/-- The part that is taken is longer than what is left. -/
theorem substr_wraps (hm : m.Shows c) (hi : c i = some l) (hcount : count < 2 ^ 32)
    (hpos : pos < l.length) (hwraps : Str.Wraps l pos count) :
    Post (fun _ => True) (m.substr E i k pos count) fun m' =>
      ∃ s, m'.strs k = some s ∧ s.size ≠ ((l.drop pos).take count).length := by
  obtain ⟨s, hs, hl⟩ := hm.get hi
  simp only [substr, get_eq hs]
  refine Post.pure_bind
    (Post.bind (Str.substr_sizes (hl.size ▸ hpos)) fun q hq => Post.pure ⟨q.1, by simp [put], ?_⟩)
  rw [hq, hl.cut_wraps hcount hwraps, List.length_take, List.length_drop]
  have hle := hl.size_le
  have hlt := hl.cap_lt
  have hsize := hl.size
  have hsum := hwraps.2.2
  omega

end Mach

/-- Without a failing allocation there is a result. -/
theorem Gives.ok {α : Type} {E : Env} {x : Except Stop α} {Q : α → Prop} (h : Gives E x Q)
    (hE : ∀ b, E.fails b = false) :
    ∃ a, x = .ok a ∧ Q a := by
  cases x with
  | ok a => exact ⟨a, rfl, h⟩
  | error e =>
      obtain ⟨-, b, hb⟩ := h
      simp [hE] at hb

/-- **Edits of strings are edits of lists, unless `pos + count` wraps.**  For all strings,
positions and counts, an edit does to the contents what `Edit.result` does to the list, and
nothing to another string, exactly if it fits; `substr` takes the part of the list exactly if
its sum does not wrap, and `copy` always does. -/
theorem editing_matches_iff (m : Mach) (c : Nat → Option (List (BitVec 8))) (i j tmp : Nat)
    (l r : List (BitVec 8)) (hm : m.Shows c)
    (hij : i ≠ j) (hi : c i = some l) (hj : c j = some r) (htmp : c tmp = none) :
    (∀ e : Edit, (∀ E, Gives E (m.exec E (e.op i j tmp)) fun m' =>
      m'.Shows (Function.update c i (some (e.result l r)))) ↔ e.Fits l r) ∧
    (∀ pos count : BitVec 32,
      (∀ E, Gives E (m.substr E i tmp pos.toNat count.toNat) fun m' =>
        m'.Shows (Function.update c tmp (some ((l.drop pos.toNat).take count.toNat)))) ↔
      l.length ≤ pos.toNat ∨ ¬ Str.Wraps l pos.toNat count.toNat) ∧
    ∀ count pos : BitVec 32, m.copy i count.toNat pos.toNat =
      .ok ((l.drop pos.toNat).take count.toNat) := by
  refine ⟨fun e => ⟨fun hgives => ?_, fun hfits E => Mach.exec_shows hm hij hi hj htmp hfits⟩,
    fun pos count => ⟨fun hgives => ?_, fun hcount E => Mach.substr_shows hm hi htmp hcount⟩,
      fun count pos => Mach.copy_eq hm hi _ _⟩
  · obtain ⟨m', hx, hm'⟩ := (hgives grants).ok fun _ => rfl
    obtain ⟨s, hs, hhas⟩ := hm'.get (Function.update_self ..)
    have hle := hhas.size_le
    have hlt := hhas.cap_lt
    have hsize := hhas.size
    refine ⟨fun hwraps => ?_, by omega⟩
    obtain ⟨s', hs', hne⟩ := (Mach.exec_wraps hm hij hi hj htmp hwraps).of_eq hx
    rw [hs] at hs'
    exact hne (Option.some.inj hs' ▸ hsize)
  · obtain ⟨m', hx, hm'⟩ := (hgives grants).ok fun _ => rfl
    obtain ⟨s, hs, hhas⟩ := hm'.get (Function.update_self ..)
    by_contra hcon
    obtain ⟨hpos, hwraps⟩ := not_or.mp hcon
    obtain ⟨s', hs', hne⟩ :=
      (Mach.substr_wraps hm hi count.isLt (Nat.lt_of_not_le hpos) (not_not.mp hwraps)).of_eq hx
    rw [hs] at hs'
    exact hne (Option.some.inj hs' ▸ hhas.size)

/-- `"abc"` and `"12"`. -/
theorem editing_matches_iff_insert : ∃ m c, Mach.Shows m c ∧ c 0 = some [97, 98, 99] ∧
    ∀ E, Gives E (m.exec E (.insertStr 0 1 1)) fun m' =>
      m'.Shows (Function.update c 0 (some [97, 49, 50, 98, 99])) := by
  obtain ⟨m₁, -, hm₁⟩ :=
    (Mach.ctorCstr_shows (E := grants) (k := 0) Mach.Shows.empty rfl [97, 98, 99] (by decide)).ok
    fun _ => rfl
  obtain ⟨m₂, -, hm₂⟩ :=
    (Mach.ctorCstr_shows (E := grants) (k := 1) hm₁ rfl [49, 50] (by decide)).ok fun _ => rfl
  exact ⟨m₂, _, hm₂, rfl, ((editing_matches_iff m₂ _ 0 1 2 _ _ hm₂ (by decide) rfl rfl rfl).1
      (.insertStr 1)).mpr ⟨id, by decide⟩⟩

/-- In `"abcdef"`, the end of the 4294967293 characters at 5 is taken to be 2: `"cdef"` is moved
to 5, and the string has three characters more in place of one less. -/
theorem erase_wraps :
    (do
      let m ← Mach.empty.exec grants (.ctorCstr 0 (some [97, 98, 99, 100, 101, 102]))
      let m ← m.exec grants ((Edit.erase 5 4294967293).op 0 1 2)
      let s ← m.get 0
      s.read 0 m.heap 0 s.size).toOption = some [97, 98, 99, 100, 101, 99, 100, 101, 102] ∧
    (Edit.erase 5 4294967293).result [97, 98, 99, 100, 101, 102] [] = [97, 98, 99, 100, 101] := by
  decide +kernel

end Doors.Libcxx
