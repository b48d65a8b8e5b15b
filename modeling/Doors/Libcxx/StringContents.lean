import Doors.Libcxx.StringInvariant

/-!
# Doors.Libcxx.StringContents

The characters of a string, and what the building blocks of its mutators make of them.

`Has i s h l` says that the string at `i` has the contents `l`, in a buffer with place
for its capacity; it is `Str.Good` with the characters, and without the bound
`max_size()`.  `Gives E x Q` says that `x` ends with a result in `Q`, and can halt only
where an allocation fails.

Every building block has one specification here: from a string with contents `l` it
comes to the contents that the list operation gives (`Result`), and to a heap that has
shifted from the old block of the string to the new one.
-/

namespace Doors.Libcxx

open Run

/-- `x` ends with a result in `Q`; it halts only if an allocation can fail. -/
abbrev Gives {α : Type} (E : Env) (x : Except Stop α) (Q : α → Prop) : Prop :=
  Post (fun e => e = Stop.halt ∧ ∃ b, E.fails b = true) x Q

/-- What gives a result is safe. -/
theorem Gives.safe {α : Type} {E : Env} {x : Except Stop α} {Q : α → Prop} (h : Gives E x Q) :
    Safe x Q := by
  cases x with
  | ok a => exact h
  | error e => exact h.1

/-! ## cells -/

/-- The cells from 0 on are `l`. -/
def Begins (f : Nat → BitVec 8) (l : List (BitVec 8)) : Prop := ∀ k x, l[k]? = some x → f k = x

section

variable {buf f : Nat → BitVec 8} {bs l : List (BitVec 8)} {off k n : Nat} {x : BitVec 8}

/-- The bytes that were written. -/
theorem poke_inside (h : bs[k]? = some x) : poke buf off bs (off + k) = x := by
  obtain ⟨hk, rfl⟩ := List.getElem?_eq_some_iff.mp h
  unfold poke
  rw [if_pos ⟨Nat.le_add_right _ _, by omega⟩, Nat.add_sub_cancel_left,
    List.getD_eq_getElem?_getD, h]
  rfl

/-- The bytes before them. -/
theorem poke_before (h : k < off) : poke buf off bs k = buf k :=
  if_neg fun hin => absurd hin.1 (Nat.not_le.mpr h)

/-- The bytes behind them. -/
theorem poke_behind (h : off + bs.length ≤ k) : poke buf off bs k = buf k :=
  if_neg fun hin => absurd hin.2 (Nat.not_lt.mpr h)

/-- No bytes. -/
theorem poke_nil (buf : Nat → BitVec 8) (off : Nat) : poke buf off [] = buf := by
  funext k
  exact if_neg fun hin => by simp at hin; omega

/-- What is read begins the cells. -/
theorem begins_range (f : Nat → BitVec 8) (off n : Nat) :
    Begins (fun k => f (off + k)) ((List.range n).map fun k => f (off + k)) := by
  intro k x hk
  rw [List.getElem?_map, Option.map_eq_some_iff] at hk
  obtain ⟨m, hm, rfl⟩ := hk
  rw [(List.getElem?_eq_some_iff.mp hm).2.symm, List.getElem_range]

/-- What is written begins the cells. -/
theorem begins_poke (buf : Nat → BitVec 8) (l : List (BitVec 8)) : Begins (poke buf 0 l) l := by
  intro k x hk
  rw [← Nat.zero_add k]
  exact poke_inside hk

/-- What is written behind the contents leaves them. -/
theorem Begins.poke (h : Begins f l) (hlen : l.length ≤ off) : Begins (poke f off bs) l := by
  intro k x hk
  rw [poke_before (by have := (List.getElem?_eq_some_iff.mp hk).1; omega)]
  exact h k x hk

/-- More characters behind the contents. -/
theorem Begins.append (h : Begins f l) : Begins (Libcxx.poke f l.length bs) (l ++ bs) := by
  intro k x hk
  rcases Nat.lt_or_ge k l.length with hlt | hge
  · rw [List.getElem?_append_left hlt] at hk
    rw [poke_before hlt]
    exact h k x hk
  · rw [List.getElem?_append_right hge] at hk
    rw [show k = l.length + (k - l.length) by omega]
    exact poke_inside hk

/-- A part of the text. -/
theorem Begins.take (h : Begins f l) (n : Nat) : Begins f (l.take n) := by
  intro k x hk
  rw [List.getElem?_take] at hk
  split at hk
  · exact h k x hk
  · contradiction

/-- The contents are what is read. -/
theorem Begins.read (h : Begins f l) (hlen : off + n ≤ l.length) :
    (List.range n).map (fun k => f (off + k)) = (l.drop off).take n := by
  refine List.ext_getElem (by simp; omega) fun k hk _ => ?_
  rw [List.length_map, List.length_range] at hk
  rw [List.getElem_map, List.getElem_range, List.getElem_take, List.getElem_drop]
  exact h _ _ (List.getElem?_eq_getElem (by omega))

end

/-! ## replacing a part of a list -/

/-- `l` with `m` in place of the `count` characters at `pos`, or of those up to the end. -/
def spliced (l : List (BitVec 8)) (pos count : Nat) (m : List (BitVec 8)) : List (BitVec 8) :=
  l.take pos ++ m ++ l.drop (pos + count)

section

variable (l m : List (BitVec 8)) (pos count : Nat)

/-- The length after an edit. -/
theorem length_spliced : (spliced l pos count m).length =
    min pos l.length + m.length + (l.length - (pos + count)) := by
  simp only [spliced, List.length_append, List.length_take, List.length_drop]

/-- A position behind the end is the end. -/
theorem spliced_clamp : spliced l (min pos l.length) count m = spliced l pos count m := by
  unfold spliced
  rcases Nat.le_total pos l.length with hle | hle
  · rw [Nat.min_eq_left hle]
  · rw [Nat.min_eq_right hle, List.take_length, List.take_of_length_le hle,
      List.drop_eq_nil_of_le (by omega), List.drop_eq_nil_of_le (by omega)]

/-- A count that reaches behind the end reaches the end. -/
theorem spliced_cut : spliced l pos (min count (l.length - pos)) m = spliced l pos count m := by
  unfold spliced
  rcases Nat.le_total count (l.length - pos) with hle | hle
  · rw [Nat.min_eq_left hle]
  · rw [Nat.min_eq_right hle, List.drop_eq_nil_of_le (by omega), List.drop_eq_nil_of_le (by omega)]

/-- A count that reaches past the end. -/
theorem take_cut : (l.drop pos).take (min count (l.length - pos)) = (l.drop pos).take count := by
  rw [List.take_eq_take_iff, List.length_drop]
  omega

/-- An edit behind the end. -/
theorem spliced_behind (h : l.length < pos) : spliced l pos count [] = l := by
  unfold spliced
  rw [List.take_of_length_le h.le, List.drop_eq_nil_of_le (by omega), List.append_nil,
    List.append_nil]

end

/-- The place of `l` with `n` characters in place of the `count` at `pos`, before these
are written. -/
structure Gap (f : Nat → BitVec 8) (l : List (BitVec 8)) (pos count n : Nat) : Prop where
  before : ∀ k x, k < pos + n → l[k]? = some x → f k = x
  behind : ∀ k x, pos + count ≤ k → l[k]? = some x → f (k - count + n) = x
  tail : ∀ k x, l.length - count + n ≤ k → l[k]? = some x → f k = x

/-- A gap at the end of the text. -/
theorem Begins.gap {f : Nat → BitVec 8} {l : List (BitVec 8)} {pos count : Nat} (h : Begins f l)
    (hend : pos + count = l.length) (n : Nat) : Gap f l pos count n where
  before k x _ hk := h k x hk
  behind k x hle hk := by
    have := (List.getElem?_eq_some_iff.mp hk).1
    omega
  tail k x _ hk := h k x hk

/-- A gap in the text, once the tail has moved. -/
theorem Begins.gap_poke {f : Nat → BitVec 8} {l : List (BitVec 8)} {pos count : Nat}
    (h : Begins f l) (hcount : pos + count ≤ l.length)
    (n : Nat) : Gap (Libcxx.poke f (pos + n) (l.drop (pos + count))) l pos count n where
  before k x hlt hk := by
    rw [poke_before hlt]
    exact h k x hk
  behind k x hle hk := by
    rw [show k - count + n = pos + n + (k - (pos + count)) by omega]
    refine poke_inside ?_
    rw [List.getElem?_drop, show pos + count + (k - (pos + count)) = k by omega]
    exact hk
  tail k x hle hk := by
    rw [poke_behind (by rw [List.length_drop]; omega)]
    exact h k x hk

/-- The gap filled. -/
theorem Gap.fill {f : Nat → BitVec 8} {l m : List (BitVec 8)} {pos count : Nat}
    (h : Gap f l pos count m.length) (hcount : pos + count ≤ l.length) :
    Begins (poke f pos m) (spliced l pos count m) := by
  intro k x hk
  unfold spliced at hk
  have htake : (l.take pos).length = pos := by
    rw [List.length_take]
    omega
  by_cases hbefore : k < pos
  · rw [List.append_assoc, List.getElem?_append_left (by omega), List.getElem?_take,
      if_pos hbefore] at hk
    rw [poke_before hbefore]
    exact h.before k x (by omega) hk
  · by_cases hin : k < pos + m.length
    · rw [List.append_assoc, List.getElem?_append_right (by omega), htake,
        List.getElem?_append_left (by omega)] at hk
      rw [show k = pos + (k - pos) by omega]
      exact poke_inside hk
    · rw [List.getElem?_append_right (by rw [List.length_append]; omega), List.length_append, htake,
        List.getElem?_drop] at hk
      rw [poke_behind (by omega), show k = pos + count + (k - (pos + m.length)) - count +
        m.length by omega]
      exact h.behind _ x (by omega) hk

namespace Str

/-- **The string at `i` has the contents `l`.** -/
structure Has (i : Nat) (s : Str) (h : Heap) (l : List (BitVec 8)) : Prop where
  room : ∃ blk, s.Room i h blk ∧ Begins blk.byte l ∧ blk.byte l.length = 0
  size : s.size = l.length
  size_le : s.size ≤ s.cap i
  cap_lt : s.cap i + 1 < 2 ^ 32

/-- The result of an operation that owned `A`: a string with the contents `l`. -/
structure Result (i : Nat) (A : Set Nat) (h : Heap) (l : List (BitVec 8))
    (r : Str × Heap) : Prop where
  has : Has i r.1 r.2 l
  shift : Shift A (own r.1) h r.2

variable {E : Env} {i j n c off b pos count : Nat} {s s' t : Str} {h h' : Heap} {A A' : Set Nat}
  {l m bs : List (BitVec 8)} {blk : Block}
  {ok : Stop → Prop}

/-- A string with contents is a string. -/
theorem Has.good (hs : s.Has i h l) (hmax : l.length < maxSize) : s.Good i h := by
  obtain ⟨blk, hroom, -, hnul⟩ := hs.room
  refine ⟨⟨blk, hroom, ?_⟩, hs.size_le, hs.cap_lt, ?_⟩
  · rw [hs.size]
    exact hnul
  · rw [hs.size]
    exact hmax

/-- A good string has contents. -/
theorem Good.has (hg : s.Good i h) : ∃ l, s.Has i h l ∧ l.length < maxSize := by
  obtain ⟨blk, hroom, hnul⟩ := hg.room
  refine ⟨(List.range s.size).map blk.byte, ⟨⟨blk, hroom, ?_, ?_⟩, ?_, hg.size_le, hg.cap_lt⟩, ?_⟩
  · have hbegins := begins_range blk.byte 0 s.size
    simpa only [Nat.zero_add] using hbegins
  · rw [List.length_map, List.length_range]
    exact hnul
  · rw [List.length_map, List.length_range]
  · rw [List.length_map, List.length_range]
    exact hg.small

/-- A result with contents is a result. -/
theorem Result.done {r : Str × Heap} (hr : Result i A h l r) (hmax : l.length < maxSize) :
    Done i A h l.length r :=
  ⟨hr.has.good hmax, hr.shift, hr.has.size⟩

/-- A string is not touched by what happens to other blocks. -/
theorem Has.shift (hs : s.Has i h l) (hsh : Shift A A' h h') (hA : ∀ b ∈ own s, b ∉ A) :
    s.Has i h' l := by
  obtain ⟨blk, hroom, hbytes⟩ := hs.room
  exact ⟨⟨blk, hroom.shift hsh hA, hbytes⟩, hs.size, hs.size_le, hs.cap_lt⟩

/-- What is read from a string. -/
theorem Has.read (hs : s.Has i h l) (hlen : off + n ≤ l.length) :
    s.read i h off n = .ok ((l.drop off).take n) := by
  obtain ⟨blk, hroom, hbytes, -⟩ := hs.room
  have hle := hs.size_le
  rw [hs.size] at hle
  rw [read_eq hroom (by omega), hbytes.read hlen]

/-- The buffer begins with the contents and the terminator. -/
theorem Has.begins_nul (hs : s.Has i h l) : ∃ blk, s.Room i h blk ∧ Begins blk.byte (l ++ [0]) := by
  obtain ⟨blk, hroom, hbytes, hnul⟩ := hs.room
  refine ⟨blk, hroom, fun k x hk => ?_⟩
  rcases Nat.lt_or_ge k l.length with hlt | hge
  · rw [List.getElem?_append_left hlt] at hk
    exact hbytes k x hk
  · have hlast := (List.getElem?_eq_some_iff.mp hk).1
    rw [List.length_append, List.length_singleton] at hlast
    have heq : k = l.length := by omega
    subst heq
    rw [List.getElem?_append_right (Nat.le_refl _), Nat.sub_self] at hk
    exact hnul.trans (Option.some.inj hk)

/-- The same with the terminator. -/
theorem Has.read_nul (hs : s.Has i h l) (hlen : off + n ≤ l.length + 1) :
    s.read i h off n = .ok (((l ++ [0]).drop off).take n) := by
  obtain ⟨blk, hroom, hbytes⟩ := hs.begins_nul
  have hle := hs.size_le
  rw [hs.size] at hle
  rw [read_eq hroom (by omega), hbytes.read (by rw [List.length_append]; exact hlen)]

/-! ## setting a string -/

/-- `setSize` ends the text. -/
theorem setSize_has (hr : s.Room i h blk) (hbytes : Begins blk.byte l) (hcap : s.cap i + 1 < 2 ^ 32)
    (hn : l.length ≤ s.cap i) :
    Post ok (s.setSize i h l.length) fun r => Result i (own s) h l r ∧ r.1.cap i = s.cap i := by
  have hr' : Room i { s with size := l.length } h blk := hr
  have hlen : l.length + [(0 : BitVec 8)].length ≤ cap i { s with size := l.length } + 1 :=
    Nat.succ_le_succ hn
  refine Post.mono (write_safe hr' hlen) fun r hw => ?_
  obtain ⟨hkept, hroom, hshift⟩ := hw
  have hcap' : r.1.cap i = s.cap i := hkept.cap
  refine ⟨⟨⟨⟨_, hroom, hbytes.poke (Nat.le_refl _), poke_self ..⟩, hkept.size, ?_, ?_⟩, ?_⟩, hcap'⟩
  · rw [show r.1.size = l.length from hkept.size, hcap']
    exact hn
  · rw [hcap']
    exact hcap
  · rw [hkept.own]
    exact hshift

/-- A string in its small buffer. -/
theorem has_sso (hd : s.data = .sso i) (hbytes : Begins s.sso l) (hnul : s.sso l.length = 0)
    (hsize : s.size = l.length)
    (hlen : l.length ≤ ssoCapacity) (h : Heap) : s.Has i h l := by
  have hcap : s.cap i = ssoCapacity := if_pos (isSSO_iff.mpr hd)
  refine ⟨⟨⟨ssoCapacity + 1, s.sso⟩, ⟨by simp [buffer, hd], by rw [hcap]⟩, hbytes, hnul⟩,
    hsize, ?_, ?_⟩
  · rw [hcap, hsize]
    exact hlen
  · rw [hcap]
    decide

/-- A small string, from code that owns nothing any more. -/
theorem intoSSO_has (hs : Shift A ∅ h h') (hlen : l.length ≤ ssoCapacity) :
    Post ok (do
      let s ← s.setSSO i l
      return ({ s with capacity := ssoCapacity }, h')) (Result i A h l) := by
  have h₁ : 0 + l.length ≤ ssoCapacity + 1 := by omega
  have h₂ : l.length + [(0 : BitVec 8)].length ≤ ssoCapacity + 1 := by simpa using hlen
  simp only [setSSO, writeSSO, if_pos h₁, if_pos h₂, bind, Except.bind, pure, Except.pure]
  refine Post.pure
    ⟨has_sso rfl ((begins_poke s.sso l).poke (Nat.le_refl _)) (poke_self ..) rfl hlen h', ?_⟩
  rw [own_sso (j := i) rfl]
  exact hs

/-- `setHeap` takes a block over with its text. -/
theorem setHeap_has (hs : Shift A {b} h h') (hb : h'.block b = some blk)
    (hbytes : Begins blk.byte l) (hn : l.length ≤ c)
    (hc : c + 1 ≤ blk.size) (hlt : c + 1 < 2 ^ 32) :
    Post ok (s.setHeap i h' b l.length c) fun r => Result i A h l r ∧ r.1.cap i = c := by
  have hsso : ¬ isSSO i { s with data := .heap b, size := l.length, capacity := c } = true := by
    simp
  have hcap : cap i { s with data := .heap b, size := l.length, capacity := c } = c := if_neg hsso
  have hr : Room i { s with data := .heap b, size := l.length, capacity := c } h' blk :=
    ⟨hb, by rw [hcap]; exact hc⟩
  refine Post.mono (setSize_has hr hbytes (by rw [hcap]; exact hlt) (by rw [hcap]; exact hn))
    fun r hr =>
    ⟨⟨hr.1.has, ?_⟩, hr.2.trans hcap⟩
  have hshift := hr.1.shift
  rw [own_heap (b := b) rfl] at hshift
  exact hs.trans hshift

/-- A new block. -/
theorem allocate_gives (hw : h.WF) (hn : n + 1 < 2 ^ 32) :
    Gives E (allocate E n h) fun r => h.block r.1 = none ∧ Shift ∅ {r.1} h r.2 ∧ ∃ blk,
      r.2.block r.1 = some blk ∧ blk.size = n + 1 := by
  have hsafe := allocate_safe (E := E) hw hn.le
  have hu : u32 (n + 1) ≠ 0 := by
    unfold u32
    rw [Nat.mod_eq_of_lt hn]
    omega
  unfold allocate at hsafe ⊢
  split
  · next hfail => exact Post.throw ⟨rfl, _, hfail.resolve_left hu⟩
  · next hok =>
      rw [if_neg hok] at hsafe
      obtain ⟨hnone, hshift, blk, hblk, hsize, -⟩ := hsafe
      exact Post.pure ⟨hnone, hshift, blk, hblk, hsize⟩

/-- A new block of capacity `c` with the bytes of `src`, of which the first are the contents. -/
theorem intoHeap_has (src : Heap → Except Stop (List (BitVec 8))) (hw : h.WF) (hn : l.length ≤ c)
    (hc : c + 1 < 2 ^ 32)
    (hsrc : ∀ h' A', Shift ∅ A' h h' → ∃ bs, src h' = .ok bs ∧ l <+: bs ∧ bs.length ≤ c + 1) :
    Gives E (do
      let (p, h) ← allocate E c h
      let bs ← src h
      let h ← h.write p 0 bs
      s.setHeap i h p l.length c) (Result i ∅ h l) := by
  refine Post.bind (allocate_gives hw hc) fun r hr => ?_
  obtain ⟨-, hshift, blk, hblk, hsize⟩ := hr
  obtain ⟨bs, hbs, ⟨rest, rfl⟩, hlen⟩ := hsrc r.2 _ hshift
  simp only [hbs]
  have hend : 0 + (l ++ rest).length ≤ blk.size := by omega
  refine Post.pure_bind (Post.bind (Heap.write_safe hblk hend) fun h' hh' => ?_)
  obtain ⟨hfill, hblk'⟩ := hh'
  have hbytes : Begins (poke blk.byte 0 (l ++ rest)) l := by
    have htake := (begins_poke blk.byte (l ++ rest)).take l.length
    rwa [List.take_left] at htake
  exact Post.mono (setHeap_has (hshift.trans hfill) hblk' hbytes hn (by rw [hsize]) hc) fun r hr =>
    hr.1

/-! ## growing -/

/-- A number that fits. -/
theorem u32_of_lt (hn : n < 2 ^ 32) : u32 n = n := Nat.mod_eq_of_lt hn

/-- A difference that does not wrap. -/
theorem sub32_of_le (h : c ≤ n) (hn : n < 2 ^ 32) : sub32 n c = n - c := by
  unfold sub32 u32
  omega

/-- Twice a number is never `npos`. -/
theorem u32_double (n : Nat) : u32 (n * 2) + 1 < 2 ^ 32 := by
  unfold u32
  omega

/-- Growing keeps the contents. -/
theorem grow_has {minCap : Nat} (hs : s.Has i h l) (hw : h.WF) (hmin : s.cap i < minCap)
    (hlt : minCap + 1 < 2 ^ 32) :
    Gives E (s.grow E i h minCap) fun r => Result i (own s) h l r ∧ minCap ≤ r.1.cap i := by
  obtain ⟨blk, hroom, hbytes, -⟩ := hs.room
  have hsize := hs.size
  have hsize_le := hs.size_le
  unfold grow
  have hdouble := u32_double (s.cap i)
  generalize u32 (s.cap i * 2) = d at hdouble
  generalize hc : max (max d minCap) (ssoCapacity + 1) = c
  have hc₁ : minCap ≤ c := by omega
  have hc₂ : c + 1 < 2 ^ 32 := by
    unfold ssoCapacity at hc
    omega
  dsimp only
  refine Post.bind (allocate_gives hw hc₂) fun r hr => ?_
  obtain ⟨p, h₁⟩ := r
  obtain ⟨hnone, halloc, blk₁, hblk₁, hsize₁⟩ := hr
  dsimp only at hnone halloc hblk₁
  have hroom₁ := hroom.shift halloc (fun b _ => by simp)
  have hp : ∀ b ∈ own s, b ∉ ({p} : Set Nat) := by
    rintro b hb rfl
    exact hroom.live hb hnone
  -- the rest of the function, from the heap in which the characters are copied
  have hrest : ∀ h₂ blk₂, Shift {p} {p} h₁ h₂ → h₂.block p = some blk₂ → blk₂.size = c + 1 →
    Begins blk₂.byte l →
      Gives E (do
        let h ← h₂.write p s.size [0]
        let h ← s.release i h
        s.setHeap i h p s.size c) fun r => Result i (own s) h l r ∧ minCap ≤ r.1.cap i := by
    intro h₂ blk₂ hcopy hblk₂ hsize₂ hbytes₂
    have hend : s.size + [(0 : BitVec 8)].length ≤ blk₂.size := by
      rw [hsize₂]
      simp
      omega
    refine Post.bind (Heap.write_safe hblk₂ hend) fun h₃ hh₃ => ?_
    obtain ⟨hnul, hblk₃⟩ := hh₃
    have hfill := hcopy.trans hnul
    refine Post.bind (release_safe (hroom₁.shift hfill hp)) fun h₄ hfree => ?_
    have hblk₄ := hfree.same p (fun hin => hp p hin rfl) _ hblk₃
    rw [hsize]
    refine Post.mono (setHeap_has (halloc.exchange hfill hfree) hblk₄ (hbytes₂.poke (by omega))
      (by omega) (by rw [hsize₂]) hc₂)
      fun r hr => ⟨hr.1, ?_⟩
    rw [hr.2]
    exact hc₁
  have hread : s.read i h₁ 0 s.size = .ok l := by
    have hall := Has.read (n := l.length) (hs.shift halloc fun b _ => by simp)
      (Nat.zero_add l.length).le
    rwa [List.drop_zero, List.take_length, ← hsize] at hall
  split
  · rw [hread]
    have hend : 0 + l.length ≤ blk₁.size := by omega
    exact Post.pure_bind (Post.bind (Heap.write_safe hblk₁ hend) fun h₂ hh₂ =>
      hrest h₂ _ hh₂.1 hh₂.2 hsize₁ (begins_poke _ _))
  · next hzero =>
      have hnil : l = [] := List.eq_nil_of_length_eq_zero (by omega)
      refine hrest h₁ blk₁ (Shift.refl _ _) hblk₁ hsize₁ ?_
      rw [hnil]
      exact fun k x hk => by simp at hk

/-- Making room keeps the contents. -/
theorem reserveFor_has (hs : s.Has i h l) (hw : h.WF) (hn : n + 1 < 2 ^ 32) :
    Gives E (s.reserveFor E i h n) fun r => Result i (own s) h l r ∧ n ≤ r.1.cap i := by
  unfold reserveFor
  split
  · next hle => exact Post.pure ⟨⟨hs, Shift.refl _ _⟩, hle⟩
  · next hlt =>
      split
      · next hsso => exact absurd (by rw [Str.cap, if_pos hsso.1]; exact hsso.2) hlt
      · exact grow_has hs hw (by omega) hn

/-- A block for `npos` characters and a terminator would have the size 0. -/
theorem grow_halts : s.grow E i h npos = .error .halt := by
  have hcap : max (max (u32 (s.cap i * 2)) npos) (ssoCapacity + 1) = npos := by
    have hdouble := u32_double (s.cap i)
    unfold npos ssoCapacity
    omega
  unfold grow
  rw [hcap]
  rfl

/-! ## replacing a part -/

/-- A string whose characters are being moved. -/
structure Opened (i : Nat) (s : Str) (h : Heap) (c : Nat) (P : (Nat → BitVec 8) → Prop)
    (r : Str × Heap) : Prop where
  room : ∃ blk, r.1.Room i r.2 blk ∧ P blk.byte
  size : r.1.size = s.size
  shift : Shift (own s) (own r.1) h r.2
  fits : c ≤ r.1.cap i
  cap_lt : r.1.cap i + 1 < 2 ^ 32

variable {P Q : (Nat → BitVec 8) → Prop} {q r : Str × Heap}

/-- Some cells change. -/
theorem Opened.change (hr : Opened i s h c P r) (hkept : Kept r.1 q.1) (hroom : q.1.Room i q.2 blk)
    (hQ : Q blk.byte)
    (hshift : Shift (own r.1) (own r.1) r.2 q.2) : Opened i s h c Q q where
  room := ⟨blk, hroom, hQ⟩
  size := hkept.size.trans hr.size
  shift := by
    rw [hkept.own]
    exact hr.shift.trans hshift
  fits := by
    rw [hkept.cap]
    exact hr.fits
  cap_lt := by
    rw [hkept.cap]
    exact hr.cap_lt

/-- A result with room for the edit. -/
theorem Result.opened (hr : Result i (own s) h l r) (hs : s.Has i h l) (hfits : c ≤ r.1.cap i) :
    Opened i s h c (fun f => Begins f l) r := by
  obtain ⟨blk, hroom, hbytes, -⟩ := hr.has.room
  exact ⟨⟨blk, hroom, hbytes⟩, hr.has.size.trans hs.size.symm, hr.shift, hfits, hr.has.cap_lt⟩

/-- The end of a mutator: the characters are in place, and the size is set. -/
theorem Opened.finish (hr : Opened i s h c (fun f => Begins f l) r) (hfits : l.length ≤ c) :
    Post ok (r.1.setSize i r.2 l.length) (Result i (own s) h l) := by
  obtain ⟨blk, hroom, hbytes⟩ := hr.room
  refine Post.mono (setSize_has hroom hbytes hr.cap_lt (hfits.trans hr.fits)) fun r' hr' => ?_
  exact ⟨hr'.1.has, hr.shift.trans hr'.1.shift⟩

/-- The end of `insert` and `replace`, with the size as they compute it. -/
theorem Opened.finish_splice
    (hr : Opened i s h (max l.length (l.length - count + n))
    (fun f => Begins f (spliced l pos count m)) r)
    (hn : m.length = n) (hsize : s.size = l.length) (hcount : pos + count ≤ l.length)
    (hlen : l.length - count + n + 1 < 2 ^ 32)
    (hlt : l.length < 2 ^ 32) :
    Post ok (r.1.setSize i r.2 (u32 (sub32 r.1.size count + n)))
      (Result i (own s) h (spliced l pos count m)) := by
  have hnew : (spliced l pos count m).length = l.length - count + n := by
    rw [length_spliced]
    omega
  rw [hr.size, hsize, sub32_of_le (by omega) hlt, u32_of_lt (by omega), ← hnew]
  exact hr.finish (by omega)

/-- The room for `n` characters in place of `count`. -/
theorem openGap_has (hs : s.Has i h l) (hw : h.WF) (hcount : pos + count ≤ l.length)
    (hlen : l.length - count + n + 1 < 2 ^ 32) :
    Gives E (s.openGap E i h pos count n)
      (Opened i s h (max l.length (l.length - count + n)) fun f => Gap f l pos count n) := by
  have hlt := hs.cap_lt
  have hle := hs.size_le
  have hsize := hs.size
  unfold openGap
  rw [hsize, sub32_of_le (by omega) (by omega), u32_of_lt (by omega)]
  refine Post.bind (reserveFor_has hs hw hlen) fun r hr => ?_
  obtain ⟨s₁, h₁⟩ := r
  obtain ⟨hres, hcap⟩ := hr
  have hs₁ := hres.has
  dsimp only at hs₁ hcap ⊢
  have hle₁ := hs₁.size_le
  have hsize₁ := hs₁.size
  have hfits : max l.length (l.length - count + n) ≤ s₁.cap i := by omega
  have hopened := hres.opened hs hfits
  obtain ⟨blk, hroom, hbytes, -⟩ := hs₁.room
  rw [hsize₁, u32_of_lt (by omega)]
  split
  · next hmove =>
      have hn : sub32 (sub32 l.length pos) count = l.length - (pos + count) := by
        rw [sub32_of_le (c := pos) (by omega) (by omega), sub32_of_le (by omega) (by omega)]
        omega
      have htail : (l.drop (pos + count)).take (l.length - (pos + count)) =
          l.drop (pos + count) := by
        rw [← List.length_drop, List.take_length]
      rw [hn, u32_of_lt (by omega), hs₁.read (by omega), htail]
      refine Post.pure_bind
        (Post.mono (write_safe hroom (by rw [List.length_drop]; omega)) fun r hr => ?_)
      exact hopened.change hr.1 hr.2.1 (hbytes.gap_poke hcount n) hr.2.2
  · exact Post.pure (hopened.change (Kept.refl _) hroom (hbytes.gap (by omega) n) (Shift.refl _ _))

/-- **Splicing**: `m` takes the place of `count` characters. -/
theorem splice_has {src : Heap → Except Stop (List (BitVec 8))} (hs : s.Has i h l) (hw : h.WF)
    (hcount : pos + count ≤ l.length)
    (hlen : l.length - count + m.length + 1 < 2 ^ 32)
    (hsrc : ∀ h' A', Shift (own s) A' h h' → src h' = .ok m) :
    Gives E (s.splice E i h pos count m.length src)
      (Result i (own s) h (spliced l pos count m)) := by
  have hle := hs.size_le
  have hlt := hs.cap_lt
  have hsize := hs.size
  unfold splice
  refine Post.bind (openGap_has hs hw hcount hlen) fun r hr => ?_
  obtain ⟨s₁, h₁⟩ := r
  obtain ⟨blk, hroom, hgap⟩ := hr.room
  have hfits := hr.fits
  dsimp only at hroom hfits ⊢
  simp only [hsrc h₁ _ hr.shift]
  refine Post.pure_bind (Post.bind (write_safe hroom (by omega)) fun r₂ hr₂ => ?_)
  have hfilled := hr.change (Q := fun f => Begins f (spliced l pos count m)) hr₂.1 hr₂.2.1
    (hgap.fill hcount) hr₂.2.2
  exact hfilled.finish_splice rfl hsize hcount hlen (by omega)

/-- The string `t` in front of the character at `pos`, or at the end. -/
theorem insertStr_has (hs : s.Has i h l) (ht : t.Has j h m) (hw : h.WF)
    (hdisj : ∀ b ∈ own t, b ∉ own s)
    (hlen : l.length + m.length + 1 < 2 ^ 32) (pos : Nat) :
    Gives E (s.insertStr E i h pos j t) (Result i (own s) h (spliced l pos 0 m)) := by
  have hread : ∀ h' A', Shift (own s) A' h h' → t.read j h' 0 t.size = .ok m := by
    intro h' A' hsh
    rw [(ht.shift hsh hdisj).read (by rw [ht.size]; omega), List.drop_zero, ht.size,
      List.take_length]
  unfold insertStr
  rw [hs.size, ← spliced_clamp]
  simp only [ht.size] at hread ⊢
  exact splice_has hs hw (by omega) (by omega) hread

/-- Copies of a character. -/
theorem insertFill_has (hs : s.Has i h l) (hw : h.WF) (hlen : l.length + n + 1 < 2 ^ 32) (pos : Nat)
    (ch : BitVec 8) :
    Gives E (s.insertFill E i h pos n ch)
      (Result i (own s) h (spliced l pos 0 (List.replicate n ch))) := by
  have hn : (List.replicate n ch).length = n := List.length_replicate
  have hpos : min pos l.length + 0 ≤ l.length := Nat.min_le_right pos l.length
  unfold insertFill
  rw [hs.size, ← spliced_clamp]
  have hsplice := splice_has (E := E) (m := List.replicate n ch) hs hw hpos (by omega) fun _ _ _ =>
    rfl
  rwa [hn] at hsplice

/-- `pos + count` is not what the code computes. -/
def Wraps (l : List (BitVec 8)) (pos count : Nat) : Prop :=
  pos ≤ l.length ∧ count ≠ npos ∧ 2 ^ 32 ≤ pos + count

instance (l : List (BitVec 8)) (pos count : Nat) : Decidable (Wraps l pos count) :=
  inferInstanceAs (Decidable (_ ∧ _ ∧ _))

/-- `npos` and counts that do not wrap. -/
theorem not_wraps (hcount : count = npos ∨ pos + count < 2 ^ 32) : ¬ Wraps l pos count := by
  unfold Wraps
  omega

/-- A count that does not wrap is cut at the end. -/
theorem Has.cut (hs : s.Has i h l) (hpos : pos ≤ l.length) (hcount : ¬ Wraps l pos count) :
    s.cut pos count = min count (l.length - pos) := by
  have hle := hs.size_le
  have hlt := hs.cap_lt
  have hsize := hs.size
  unfold Wraps at hcount
  unfold Str.cut
  split
  · next hover =>
      rcases hover with rfl | hover
      · unfold npos
        omega
      · have hle := Nat.mod_le (pos + count) (2 ^ 32)
        unfold u32 at hover
        omega
  · next hcut =>
      obtain ⟨hnpos, hle⟩ := not_or.mp hcut
      rw [u32_of_lt (by omega)] at hle
      omega

/-- The bytes of a buffer in place of `count` characters. -/
theorem replaceBuf_has (hs : s.Has i h l) (hw : h.WF) (hcount : ¬ Wraps l (min pos l.length) count)
    (hlen : (spliced l pos count bs).length + 1 < 2 ^ 32) :
    Gives E (s.replaceBuf E i h pos count (some bs))
      (Result i (own s) h (spliced l pos count bs)) := by
  rw [length_spliced] at hlen
  unfold replaceBuf
  rw [if_neg (by simp), hs.size, hs.cut (Nat.min_le_right _ _) hcount, ← spliced_clamp,
    ← spliced_cut]
  exact splice_has hs hw (by omega) (by simp only [Option.getD_some]; omega) fun _ _ _ => rfl

/-! ## erasing and resizing -/

/-- The characters left of `pos` and right of `pos + count`. -/
theorem erase_has (hs : s.Has i h l) (hcount : ¬ Wraps l pos count) :
    Post ok (s.erase i h pos count) (Result i (own s) h (spliced l pos count [])) := by
  have hle := hs.size_le
  have hlt := hs.cap_lt
  have hsize := hs.size
  unfold erase
  rw [hsize]
  split
  · next hpos =>
      rw [spliced_behind l _ _ hpos]
      exact Post.pure ⟨hs, Shift.refl _ _⟩
  · next hpos =>
      rw [hs.cut (Nat.le_of_not_lt hpos) hcount, ← spliced_cut]
      have hcut : pos + min count (l.length - pos) ≤ l.length := by omega
      generalize min count (l.length - pos) = c at hcut
      have hnew : (spliced l pos c []).length = l.length - c := by
        rw [length_spliced, List.length_nil]
        omega
      obtain ⟨blk, hroom, hbytes, -⟩ := hs.room
      have hopened := Result.opened (r := (s, h)) ⟨hs, Shift.refl _ _⟩ hs (hsize ▸ hle)
      -- the end of the function, with the tail in its place
      have hrest : ∀ r, Opened i s h l.length (fun f => Gap f l pos c 0) r →
          Post ok (r.1.setSize i r.2 (sub32 r.1.size c))
            (Result i (own s) h (spliced l pos c [])) := by
        intro r hr
        rw [hr.size, hsize, sub32_of_le (by omega) (by omega), ← hnew]
        obtain ⟨blk', hroom', hgap⟩ := hr.room
        have hfill := Gap.fill (m := []) hgap (by omega)
        rw [poke_nil] at hfill
        exact (hr.change (Kept.refl _) hroom' hfill (Shift.refl _ _)).finish (by omega)
      dsimp only
      rw [u32_of_lt (by omega)]
      split
      · next hmove =>
          have hn : sub32 (sub32 l.length pos) c = l.length - (pos + c) := by
            rw [sub32_of_le (c := pos) (by omega) (by omega), sub32_of_le (by omega) (by omega)]
            omega
          have htail : (l.drop (pos + c)).take (l.length - (pos + c)) = l.drop (pos + c) := by
            rw [← List.length_drop, List.take_length]
          rw [hn, hs.read (by omega), htail]
          refine Post.pure_bind
            (Post.bind (write_safe hroom (by rw [List.length_drop]; omega)) fun r hr => hrest r ?_)
          exact hopened.change hr.1 hr.2.1 (hbytes.gap_poke hcut 0) hr.2.2
      · exact hrest (s, h)
          (hopened.change (Kept.refl _) hroom (hbytes.gap (by omega) 0) (Shift.refl _ _))

/-- More characters behind the last, before the size is set. -/
theorem Has.extend (hs : s.Has i h l) (hfits : (l ++ bs).length ≤ s.cap i) :
    Post ok (s.write i h l.length bs)
      (Opened i s h (l ++ bs).length fun f => Begins f (l ++ bs)) := by
  obtain ⟨blk, hroom, hbytes, -⟩ := hs.room
  have hopened := Result.opened (r := (s, h)) ⟨hs, Shift.refl _ _⟩ hs hfits
  rw [List.length_append] at hfits
  exact Post.mono (write_safe hroom (by omega)) fun r hr =>
    hopened.change hr.1 hr.2.1 hbytes.append hr.2.2

/-- `push_back`. -/
theorem pushBack_has (hs : s.Has i h l) (hw : h.WF) (hlen : l.length + 2 < 2 ^ 32) (ch : BitVec 8) :
    Gives E (s.pushBack E i h ch) (Result i (own s) h (l ++ [ch])) := by
  have hnew : (l ++ [ch]).length = l.length + 1 := List.length_append
  unfold pushBack
  rw [hs.size, u32_of_lt (by omega)]
  refine Post.bind (reserveFor_has hs hw hlen) fun r hr => ?_
  obtain ⟨s₁, h₁⟩ := r
  obtain ⟨⟨hs₁, hshift⟩, hcap⟩ := hr
  dsimp only at hs₁ hshift hcap ⊢
  rw [← hnew] at hcap
  rw [hs₁.size]
  refine Post.bind (hs₁.extend hcap) fun r₂ hr₂ => ?_
  rw [hr₂.size, hs₁.size, u32_of_lt (by omega), ← hnew]
  exact Post.mono (hr₂.finish le_rfl) fun r hr => ⟨hr.has, hshift.trans hr.shift⟩

/-- The first `n` characters, or all and copies of `ch` behind them. -/
theorem resize_has (hs : s.Has i h l) (hw : h.WF) (hn : n + 1 < 2 ^ 32) (ch : BitVec 8) :
    Gives E (s.resize E i h n ch)
      (Result i (own s) h (l.take n ++ List.replicate (n - l.length) ch)) := by
  have hle := hs.size_le
  have hsize := hs.size
  obtain ⟨blk, hroom, hbytes, -⟩ := hs.room
  unfold resize
  rw [hsize]
  split
  · next hshort =>
      have htake : (l.take n).length = n := by
        rw [List.length_take]
        omega
      have hset : Gives E (s.setSize i h (l.take n).length) _ :=
        setSize_has hroom (hbytes.take n) hs.cap_lt (by omega)
      rw [htake] at hset
      rw [Nat.sub_eq_zero_of_le hshort.le, List.replicate_zero, List.append_nil]
      exact Post.mono hset fun r hr => hr.1
  · split
    · next hlong =>
        have hnew : (l ++ List.replicate (n - l.length) ch).length = n := by
          rw [List.length_append, List.length_replicate]
          omega
        rw [List.take_of_length_le hlong.le]
        refine Post.bind (reserveFor_has hs hw hn) fun r hr => ?_
        obtain ⟨s₁, h₁⟩ := r
        obtain ⟨⟨hs₁, hshift⟩, hcap⟩ := hr
        dsimp only at hs₁ hshift hcap ⊢
        rw [hs₁.size]
        refine Post.bind (hs₁.extend (hnew.le.trans hcap)) fun r₂ hr₂ => ?_
        have hset : Gives E (r₂.1.setSize i r₂.2 _) _ := hr₂.finish le_rfl
        rw [hnew] at hset
        exact Post.mono hset fun r hr => ⟨hr.has, hshift.trans hr.shift⟩
    · next hne =>
        have heq : n = l.length := by omega
        rw [heq, List.take_length, Nat.sub_self, List.replicate_zero, List.append_nil]
        exact Post.pure ⟨hs, Shift.refl _ _⟩

/-! ## constructors -/

/-- The empty string. -/
theorem ctor_has (h : Heap) : Post ok (ctor E i h) (Result i ∅ h []) := by
  have hlen : 0 + [(0 : BitVec 8)].length ≤ ssoCapacity + 1 := by decide
  simp only [ctor, writeSSO, if_pos hlen, bind, Except.bind, pure, Except.pure]
  refine Post.pure
    ⟨has_sso rfl (fun k x hk => by simp at hk) (poke_self (E.raw i) 0 0) rfl (Nat.zero_le _) h, ?_⟩
  rw [own_sso (j := i) rfl]
  exact Shift.refl ∅ h

/-- `string(const char *)`. -/
theorem ctorCstr_has {cs : List (BitVec 8)} (hw : h.WF)
    (hlen : (text (some cs)).length + 1 < 2 ^ 32) :
    Gives E (ctorCstr E i h (some cs)) (Result i ∅ h (text (some cs))) := by
  unfold ctorCstr
  rw [if_neg (by simp)]
  split
  · next hshort => exact intoSSO_has (Shift.refl ∅ h) hshort
  · exact intoHeap_has (fun _ => .ok (text (some cs) ++ [0])) hw (Nat.le_refl _) hlen
      fun _ _ _ => ⟨_, rfl, List.prefix_append _ _, by simp⟩

/-- `string(const char *, size_type)`. -/
theorem ctorBuf_has {bs : List (BitVec 8)} (hw : h.WF) (hlen : bs.length + 1 < 2 ^ 32) :
    Gives E (ctorBuf E i h (some bs)) (Result i ∅ h bs) := by
  unfold ctorBuf
  rw [if_neg (by simp)]
  split
  · next hshort => exact intoSSO_has (Shift.refl ∅ h) hshort
  · exact intoHeap_has (fun _ => .ok bs) hw (Nat.le_refl _) hlen fun _ _ _ =>
      ⟨_, rfl, List.prefix_rfl, Nat.le_succ _⟩

/-- `string(size_type, char)`. -/
theorem ctorFill_has (hw : h.WF) (hlen : n + 1 < 2 ^ 32) (ch : BitVec 8) :
    Gives E (ctorFill E i h n ch) (Result i ∅ h (List.replicate n ch)) := by
  have hn : (List.replicate n ch).length = n := List.length_replicate
  unfold ctorFill
  split
  · next hshort => exact intoSSO_has (Shift.refl ∅ h) (hn.le.trans hshort)
  · have hheap := intoHeap_has (E := E) (i := i) (s := fresh E i) (c := n)
      (fun _ => .ok (List.replicate n ch)) hw hn.le hlen
      fun _ _ _ => ⟨_, rfl, List.prefix_rfl, hn.le.trans (Nat.le_succ n)⟩
    rwa [hn] at hheap

/-- A copy has the contents of its source. -/
theorem copyCtor_has (ht : t.Has j h m) (hw : h.WF) :
    Gives E (copyCtor E i h j t) (Result i ∅ h m) := by
  have hle := ht.size_le
  have hlt := ht.cap_lt
  unfold copyCtor
  rw [ht.size] at hle ⊢
  split
  · next hsso =>
      rw [Str.cap, if_pos hsso] at hle
      rw [ht.read (Nat.zero_add _).le, List.drop_zero, List.take_length]
      exact Post.pure_bind (intoSSO_has (Shift.refl ∅ h) hle)
  · next hsso =>
      rw [Str.cap, if_neg hsso] at hle hlt
      refine intoHeap_has (fun h => t.read j h 0 (m.length + 1)) hw hle hlt fun h' A' hs' =>
        ⟨m ++ [0], ?_, List.prefix_append _ _, ?_⟩
      · rw [(ht.shift hs' (by simp)).read_nul (Nat.zero_add _).le, List.drop_zero,
          List.take_of_length_le]
        rw [List.length_append, List.length_singleton]
      · rw [List.length_append, List.length_singleton]
        exact Nat.succ_le_succ hle

/-! ## the small mutators -/

/-- `clear`. -/
theorem clear_has (hs : s.Has i h l) : Post ok (s.clear i h) (Result i (own s) h []) := by
  obtain ⟨blk, hroom, -⟩ := hs.room
  have hlen : 0 + [(0 : BitVec 8)].length ≤ ssoCapacity + 1 := by decide
  have hempty {t : Str} {h' : Heap} (hfree : Shift (own s) ∅ h h') (hd : t.data = .sso i)
    (hsso : t.sso = poke s.sso 0 [0]) (hsize : t.size = 0) :
      Result i (own s) h [] (t, h') := by
    refine ⟨has_sso (l := []) hd (fun k x hk => by simp at hk) (hsso ▸ poke_self s.sso 0 0) hsize
      (Nat.zero_le _) h', ?_⟩
    rw [own_sso hd]
    exact hfree
  unfold clear
  refine Post.bind (release_safe hroom) fun h₁ hfree => ?_
  simp only [writeSSO, if_pos hlen, bind, Except.bind, pure, Except.pure]
  split
  · next hsso => exact Post.pure (hempty hfree (isSSO_iff.mp hsso) rfl rfl)
  · exact Post.pure (hempty hfree rfl rfl rfl)

/-- `pop_back`. -/
theorem popBack_has (hs : s.Has i h l) :
    Post ok (s.popBack i h) (Result i (own s) h l.dropLast) := by
  obtain ⟨blk, hroom, hbytes, -⟩ := hs.room
  have hle := hs.size_le
  have hsize := hs.size
  unfold popBack
  rw [hsize]
  split
  · have hset : Post ok (s.setSize i h l.dropLast.length) _ :=
      setSize_has hroom (List.dropLast_eq_take ▸ hbytes.take _) hs.cap_lt
        (by rw [List.length_dropLast]; omega)
    rw [List.length_dropLast] at hset
    exact Post.mono hset fun r hr => hr.1
  · next hnone =>
      have hnil : l = [] := List.length_eq_zero_iff.mp (by omega)
      subst hnil
      exact Post.pure ⟨hs, Shift.refl _ _⟩

/-- `shrink_to_fit`. -/
theorem shrinkToFit_has (hs : s.Has i h l) (hw : h.WF) :
    Gives E (s.shrinkToFit E i h) (Result i (own s) h l) := by
  obtain ⟨blk, hroom, -⟩ := hs.room
  have hle := hs.size_le
  have hlt := hs.cap_lt
  have hread {h' : Heap} (ht : s.Has i h' l) : s.read i h' 0 l.length = .ok l := by
    rw [ht.read (Nat.zero_add _).le, List.drop_zero, List.take_length]
  unfold shrinkToFit
  rw [hs.size] at hle ⊢
  split
  · exact Post.pure ⟨hs, Shift.refl _ _⟩
  · next hsso =>
      obtain ⟨b, hd, hb, hcap⟩ := hroom.heap hsso
      rw [Str.cap, if_neg hsso] at hle hlt
      split
      · exact Post.pure ⟨hs, Shift.refl _ _⟩
      · split
        · next hshort =>
            rw [hread hs, hd, own_heap hd]
            exact Post.pure_bind
              (Post.bind (deallocate_safe hb) fun h₁ hfree => intoSSO_has hfree hshort)
        · refine Post.bind (allocate_gives hw (Nat.lt_of_le_of_lt (Nat.succ_le_succ hle) hlt))
            fun r hr => ?_
          obtain ⟨p, h₁⟩ := r
          obtain ⟨hnone, halloc, blk₁, hblk₁, hsize₁⟩ := hr
          dsimp only at hnone halloc hblk₁ ⊢
          have hpb : p ≠ b := by
            rintro rfl
            simp [hnone] at hb
          rw [hread (hs.shift halloc (by simp))]
          refine Post.pure_bind (Post.bind (Heap.write_safe hblk₁ (by omega)) fun h₂ hh₂ => ?_)
          obtain ⟨hcopy, hblk₂⟩ := hh₂
          refine Post.bind (Heap.write_safe hblk₂ (by simp; omega)) fun h₃ hh₃ => ?_
          obtain ⟨hnul, hblk₃⟩ := hh₃
          have hfill := hcopy.trans hnul
          have hb₃ : h₃.block b = some blk :=
            hfill.same b (by simpa using hpb.symm) _ (halloc.same b (by simp) _ hb)
          rw [hd, own_heap hd]
          refine Post.bind (deallocate_safe hb₃) fun h₄ hfree => ?_
          have hblk₄ := hfree.same p (by simpa using hpb) _ hblk₃
          have hbytes : Begins (poke (poke blk₁.byte 0 l) l.length [0]) l :=
            (begins_poke blk₁.byte l).poke (Nat.le_refl _)
          exact Post.mono
            (setHeap_has (halloc.exchange hfill hfree) hblk₄ hbytes (Nat.le_refl _) (by rw [hsize₁])
            (Nat.lt_of_le_of_lt (Nat.succ_le_succ hle) hlt)) fun r hr => hr.1

/-- **`substr`**: the `count` characters at `pos`, or those up to the end. -/
theorem substr_has {k : Nat} (hs : s.Has i h l) (hw : h.WF)
    (hcount : l.length ≤ pos ∨ ¬ Wraps l pos count) :
    Gives E (s.substr E i h k pos count) (Result k ∅ h ((l.drop pos).take count)) := by
  have hsize := hs.size
  have hle := hs.size_le
  have hlt := hs.cap_lt
  unfold substr
  rw [hsize]
  split
  · next hpos =>
      rw [List.drop_eq_nil_of_le hpos, List.take_nil]
      exact ctor_has h
  · next hpos =>
      have hcut := hs.cut (Nat.le_of_not_le hpos) (hcount.resolve_left hpos)
      have hlen : ((l.drop pos).take count).length = s.cut pos count := by
        rw [List.length_take, List.length_drop, hcut]
      have hread : ∀ h' A', Shift ∅ A' h h' →
          s.read i h' pos (s.cut pos count) = .ok ((l.drop pos).take count) := by
        intro h' A' hsh
        rw [hcut, (hs.shift hsh fun b _ => by simp).read (by omega), take_cut]
      split
      · next hshort =>
          rw [hread h ∅ (Shift.refl ∅ h)]
          exact Post.pure_bind (intoSSO_has (Shift.refl ∅ h) (by omega))
      · have hheap := intoHeap_has (E := E) (i := k) (s := fresh E k) (l := (l.drop pos).take count)
          (c := s.cut pos count)
          (fun h => s.read i h pos (s.cut pos count)) hw (by omega) (by omega)
          fun h' A' hsh => ⟨_, hread h' A' hsh, List.prefix_rfl, by omega⟩
        rwa [hlen] at hheap

/-- **`copy`**: the same characters. -/
theorem copy_has (hs : s.Has i h l) (count pos : Nat) :
    s.copy i h count pos = .ok ((l.drop pos).take count) := by
  unfold copy
  rw [hs.size]
  split
  · next hpos => rw [List.drop_eq_nil_of_le hpos, List.take_nil]
  · rw [hs.read (by omega), take_cut]

/-! ## assignments -/

/-- A result after other blocks have changed. -/
theorem Result.after {r : Str × Heap} (hr : Result i A' h' l r) (hs : Shift A A' h h') :
    Result i A h l r := ⟨hr.has, hs.trans hr.shift⟩

/-- New contents, with a terminator, at the front of the buffer. -/
theorem front_has {f : Nat → BitVec 8} {r : Str × Heap} (hkept : Kept s r.1)
    (hroom : r.1.Room i r.2 ⟨n, poke f 0 (m ++ [0])⟩)
    (hshift : Shift (own s) (own s) h r.2) (hm : m.length ≤ s.cap i) (hcap : s.cap i + 1 < 2 ^ 32) :
    Result i (own s) h m ({ r.1 with size := m.length }, r.2) := by
  have hcap₁ : r.1.cap i = s.cap i := hkept.cap
  have hbytes := (begins_poke f (m ++ [0])).take m.length
  rw [List.take_left] at hbytes
  refine ⟨⟨⟨_, hroom, hbytes, poke_append ..⟩, rfl, ?_, ?_⟩, ?_⟩
  · show m.length ≤ r.1.cap i
    omega
  · show r.1.cap i + 1 < 2 ^ 32
    omega
  · show Shift (own s) (own r.1) h r.2
    rw [hkept.own]
    exact hshift

/-- The contents of another string. -/
theorem copyAssign_has (hs : s.Has i h l) (ht : t.Has j h m) (hw : h.WF)
    (hdisj : ∀ b ∈ own t, b ∉ own s) :
    Gives E (s.copyAssign E i h j t) (Result i (own s) h m) := by
  obtain ⟨blk, hroom, -⟩ := hs.room
  have hlt := hs.cap_lt
  have htle := ht.size_le
  have htlt := ht.cap_lt
  have hread : ∀ h', t.Has j h' m → t.read j h' 0 m.length = .ok m := by
    intro h' ht'
    rw [ht'.read (Nat.zero_add _).le, List.drop_zero, List.take_length]
  have hread_nul : ∀ h', t.Has j h' m → t.read j h' 0 (m.length + 1) = .ok (m ++ [0]) := by
    intro h' ht'
    rw [ht'.read_nul (Nat.zero_add _).le, List.drop_zero,
      List.take_of_length_le (by rw [List.length_append]; exact Nat.le_refl _)]
  unfold copyAssign
  rw [ht.size] at htle ⊢
  split
  · next hsso =>
      rw [Str.cap, if_pos hsso] at htle
      refine Post.bind (release_safe hroom) fun h₁ hfree => ?_
      rw [hread h₁ (ht.shift hfree hdisj)]
      exact Post.pure_bind (intoSSO_has hfree htle)
  · next hsso =>
      rw [Str.cap, if_neg hsso] at htle htlt
      split
      · next hfits =>
          have hcap : s.cap i = s.capacity := if_neg hfits.1
          rw [hread_nul h ht]
          refine Post.pure_bind
            (Post.bind (write_safe hroom (by rw [List.length_append, List.length_singleton]; omega))
            fun r hr => ?_)
          obtain ⟨hkept, hroom₁, hshift⟩ := hr
          have hcap₁ : r.1.cap i = s.cap i := hkept.cap
          have hbytes := (begins_poke blk.byte (m ++ [0])).take m.length
          rw [List.take_left] at hbytes
          refine Post.mono (setSize_has hroom₁ hbytes (by omega) (by omega)) fun q hq =>
            hq.1.after ?_
          rw [hkept.own]
          exact hshift
      · refine Post.bind (release_safe hroom) fun h₁ hfree => ?_
        refine Post.mono (intoHeap_has (fun h => t.read j h 0 (m.length + 1))
          (hfree.wf hw) htle htlt fun h' A' hs' => ?_)
          fun r hr => hr.after hfree
        exact ⟨_, hread_nul h' ((ht.shift hfree hdisj).shift hs' (by simp)), List.prefix_append _ _,
          by rw [List.length_append, List.length_singleton]; omega⟩

/-- A move passes on the contents as they are represented, and leaves an empty string. -/
structure Handed (i j : Nat) (h : Heap) (t : Str) (m : List (BitVec 8)) (r : Str × Str) : Prop where
  has : r.1.Has i h m
  owned : own r.1 = own t
  empty : r.2.Has j h []
  free : own r.2 = ∅

/-- A move hands the contents over. -/
theorem moveFrom_has (ht : t.Has j h m) : Post ok (s.moveFrom i h j t) (Handed i j h t m) := by
  obtain ⟨blk, hroom, hbytes, hnul⟩ := ht.room
  have hle := ht.size_le
  have hlt := ht.cap_lt
  have hsize := ht.size
  have hend : 0 + [(0 : BitVec 8)].length ≤ ssoCapacity + 1 := by decide
  have hempty : Has j { t with data := .sso j, size := 0, sso := poke t.sso 0 [0] } h [] :=
    has_sso rfl (fun k x hk => by simp at hk) (poke_self t.sso 0 0) rfl (Nat.zero_le _) h
  unfold moveFrom
  dsimp only
  split
  · next hsso =>
      rw [Str.cap, if_pos hsso] at hle
      have hread : t.read j h 0 (t.size + 1) = .ok (m ++ [0]) := by
        rw [ht.read_nul (by omega), List.drop_zero, List.take_of_length_le]
        rw [List.length_append, List.length_singleton]
        omega
      have hlen : 0 + (m ++ [0]).length ≤ ssoCapacity + 1 := by
        rw [List.length_append, List.length_singleton]
        omega
      have htake := (begins_poke s.sso (m ++ [0])).take m.length
      rw [List.take_left] at htake
      rw [hread]
      simp only [writeSSO, if_pos hend, if_pos hlen, bind, Except.bind, pure, Except.pure]
      have hnew :
          Has i
          { data := .sso i, size := t.size, capacity := t.capacity, sso := poke s.sso 0 (m ++ [0]) }
          h m := by
        refine has_sso rfl htake (poke_append ..) ?_ (hsize ▸ hle) h
        exact hsize
      refine Post.pure ⟨hnew, ?_, hempty, own_sso rfl⟩
      rw [own_sso (isSSO_iff.mp hsso), own_sso rfl]
  · next hsso =>
      obtain ⟨b, hd, hb, hcap⟩ := hroom.heap hsso
      rw [Str.cap, if_neg hsso] at hle hlt
      simp only [writeSSO, if_pos hend, bind, Except.bind, pure, Except.pure]
      refine Post.pure
        ⟨⟨⟨blk, ⟨by simp only [buffer, hd]; exact hb, ?_⟩, hbytes, hnul⟩, hsize, ?_, ?_⟩, rfl,
        hempty, own_sso rfl⟩
      · simpa [Str.cap, isSSO, hd] using hcap
      · simpa [Str.cap, isSSO, hd] using hle
      · simpa [Str.cap, isSSO, hd] using hlt

/-- The contents of a C string. -/
theorem assignCstr_has (hs : s.Has i h l) (hw : h.WF) (cs : List (BitVec 8))
    (hlen : (text (some cs)).length + 1 < 2 ^ 32) :
    Gives E (s.assignCstr E i h (some cs)) (Result i (own s) h (text (some cs))) := by
  obtain ⟨blk, hroom, -⟩ := hs.room
  have hlt := hs.cap_lt
  unfold assignCstr
  rw [if_neg (by simp)]
  generalize text (some cs) = m at hlen ⊢
  split
  · next hshort => exact Post.bind (release_safe hroom) fun h₁ hfree => intoSSO_has hfree hshort
  · split
    · next hfits =>
        have hcap : s.cap i = s.capacity := if_neg hfits.1
        refine Post.bind
          (write_safe hroom (by rw [List.length_append, List.length_singleton]; omega)) fun r hr =>
          ?_
        exact Post.pure (front_has hr.1 hr.2.1 hr.2.2 (by omega) hlt)
    · refine Post.bind (release_safe hroom) fun h₁ hfree => ?_
      exact Post.mono (intoHeap_has (fun _ => .ok (m ++ [0])) (hfree.wf hw) (Nat.le_refl _) hlen
        fun _ _ _ =>
          ⟨_, rfl, List.prefix_append _ _, by rw [List.length_append, List.length_singleton]⟩)
          fun r hr => hr.after hfree

end Str

end Doors.Libcxx
