import Mathlib.Data.List.TakeWhile
import Doors.Libcxx.StringEdit

/-!
# Doors.Libcxx.StringSelf

Strings edited with themselves.

The argument of a call may be the string itself, or point into its characters; while the
call moves characters or takes a new block, the argument moves with them or stays behind.
`memcpyFrom` is `memcpy` as it is written, byte by byte from the first on, through a pointer
that may lead to the buffer it writes to.

What such a `memcpy` leaves is again a list (`copied`), so every call has a result in the
store of lists, and it is right exactly if that list is what a copy of the argument holds
(`SelfEdit.Clean`).
-/

namespace Doors.Libcxx

open Run

namespace Str

/-- `memcpy(data_ + dst, p + src, n)`. -/
def memcpyFrom (i : Nat) (p : Ptr) : Nat → Nat → Nat → Str → Heap → Except Stop (Str × Heap)
  | 0, _, _, s, h => .ok (s, h)
  | n + 1, dst, src, s, h => do
      let bs ← read i { s with data := p } h src 1
      let (s, h) ← s.write i h dst bs
      memcpyFrom i p n (dst + 1) (src + 1) s h

section

variable (E : Env) (i : Nat) (s : Str) (h : Heap)

/-- `insert(size_type, const string &)` with the string itself, whose `data_` is the new one
when the characters are copied. -/
def insertSelf (pos : Nat) : Except Stop (Str × Heap) := do
  let (s', h) ← s.openGap E i h (min pos s.size) 0 s.size
  let (s', h) ← memcpyFrom i s'.data s'.size (min pos s.size) 0 s' h
  s'.setSize i h (u32 (s'.size + s'.size))

/-- `replace(size_type, size_type, const char *, size_type)` with the `n` characters at
`data_ + k`, as `data_` is before. -/
def replaceBufOwn (pos count k n : Nat) : Except Stop (Str × Heap) := do
  let (s', h) ← s.openGap E i h (min pos s.size) (s.cut (min pos s.size) count) n
  let (s', h) ← memcpyFrom i s.data n (min pos s.size) k s' h
  s'.setSize i h (u32 (sub32 s'.size (s.cut (min pos s.size) count) + n))

/-- The C string at `data_ + k`. -/
def textAt (k : Nat) : Except Stop (List (BitVec 8)) := do
  let bs ← s.read i h k (s.size + 1 - k)
  return text (some bs)

/-- `assign(const char *)` with `data_ + k`. -/
def assignOwn (k : Nat) : Except Stop (Str × Heap) := do
  let cs ← s.textAt i h k
  if cs.length ≤ ssoCapacity then do
    let h ← s.release i h
    -- `setSSO`, from where `data_` pointed to
    let (s', h) ← memcpyFrom i s.data cs.length 0 k { s with data := .sso i } h
    let s' ← s'.writeSSO cs.length [0]
    return ({ s' with size := cs.length, capacity := ssoCapacity }, h)
  else if ¬ s.isSSO i ∧ s.capacity ≥ cs.length then do
    let (s', h) ← memcpyFrom i s.data (cs.length + 1) 0 k s h
    return ({ s' with size := cs.length }, h)
  else do
    let h ← s.release i h
    let (b, h) ← allocate E cs.length h
    let (s', h) ← memcpyFrom i s.data (cs.length + 1) 0 k { s with data := .heap b } h
    s'.setHeap i h b cs.length cs.length

end

/-! ## what `memcpy` leaves -/

section

variable {f : Nat → BitVec 8} {n dst src y : Nat}

/-- The cells after `memcpy` within one buffer. -/
def slide : (Nat → BitVec 8) → Nat → Nat → Nat → Nat → BitVec 8
  | f, 0, _, _ => f
  | f, n + 1, dst, src => slide (poke f dst [f src]) n (dst + 1) (src + 1)

/-- One byte. -/
theorem poke_one (f : Nat → BitVec 8) (off : Nat) (x : BitVec 8) (y : Nat) :
    poke f off [x] y = if y = off then x else f y := by
  split
  · next h =>
      subst h
      exact poke_inside (k := 0) rfl
  · next h =>
      rcases Nat.lt_or_gt_of_ne h with hlt | hgt
      · exact poke_before hlt
      · exact poke_behind hgt

/-- The next place in the pattern. -/
theorem succ_mod (x d : Nat) : (x + 1) % d = if x % d + 1 = d then 0 else x % d + 1 := by
  rcases Nat.eq_zero_or_pos d with rfl | hd
  · rw [Nat.mod_zero, Nat.mod_zero, if_neg (Nat.succ_ne_zero x)]
  · have hlt := Nat.mod_lt x hd
    rw [← Nat.mod_add_mod]
    split
    · next h => rw [h, Nat.mod_self]
    · next h => exact Nat.mod_eq_of_lt (by omega)

/-- A source that is `d` cells before the destination is copied again from its start after
every `d` bytes, and one that is not before it is copied as it is. -/
theorem slide_eq : slide f n dst src y = if dst ≤ y ∧
    y < dst + n then f (src + (y - dst) % (dst - src)) else f y := by
  induction n generalizing f dst src with
  | zero =>
      rw [if_neg (by omega)]
      rfl
  | succ n ih =>
      rw [slide, ih, Nat.add_sub_add_right]
      by_cases hin : dst + 1 ≤ y ∧ y < dst + 1 + n
      · rw [if_pos hin, if_pos (by omega), poke_one,
          show y - dst = y - (dst + 1) + 1 by omega, succ_mod]
        generalize (y - (dst + 1)) % (dst - src) = q
        by_cases hwrap : q + 1 = dst - src
        · rw [if_pos hwrap, if_pos (by omega), Nat.add_zero]
        · rw [if_neg hwrap, if_neg (by omega), Nat.add_right_comm, Nat.add_assoc]
      · rw [if_neg hin, poke_one]
        by_cases hy : y = dst
        · rw [if_pos hy, if_pos (by omega), hy, Nat.sub_self, Nat.zero_mod, Nat.add_zero]
        · rw [if_neg hy, if_neg (by omega)]

/-- An overlapping copy upwards repeats the bytes between the two places. -/
theorem slide_eq_poke :
    slide f n dst src = poke f dst ((List.range n).map fun x => f (src + x % (dst - src))) := by
  funext y
  rw [slide_eq]
  split
  · next hin =>
      have hget : ((List.range n).map fun x => f (src + x % (dst - src)))[y - dst]? =
          some (f (src + (y - dst) % (dst - src))) := by
        rw [List.getElem?_map, List.getElem?_range (by omega)]
        rfl
      rw [show y =
        dst + (y - dst) by omega, poke_inside hget, show dst + (y - dst) - dst = y - dst by omega]
  · next hout =>
      rcases Nat.lt_or_ge y dst with hlt | hge
      · rw [poke_before hlt]
      · rw [poke_behind (by rw [List.length_map, List.length_range]; omega)]

end

variable {E : Env} {i j k n c off b dst src pos count : Nat} {s s' t : Str} {h h' : Heap}
  {l m bs : List (BitVec 8)} {blk : Block}
  {ok : Stop → Prop}

/-- `memcpy` within the buffer. -/
theorem memcpyFrom_own (hr : s.Room i h blk) (hdst : dst + n ≤ s.cap i + 1)
    (hsrc : src + n ≤ s.cap i + 1) :
    Post ok (memcpyFrom i s.data n dst src s h) fun r =>
      Kept s r.1 ∧ r.1.Room i r.2 ⟨blk.size, slide blk.byte n dst src⟩ ∧
        Shift (own s) (own s) h r.2 := by
  induction n generalizing s h blk dst src with
  | zero => exact Post.pure ⟨Kept.refl s, hr, Shift.refl _ _⟩
  | succ n ih =>
      unfold memcpyFrom
      have hread : read i { s with data := s.data } h src 1 = .ok [blk.byte src] := by
        rw [show ({ s with data := s.data } : Str) = s from rfl, read_eq hr (by omega)]
        rfl
      rw [hread]
      refine Post.pure_bind
        (Post.bind (write_safe hr (by rw [List.length_singleton]; omega)) fun q hq => ?_)
      obtain ⟨hkept, hroom, hshift⟩ := hq
      have hcap : q.1.cap i = s.cap i := hkept.cap
      have hrest : Post ok (memcpyFrom i q.1.data n (dst + 1) (src + 1) q.1 q.2) _ :=
        ih hroom (by omega) (by omega)
      rw [hkept.data, hkept.own] at hrest
      exact Post.mono hrest fun r hr => ⟨hkept.trans hr.1, hr.2.1, hshift.trans hr.2.2⟩

/-- The first byte. -/
theorem poke_head (f : Nat → BitVec 8) (off : Nat) (x : BitVec 8) (bs : List (BitVec 8)) :
    poke f off (x :: bs) off = x :=
  poke_inside (k := 0) rfl

/-- One byte and the rest. -/
theorem poke_cons (f : Nat → BitVec 8) (off : Nat) (x : BitVec 8) (bs : List (BitVec 8)) :
    poke (poke f off [x]) (off + 1) bs = poke f off (x :: bs) := by
  funext y
  rcases Nat.lt_trichotomy y off with hlt | rfl | hgt
  · rw [poke_before (by omega), poke_before hlt, poke_before hlt]
  · rw [poke_before (Nat.lt_succ_self _), poke_head, poke_head]
  · by_cases hin : y < off + 1 + bs.length
    · have hget : bs[y - (off + 1)]? = some bs[y - (off + 1)] := List.getElem?_eq_getElem (by omega)
      have hget' : (x :: bs)[y - off]? = some bs[y - (off + 1)] := by
        rw [show y - off = y - (off + 1) + 1 by omega, List.getElem?_cons_succ]
        exact hget
      have hleft : poke (poke f off [x]) (off + 1) bs (off + 1 + (y - (off + 1))) = _ :=
        poke_inside hget
      have hright : poke f off (x :: bs) (off + (y - off)) = _ := poke_inside hget'
      rw [show off + 1 + (y - (off + 1)) = y by omega] at hleft
      rw [show off + (y - off) = y by omega] at hright
      rw [hleft, hright]
    · rw [poke_behind (by omega), poke_behind (by rw [List.length_singleton]; omega),
        poke_behind (by rw [List.length_cons]; omega)]

/-- What a write through a pointer to a block leaves of the members. -/
theorem write_heap (hd : s.data = .heap b) : Post (fun _ => True) (s.write i h off bs) fun r =>
    r.1 = s := by
  simp only [write, hd]
  exact Post.bind (Post.trivial _) fun _ _ => Post.pure rfl

/-- `memcpy` from `sso_` to a block. -/
theorem memcpyFrom_sso (hd : s.data = .heap b) (hr : s.Room i h blk) (hdst : dst + n ≤ s.cap i + 1)
    (hsrc : src + n ≤ ssoCapacity + 1) :
    Post ok (memcpyFrom i (.sso i) n dst src s h) fun r =>
      Kept s r.1 ∧
        r.1.Room i r.2 ⟨blk.size, poke blk.byte dst ((List.range n).map fun x => s.sso (src + x))⟩ ∧
        Shift (own s) (own s) h r.2 := by
  induction n generalizing h blk dst src with
  | zero =>
      refine Post.pure ⟨Kept.refl s, ?_, Shift.refl _ _⟩
      rw [List.range_zero, List.map_nil, poke_nil]
      exact hr
  | succ n ih =>
      unfold memcpyFrom
      have hread : read i { s with data := .sso i } h src 1 = .ok [s.sso src] := by
        simp only [read, buffer, if_true]
        rw [if_pos (by omega)]
        rfl
      rw [hread]
      have hlen : dst + [s.sso src].length ≤ s.cap i + 1 := by
        rw [List.length_singleton]
        omega
      refine Post.pure_bind (Post.bind ((write_safe hr hlen).and (write_heap hd)) fun q hq => ?_)
      obtain ⟨s₁, h₁⟩ := q
      obtain ⟨⟨-, hroom, hshift⟩, hsame⟩ := hq
      dsimp only at hroom hshift hsame ⊢
      subst hsame
      refine Post.mono (ih hroom (by omega) (by omega)) fun r hr => ⟨hr.1, ?_, hshift.trans hr.2.2⟩
      have hroom' := hr.2.1
      rw [poke_cons] at hroom'
      rw [List.range_succ_eq_map, List.map_cons, List.map_map]
      simpa only [Nat.add_zero, Function.comp_def, Nat.add_assoc, Nat.add_comm 1] using hroom'

/-- `memcpy` from a block that is gone. -/
theorem memcpyFrom_dead (hb : h.block b = none) (hn : 0 < n) :
    memcpyFrom i (.heap b) n dst src s h = .error .overrun := by
  obtain ⟨n, rfl⟩ := Nat.exists_eq_succ_of_ne_zero hn.ne'
  unfold memcpyFrom
  simp only [read, buffer, hb]
  rfl

/-! ## where `data_` is after the room is made -/

/-- A write keeps the buffer where it is. -/
theorem write_data : Post (fun _ => True) (s.write i h off bs) fun r => r.1.data = s.data := by
  unfold write writeSSO
  cases hd : s.data with
  | sso o =>
      dsimp only
      split
      · split
        · exact Post.pure rfl
        · exact Post.throw True.intro
      · exact Post.throw True.intro
  | heap b => exact Post.bind (Post.trivial _) fun h _ => Post.pure hd

/-- After `grow` the characters are in the block that was the next one, and `sso_` is as
it was. -/
structure Moved (s : Str) (h : Heap) (s' : Str) : Prop where
  data : s'.data = .heap h.next
  sso : s'.sso = s.sso

/-- Growing moves the buffer. -/
theorem grow_moves : Post (fun _ => True) (s.grow E i h n) fun r => Moved s h r.1 := by
  have halloc : ∀ c, Post (fun _ => True) (allocate E c h) fun q => q.1 = h.next := by
    intro c
    unfold allocate
    split
    · exact Post.throw True.intro
    · exact Post.pure rfl
  have hset : ∀ h' c, Post (fun _ => True) (s.setHeap i h' h.next s.size c) fun r =>
      Moved s h r.1 := by
    intro h' c
    refine Post.mono (write_heap (b := h.next) rfl) fun r hr => ?_
    rw [hr]
    exact ⟨rfl, rfl⟩
  unfold grow
  refine Post.bind (halloc _) fun q hq => ?_
  obtain ⟨p, h₁⟩ := q
  dsimp only at hq ⊢
  subst hq
  split
  · exact Post.bind (Post.trivial _) fun _ _ => Post.bind (Post.trivial _) fun _ _ =>
      Post.bind (Post.trivial _) fun _ _ =>
      Post.bind (Post.trivial _) fun _ _ => hset _ _
  · exact Post.bind (Post.trivial _) fun _ _ => Post.bind (Post.trivial _) fun _ _ =>
      Post.bind (Post.trivial _) fun _ _ => hset _ _

/-- A gap that fits keeps the buffer where it is. -/
theorem openGap_stays (hcap : u32 (sub32 s.size count + n) ≤ s.cap i) :
    Post (fun _ => True) (s.openGap E i h pos count n) fun r => r.1.data = s.data := by
  unfold openGap reserveFor
  rw [if_pos hcap]
  refine Post.pure_bind ?_
  dsimp only
  split
  · exact Post.bind (Post.trivial _) fun _ _ => write_data
  · exact Post.pure rfl

/-- A gap that does not fit moves it. -/
theorem openGap_moves (hcap : s.cap i < u32 (sub32 s.size count + n)) :
    Post (fun _ => True) (s.openGap E i h pos count n) fun r => Moved s h r.1 := by
  have hgrow : s.reserveFor E i h (u32 (sub32 s.size count + n)) =
      s.grow E i h (u32 (sub32 s.size count + n)) := by
    unfold reserveFor
    rw [if_neg (Nat.not_le.mpr hcap), if_neg]
    rintro ⟨hsso, hle⟩
    rw [Str.cap, if_pos hsso] at hcap
    omega
  unfold openGap
  rw [hgrow]
  refine Post.bind grow_moves fun q hq => ?_
  dsimp only
  split
  · refine Post.bind (Post.trivial _) fun bs _ => Post.mono (write_heap hq.data) fun r hr => ?_
    rw [hr]
    exact hq
  · exact Post.pure hq

/-! ## what is copied -/

/-- The character that is `y` cells behind `data_` when there is room for `n` in place of
`count`. -/
def opened (l : List (BitVec 8)) (pos count n y : Nat) : BitVec 8 :=
  l.getD (if pos + n ≤ y ∧ y < l.length - count + n then y - n + count else y) 0

/-- What `memcpy` copies to `pos` from the `n` cells at `k`. -/
def copied (l : List (BitVec 8)) (pos count n k : Nat) : List (BitVec 8) :=
  (List.range n).map fun x => opened l pos count n (k + x % (pos - k))

/-- As many characters as were asked for. -/
theorem length_copied (l : List (BitVec 8)) (pos count n k : Nat) :
    (copied l pos count n k).length = n := by
  simp [copied]

/-- A cell that is known by its character. -/
theorem getD_cell {f : Nat → BitVec 8} {y z : Nat} (hy : y < l.length)
    (h : ∀ x, l[y]? = some x → f z = x) : f z = l.getD y 0 := by
  rw [h _ (List.getElem?_eq_getElem hy), List.getD_eq_getElem?_getD, List.getElem?_eq_getElem hy]
  rfl

/-- The cells once the gap is open. -/
theorem opened_cell {f : Nat → BitVec 8} {y : Nat} (hf : Gap f l pos count n)
    (hcount : pos + count ≤ l.length) (hy : y < l.length) :
    f y = opened l pos count n y := by
  unfold opened
  split
  · next hmoved =>
      refine getD_cell (by omega) fun x hx => ?_
      rw [← hf.behind _ x (by omega) hx, show y - n + count - count + n = y by omega]
  · next hkept =>
      refine getD_cell hy fun x hx => ?_
      rcases Nat.lt_or_ge y (pos + n) with hlt | hge
      · exact hf.before y x hlt hx
      · exact hf.tail y x (by omega) hx

/-- A cell that is read is one of the characters. -/
theorem copied_lt {x : Nat} (hpos : pos ≤ l.length) (hk : k + n ≤ l.length) (hx : x < n) :
    k + x % (pos - k) < l.length := by
  rcases Nat.eq_zero_or_pos (pos - k) with h | h
  · rw [h, Nat.mod_zero]
    omega
  · have hlt := Nat.mod_lt x h
    omega

/-- The gap filled from the same buffer. -/
theorem Opened.copy_own {r : Str × Heap}
    (hr : Opened i s h (max l.length (l.length - count + n)) (fun f => Gap f l pos count n) r)
    (hcount : pos + count ≤ l.length) (hk : k + n ≤ l.length) :
    Post ok (memcpyFrom i r.1.data n pos k r.1 r.2)
      (Opened i s h (max l.length (l.length - count + n)) fun f =>
        Begins f (spliced l pos count (copied l pos count n k))) := by
  obtain ⟨blk, hroom, hgap⟩ := hr.room
  have hfits := hr.fits
  refine Post.mono (memcpyFrom_own hroom (by omega) (by omega)) fun q hq =>
    hr.change hq.1 hq.2.1 ?_ hq.2.2
  have hcopied : ((List.range n).map fun x => blk.byte (k + x % (pos - k))) =
      copied l pos count n k := by
    refine List.map_congr_left fun x hx => ?_
    exact opened_cell hgap hcount (copied_lt (by omega) hk (List.mem_range.mp hx))
  rw [slide_eq_poke, hcopied]
  rw [← length_copied l pos count n k] at hgap
  exact hgap.fill hcount

/-- The gap filled from `sso_`, which was the buffer before. -/
theorem Opened.copy_sso {r : Str × Heap}
    (hr : Opened i s h (max l.length (l.length - count + n)) (fun f => Gap f l pos count n) r)
    (hs : s.Has i h l) (hsso : s.data = .sso i) (hmoved : Moved s h r.1)
    (hcount : pos + count ≤ l.length) (hk : k + n ≤ l.length) :
    Post ok (memcpyFrom i s.data n pos k r.1 r.2)
      (Opened i s h (max l.length (l.length - count + n)) fun f =>
        Begins f (spliced l pos count ((l.drop k).take n))) := by
  obtain ⟨blk, hroom, hgap⟩ := hr.room
  have hfits := hr.fits
  obtain ⟨blk₀, hroom₀, hbytes, -⟩ := hs.room
  rw [hroom₀.sso hsso] at hbytes
  have hle := hs.size_le
  rw [hs.size, Str.cap, if_pos (isSSO_iff.mpr hsso)] at hle
  rw [hsso]
  refine Post.mono (memcpyFrom_sso hmoved.data hroom (by omega) (by omega)) fun q hq =>
    hr.change hq.1 hq.2.1 ?_ hq.2.2
  have hlen : ((l.drop k).take n).length = n := by
    rw [List.length_take, List.length_drop]
    omega
  rw [hmoved.sso, hbytes.read hk]
  rw [← hlen] at hgap
  exact hgap.fill hcount

/-- `insert` of a string into itself. -/
theorem insertSelf_has (hs : s.Has i h l) (hw : h.WF) (hpos : pos ≤ l.length)
    (hlen : l.length + l.length + 1 < 2 ^ 32) :
    Gives E (s.insertSelf E i h pos)
      (Result i (own s) h (spliced l pos 0 (copied l pos 0 l.length 0))) := by
  have hsize := hs.size
  unfold insertSelf
  rw [hsize, Nat.min_eq_left hpos]
  refine Post.bind (openGap_has hs hw hpos hlen) fun r hr => ?_
  obtain ⟨s₁, h₁⟩ := r
  have hsize₁ : s₁.size = l.length := hr.size.trans hsize
  dsimp only
  rw [hsize₁]
  refine Post.bind (hr.copy_own hpos (by omega)) fun q hq => ?_
  have hzero : u32 (q.1.size + q.1.size) = u32 (sub32 q.1.size 0 + l.length) := by
    rw [hq.size, hsize, sub32_of_le (Nat.zero_le _) (by omega), Nat.sub_zero]
  rw [hzero]
  exact hq.finish_splice (length_copied ..) hsize hpos hlen (by omega)

/-- A position and a count in range are used as they are. -/
theorem replaceBufOwn_eq (hs : s.Has i h l) (hcount : pos + count ≤ l.length) :
    s.replaceBufOwn E i h pos count k n = (do
    let (s', h) ← s.openGap E i h pos count n
    let (s', h) ← memcpyFrom i s.data n pos k s' h
    s'.setSize i h (u32 (sub32 s'.size count + n))) := by
  have hle := hs.size_le
  have hlt := hs.cap_lt
  have hsize := hs.size
  have hcut : s.cut pos count = count := by
    rw [hs.cut (by omega) (not_wraps (.inr (by omega))), Nat.min_eq_left (by omega)]
  unfold replaceBufOwn
  rw [hsize, Nat.min_eq_left (by omega), hcut]

section

variable (hs : s.Has i h l) (hw : h.WF) (hcount : pos + count ≤ l.length) (hk : k + n ≤ l.length)
include hs hw hcount hk

/-- The new characters fit, and are copied within the buffer. -/
theorem replaceBufOwn_stays (hfits : l.length - count + n ≤ s.cap i) :
    Gives E (s.replaceBufOwn E i h pos count k n)
      (Result i (own s) h (spliced l pos count (copied l pos count n k))) := by
  have hle := hs.size_le
  have hlt := hs.cap_lt
  have hsize := hs.size
  have hsame : u32 (sub32 s.size count + n) = l.length - count + n := by
    rw [hsize, sub32_of_le (by omega) (by omega), u32_of_lt (by omega)]
  rw [replaceBufOwn_eq hs hcount]
  refine Post.bind ((openGap_has hs hw hcount (by omega)).and (openGap_stays (hsame ▸ hfits)))
    fun r hr => ?_
  obtain ⟨s₁, h₁⟩ := r
  obtain ⟨hopened, hdata⟩ := hr
  dsimp only at hdata ⊢
  rw [← hdata]
  refine Post.bind (hopened.copy_own hcount hk) fun q hq => ?_
  exact hq.finish_splice (length_copied ..) hsize hcount (by omega) (by omega)

/-- The new characters do not fit in `sso_`, and are copied from there. -/
theorem replaceBufOwn_leaves (hlen : l.length - count + n + 1 < 2 ^ 32) (hsso : s.data = .sso i)
    (hgrows : s.cap i < l.length - count + n) :
    Gives E (s.replaceBufOwn E i h pos count k n)
      (Result i (own s) h (spliced l pos count ((l.drop k).take n))) := by
  have hle := hs.size_le
  have hsize := hs.size
  have hlast : ((l.drop k).take n).length = n := by
    rw [List.length_take, List.length_drop]
    omega
  have hsame : u32 (sub32 s.size count + n) = l.length - count + n := by
    rw [hsize, sub32_of_le (by omega) (by omega), u32_of_lt (by omega)]
  rw [replaceBufOwn_eq hs hcount]
  refine Post.bind ((openGap_has hs hw hcount hlen).and (openGap_moves (hsame ▸ hgrows)))
    fun r hr => ?_
  obtain ⟨s₁, h₁⟩ := r
  obtain ⟨hopened, hmoved⟩ := hr
  refine Post.bind (hopened.copy_sso hs hsso hmoved hcount hk) fun q hq => ?_
  exact hq.finish_splice hlast hsize hcount hlen (by omega)

end

/-- The new characters do not fit in the block, which is freed before they are read. -/
theorem replaceBufOwn_dead (hs : s.Has i h l) (hw : h.WF) (hcount : pos + count ≤ l.length)
    (hlen : l.length - count + n + 1 < 2 ^ 32) (hheap : s.data = .heap b)
    (hgrows : s.cap i < l.length - count + n) :
    Post (fun _ => True) (s.replaceBufOwn E i h pos count k n) fun _ => False := by
  have hle := hs.size_le
  have hsize := hs.size
  obtain ⟨blk, hroom, -⟩ := hs.room
  have hsame : u32 (sub32 s.size count + n) = l.length - count + n := by
    rw [hsize, sub32_of_le (by omega) (by omega), u32_of_lt (by omega)]
  rw [replaceBufOwn_eq hs hcount]
  refine Post.bind ((openGap_has hs hw hcount hlen).any.and (openGap_moves (hsame ▸ hgrows)))
    fun r hr => ?_
  obtain ⟨s₁, h₁⟩ := r
  obtain ⟨hopened, hmoved⟩ := hr
  have hother : b ≠ h.next := by
    rintro rfl
    exact hroom.live hheap (hw.fresh _ (Nat.le_refl _)).1
  have hnone : h₁.block b = none := by
    by_contra hsome
    obtain ⟨blk', hblk'⟩ := Option.ne_none_iff_exists'.mp hsome
    rcases hopened.shift.live b blk' hblk' with hin | ⟨hout, -⟩
    · have hd : s₁.data = .heap b := hin
      rw [hmoved.data, Ptr.heap.injEq] at hd
      exact hother hd.symm
    · exact hout hheap
  dsimp only
  rw [hheap, memcpyFrom_dead hnone (by omega)]
  exact Post.throw True.intro

/-! ## assigning a part -/

/-- A C string ends at its terminator. -/
theorem text_terminated (l : List (BitVec 8)) : text (some (l ++ [0])) = text (some l) := by
  simp only [text, Option.getD_some, List.takeWhile_append]
  split
  · next hall =>
      rw [(List.takeWhile_prefix _).eq_of_length hall]
      exact List.append_nil l
  · rfl

/-- A C string is its own text. -/
theorem text_text (cs : List (BitVec 8)) : text (some (text (some cs))) = text (some cs) :=
  List.takeWhile_idem ..

/-- A C string in the characters ends with them at the latest. -/
theorem textAt_eq (hs : s.Has i h l) (hk : k ≤ l.length) :
    s.textAt i h k = .ok (text (some (l.drop k))) := by
  have htake : ((l ++ [0]).drop k).take (l.length + 1 - k) = l.drop k ++ [0] := by
    rw [List.drop_append_of_le_length hk, List.take_of_length_le]
    rw [List.length_append, List.length_drop, List.length_singleton]
    omega
  unfold textAt
  rw [hs.size, hs.read_nul (by omega), htake]
  exact congrArg Except.ok (text_terminated _)

/-- A C string is not longer than its buffer. -/
theorem text_length (l : List (BitVec 8)) : (text (some l)).length ≤ l.length :=
  (List.takeWhile_prefix _).length_le

/-- Where a C string ends there is a 0. -/
theorem text_end (hk : k ≤ l.length) : ((l ++ [0]).drop k).take
    ((text (some (l.drop k))).length + 1) = text (some (l.drop k)) ++ [0] := by
  rw [List.drop_append_of_le_length hk]
  generalize l.drop k = m
  induction m with
  | nil => rfl
  | cons x m ih =>
      by_cases hx : x = 0
      · subst hx
        rfl
      · have htext : text (some (x :: m)) = x :: text (some m) := by
          simpa [text, List.takeWhile_cons] using hx
        rw [htext, List.cons_append, List.length_cons, List.take_succ_cons, ih]
        rfl

/-- A small string whose characters are in `sso_`. -/
theorem sso_has {A : Set Nat} (hsh : Shift A ∅ h h') (hd : s.data = .sso i)
    (hbytes : Begins s.sso l) (hlen : l.length ≤ ssoCapacity) :
    Post ok (do
      let s' ← s.writeSSO l.length [0]
      return ({ s' with size := l.length, capacity := ssoCapacity }, h')) (Result i A h l) := by
  have hend : l.length + [(0 : BitVec 8)].length ≤ ssoCapacity + 1 := by simpa using hlen
  simp only [writeSSO, if_pos hend, bind, Except.bind, pure, Except.pure]
  refine Post.pure
    ⟨⟨⟨⟨ssoCapacity + 1, poke s.sso l.length [0]⟩, ⟨by simp [buffer, hd], ?_⟩,
        hbytes.poke (Nat.le_refl _), poke_self ..⟩, rfl, ?_, ?_⟩, ?_⟩
  · simp [Str.cap, isSSO]
  · simpa [Str.cap, isSSO, hd] using hlen
  · simp [Str.cap, isSSO, ssoCapacity, hd]
  · show Shift A (own s) h h'
    rw [own_sso hd]
    exact hsh

/-- Characters that are copied to the front come as they are. -/
theorem slide_front {f : Nat → BitVec 8} (hf : Begins f l) (hlen : k + n ≤ l.length) :
    slide f n 0 k = poke f 0 ((l.drop k).take n) := by
  simp only [slide_eq_poke, Nat.zero_sub, Nat.mod_zero, hf.read hlen]

section

variable (hs : s.Has i h l) (hk : k ≤ l.length)
include hs hk

/-- `assign` with a part of a string that is in `sso_`. -/
theorem assignOwn_sso (hsso : s.data = .sso i) :
    Post ok (s.assignOwn E i h k) (Result i (own s) h (text (some (l.drop k)))) := by
  have htext := textAt_eq hs hk
  have hlen := text_length (l.drop k)
  rw [List.length_drop] at hlen
  have hcap : s.cap i = ssoCapacity := if_pos (isSSO_iff.mpr hsso)
  have hle := hs.size_le
  rw [hs.size, hcap] at hle
  obtain ⟨blk, hroom, hbytes⟩ := hs.begins_nul
  have hrelease : s.release i h = .ok h := if_pos (isSSO_iff.mpr hsso)
  have hsame : ({ s with data := .sso i } : Str) = s := by rw [← hsso]
  have hend := text_end hk
  generalize text (some (l.drop k)) = m at htext hlen hend ⊢
  unfold assignOwn
  rw [htext]
  refine Post.pure_bind ?_
  rw [if_pos (by omega), hrelease, hsame]
  refine Post.pure_bind
    (Post.bind (memcpyFrom_own (n := m.length) hroom (by omega) (by omega)) fun q hq => ?_)
  obtain ⟨s₁, h₁⟩ := q
  obtain ⟨hkept, hroom₁, hshift⟩ := hq
  have hd : s₁.data = .sso i := hkept.data.trans hsso
  have hm : ((l ++ [0]).drop k).take m.length = m := by
    rw [← Nat.min_eq_left (Nat.le_succ m.length), ← List.take_take, hend, List.take_left]
  have hcells : slide blk.byte m.length 0 k = s₁.sso := congrArg Block.byte (hroom₁.sso hd)
  rw [slide_front hbytes (by rw [List.length_append, List.length_singleton]; omega), hm] at hcells
  rw [own_sso hsso] at hshift ⊢
  exact sso_has hshift hd (hcells ▸ begins_poke _ _) (by omega)

/-- `assign` with an empty part: nothing is read. -/
theorem assignOwn_empty (hnil : text (some (l.drop k)) = []) :
    Post ok (s.assignOwn E i h k) (Result i (own s) h []) := by
  have htext := textAt_eq hs hk
  rw [hnil] at htext
  obtain ⟨blk, hroom, -⟩ := hs.room
  unfold assignOwn
  rw [htext]
  refine Post.pure_bind ?_
  rw [if_pos (by simp)]
  refine Post.bind (release_safe hroom) fun h₁ hfree => Post.pure_bind ?_
  exact sso_has (l := []) hfree rfl (fun k x hx => nomatch hx) (Nat.zero_le _)

/-- `assign` with a long part: the string has a block, and keeps it. -/
theorem assignOwn_long (hlong : ssoCapacity < (text (some (l.drop k))).length) :
    Post ok (s.assignOwn E i h k) (Result i (own s) h (text (some (l.drop k)))) := by
  have htext := textAt_eq hs hk
  have hlen := text_length (l.drop k)
  rw [List.length_drop] at hlen
  have hle := hs.size_le
  have hlt := hs.cap_lt
  rw [hs.size] at hle
  have hheap : ¬ s.isSSO i = true := by
    intro hsso
    rw [Str.cap, if_pos hsso] at hle
    omega
  have hcap : s.cap i = s.capacity := if_neg hheap
  obtain ⟨blk, hroom, hbytes⟩ := hs.begins_nul
  have hend := text_end hk
  generalize text (some (l.drop k)) = m at htext hlen hlong hend ⊢
  unfold assignOwn
  rw [htext]
  refine Post.pure_bind ?_
  rw [if_neg (by omega), if_pos ⟨hheap, by omega⟩]
  refine Post.bind (memcpyFrom_own (n := m.length + 1) hroom (by omega) (by omega)) fun q hq => ?_
  obtain ⟨s₁, h₁⟩ := q
  obtain ⟨hkept, hroom₁, hshift⟩ := hq
  rw [slide_front hbytes (by rw [List.length_append, List.length_singleton]; omega), hend] at hroom₁
  exact Post.pure (front_has hkept hroom₁ hshift (by omega) hlt)

/-- `assign` with a short part of a block that is freed before the part is read. -/
theorem assignOwn_dead (hheap : s.data = .heap b) (hne : text (some (l.drop k)) ≠ [])
    (hshort : (text (some (l.drop k))).length ≤ ssoCapacity) :
    Post (fun _ => True) (s.assignOwn E i h k) fun _ => False := by
  have htext := textAt_eq hs hk
  obtain ⟨blk, hroom, -⟩ := hs.room
  have hsso : ¬ s.isSSO i = true := by simp [hheap]
  unfold assignOwn
  rw [htext]
  refine Post.pure_bind ?_
  rw [if_pos hshort]
  refine Post.bind (release_safe hroom) fun h₁ hfree => ?_
  have hnone : h₁.block b = none := by
    by_contra hsome
    obtain ⟨blk', hblk'⟩ := Option.ne_none_iff_exists'.mp hsome
    rcases hfree.live b blk' hblk' with hin | ⟨hout, -⟩
    · exact hin
    · exact hout hheap
  rw [hheap, memcpyFrom_dead hnone (List.length_pos_iff.mpr hne)]
  exact Post.throw True.intro

end

end Str

/-! ## calls with the string itself -/

/-- A call on a string with itself for an argument, or with the address of its `k`th
character. -/
inductive SelfEdit where
  | assign
  | moveAssign
  | assignOwn (k : Nat)
  | insert (pos : Nat)
  | append
  | insertOwn (pos k : Nat)
  | appendOwn (k : Nat)
  | replace (pos count : Nat)
  | replaceOwn (pos count k : Nat)
  | replaceBufOwn (pos count k n : Nat)

namespace Mach

variable (E : Env) (m : Mach)

/-- `insert(size_type, const string &)` with the string itself. -/
def insertSelf (i pos : Nat) : Except Stop Mach := m.apply i fun s h => s.insertSelf E i h pos

/-- The C string at the `k`th character of string `i`. -/
def textAt (i k : Nat) : Except Stop (List (BitVec 8)) := do
  let s ← m.get i
  s.textAt i m.heap k

/-- A call on string `i`.  The C strings that are inserted are copied to `tmp` before. -/
def execSelf (i tmp : Nat) : SelfEdit → Except Stop Mach
  | .assign => m.copyAssign E i i
  | .moveAssign => m.moveAssign i i
  | .assignOwn k => m.apply i fun s h => s.assignOwn E i h k
  | .insert pos => m.insertSelf E i pos
  | .append => do
      let s ← m.get i
      m.insertSelf E i s.size
  | .insertOwn pos k => do
      let cs ← m.textAt i k
      m.exec E (.insertCstr i pos (some cs) tmp)
  | .appendOwn k => do
      let cs ← m.textAt i k
      m.exec E (.appendCstr i (some cs) tmp)
  | .replace pos count => do
      let m ← m.erase i pos count
      m.insertSelf E i pos
  | .replaceOwn pos count k => do
      let cs ← m.textAt i k
      m.exec E (.replaceCstr i pos count (some cs) tmp)
  | .replaceBufOwn pos count k n => m.apply i fun s h => s.replaceBufOwn E i h pos count k n

end Mach

namespace SelfEdit

variable (i j tmp : Nat) (s : Str) (l : List (BitVec 8))

/-- The same call with a copy: the string at `j`, or characters elsewhere. -/
def onCopy : SelfEdit → Op
  | assign => .copyAssign i j
  | moveAssign => .moveAssign i j
  | assignOwn k => .assignCstr i (some (l.drop k))
  | insert pos => .insertStr i pos j
  | append => .append i j
  | insertOwn pos k => .insertCstr i pos (some (l.drop k)) tmp
  | appendOwn k => .appendCstr i (some (l.drop k)) tmp
  | replace pos count => .replaceStr i pos count j
  | replaceOwn pos count k => .replaceCstr i pos count (some (l.drop k)) tmp
  | replaceBufOwn pos count k n => .replaceBuf i pos count (some ((l.drop k).take n))

/-- Positions and counts within the string. -/
def InRange : SelfEdit → Prop
  | assign | moveAssign | append => True
  | assignOwn k | appendOwn k => k ≤ l.length
  | insert pos => pos ≤ l.length
  | insertOwn pos k => pos ≤ l.length ∧ k ≤ l.length
  | replace pos count => pos + count ≤ l.length
  | replaceOwn pos count k => pos + count ≤ l.length ∧ k ≤ l.length
  | replaceBufOwn pos count k n => pos + count ≤ l.length ∧ k + n ≤ l.length

/-- What the call makes of the contents with a copy of its argument. -/
def result : SelfEdit → List (BitVec 8)
  | assign | moveAssign => l
  | assignOwn k => Str.text (some (l.drop k))
  | insert pos => spliced l pos 0 l
  | append => spliced l l.length 0 l
  | insertOwn pos k => spliced l pos 0 (Str.text (some (l.drop k)))
  | appendOwn k => spliced l l.length 0 (Str.text (some (l.drop k)))
  | replace pos count => spliced l pos count l
  | replaceOwn pos count k => spliced l pos count (Str.text (some (l.drop k)))
  | replaceBufOwn pos count k n => spliced l pos count ((l.drop k).take n)

/-- The contents repeat their first `pos` characters. -/
def Repeats (pos : Nat) : Prop := ∀ x < l.length, l.getD (x % pos) 0 = l.getD x 0

instance (pos : Nat) : Decidable (Repeats l pos) := inferInstanceAs (Decidable (∀ x < l.length, _))

/-- **When the argument is read as it was**: a short C string is not assigned to a string
with a block; a string that is inserted repeats the characters before the position, and none
are erased before; characters that replace others either leave `sso_` for a block, or are the
ones that are still there when they are copied. -/
def Clean : SelfEdit → Prop
  | assignOwn k => s.isSSO i = true ∨ Str.text (some (l.drop k)) = [] ∨
      ssoCapacity < (Str.text (some (l.drop k))).length
  | insert pos => Repeats l pos
  | replace pos count => count = 0 ∧ Repeats l pos
  | replaceBufOwn pos count k n =>
      if l.length - count + n ≤ s.cap i then ∀ x < n,
        Str.opened l pos count n (k + x % (pos - k)) = l.getD (k + x) 0
      else s.isSSO i = true
  | assign | moveAssign | append | insertOwn _ _ | appendOwn _ | replaceOwn _ _ _ => True

end SelfEdit

namespace Str

variable {i n pos count k : Nat} {s : Str} {h : Heap} {l m : List (BitVec 8)}

/-- A string has one list of characters. -/
theorem Has.unique (hl : s.Has i h l) (hm : s.Has i h m) : l = m := by
  obtain ⟨blk, hroom, hbytes, -⟩ := hl.room
  obtain ⟨blk', hroom', hbytes', -⟩ := hm.room
  have hblk : blk = blk' := Option.some.inj (hroom.1.symm.trans hroom'.1)
  subst hblk
  refine List.ext_getElem (hl.size.symm.trans hm.size) fun k hk hk' => ?_
  exact (hbytes k _ (List.getElem?_eq_getElem hk)).symm.trans
    (hbytes' k _ (List.getElem?_eq_getElem hk'))

/-- What was put in can be told from the result. -/
theorem spliced_inj {a b : List (BitVec 8)} :
    spliced l pos count a = spliced l pos count b ↔ a = b := by
  unfold spliced
  rw [List.append_cancel_right_eq, List.append_cancel_left_eq]

/-- What is copied is what was there. -/
theorem copied_eq_iff (hk : k + n ≤ l.length) :
    copied l pos count n k = (l.drop k).take n ↔
      ∀ x < n, opened l pos count n (k + x % (pos - k)) = l.getD (k + x) 0 := by
  have hget : ∀ x (hx : x < n), ((l.drop k).take n)[x]? = some (l.getD (k + x) 0) := by
    intro x hx
    rw [List.getElem?_take, if_pos hx, List.getElem?_drop, List.getD_eq_getElem?_getD,
      List.getElem?_eq_getElem (by omega)]
    rfl
  have hget' : ∀ x (hx : x < n), (copied l pos count n k)[x]? =
      some (opened l pos count n (k + x % (pos - k))) := by
    intro x hx
    unfold copied
    rw [List.getElem?_map, List.getElem?_range hx]
    rfl
  constructor
  · intro heq x hx
    rw [← Option.some.injEq, ← hget x hx, ← hget' x hx, heq]
  · intro hall
    refine List.ext_getElem? fun x => ?_
    rcases Nat.lt_or_ge x n with hx | hx
    · rw [hget x hx, hget' x hx, hall x hx]
    · rw [List.getElem?_eq_none (by rw [length_copied]; exact hx),
        List.getElem?_eq_none (by rw [List.length_take]; omega)]

/-- The case of a string that is inserted into itself. -/
theorem copied_self_iff : copied l pos 0 l.length 0 = l ↔ SelfEdit.Repeats l pos := by
  have hiff : copied l pos 0 l.length 0 = (l.drop 0).take l.length ↔ _ :=
    copied_eq_iff (Nat.zero_add _).le
  rw [List.drop_zero, List.take_length] at hiff
  rw [hiff]
  refine forall₂_congr fun x hx => ?_
  have hmod := Nat.mod_le x pos
  rw [Nat.zero_add, Nat.zero_add, Nat.sub_zero, opened, if_neg (by omega)]

end Str

namespace Mach

open SelfEdit

variable {E : Env} {m : Mach} {c : Nat → Option (List (BitVec 8))} {i j k tmp pos count n : Nat}
  {s : Str} {l a b : List (BitVec 8)}
  {ok : Stop → Prop}

/-- A string has one contents. -/
theorem Shows.unique (ha : m.Shows (Function.update c i (some a)))
    (hb : m.Shows (Function.update c i (some b))) : a = b := by
  obtain ⟨s, hs, hl⟩ := ha.get (Function.update_self ..)
  obtain ⟨s', hs', hl'⟩ := hb.get (Function.update_self ..)
  rw [hs] at hs'
  exact hl.unique (Option.some.inj hs' ▸ hl')

/-- A string has room for its terminator. -/
theorem Shows.length_lt (hm : m.Shows c) (hi : c i = some l) : l.length + 1 < 2 ^ 32 := by
  obtain ⟨s, hs, hl⟩ := hm.get hi
  have hle := hl.size_le
  have hlt := hl.cap_lt
  have hsize := hl.size
  omega

/-- So has the text from any of its characters on. -/
theorem Shows.text_lt (hm : m.Shows c) (hi : c i = some l) (k : Nat) :
    (Str.text (some (l.drop k))).length + 1 < 2 ^ 32 := by
  have hlt := hm.length_lt hi
  have hle := Str.text_length (l.drop k)
  rw [List.length_drop] at hle
  omega

/-- A result fits in a block. -/
theorem fits_of_gives {x : Env → Except Stop Mach}
    (h : ∀ E, Gives E (x E) fun m' => m'.Shows (Function.update c i (some b))) :
    b.length + 1 < 2 ^ 32 := by
  obtain ⟨m', -, hm'⟩ := (h grants).ok fun _ => rfl
  exact hm'.length_lt (Function.update_self ..)

/-- A call has one result. -/
theorem gives_iff {x : Env → Except Stop Mach}
    (h : ∀ E, Gives E (x E) fun m' => m'.Shows (Function.update c i (some a))) :
    (∀ E, Gives E (x E) fun m' => m'.Shows (Function.update c i (some b))) ↔ a = b := by
  constructor
  · intro h'
    obtain ⟨m', hx, hm'⟩ := (h grants).ok fun _ => rfl
    exact hm'.unique
      (Post.of_eq (Q := fun m' => m'.Shows (Function.update c i (some b))) (h' grants) hx)
  · rintro rfl
    exact h

/-- What never gives a result. -/
theorem not_gives {x : Env → Except Stop Mach} {P : Mach → Prop}
    (h : Post (fun _ => True) (x grants) fun _ => False) :
    ¬ ∀ E, Gives E (x E) P := by
  intro h'
  obtain ⟨m', hx, -⟩ := (h' grants).ok fun _ => rfl
  exact h.of_eq hx

/-- A member that never gives a result. -/
theorem apply_dead {f : Str → Heap → Except Stop (Str × Heap)} (hs : m.strs i = some s)
    (hf : Post (fun _ => True) (f s m.heap) fun _ => False) :
    Post (fun _ => True) (m.apply i f) fun _ => False := by
  simp only [apply, get_eq hs]
  exact Post.pure_bind (Post.bind hf fun _ h => h.elim)

/-- The text from a character on. -/
theorem textAt_eq (hm : m.Shows c) (hi : c i = some l) (hk : k ≤ l.length) :
    m.textAt i k = .ok (Str.text (some (l.drop k))) := by
  obtain ⟨s, hs, hl⟩ := hm.get hi
  simp only [textAt, get_eq hs]
  exact Str.textAt_eq hl hk

/-- `insert` of a string into itself. -/
theorem insertSelf_shows (hm : m.Shows c) (hi : c i = some l) (hpos : pos ≤ l.length)
    (hlen : l.length + l.length + 1 < 2 ^ 32) :
    Gives E (m.insertSelf E i pos) fun m' => m'.Shows
      (Function.update c i (some (spliced l pos 0 (Str.copied l pos 0 l.length 0)))) := by
  obtain ⟨s, hs, hl⟩ := hm.get hi
  exact apply_shows hm hs (Str.insertSelf_has hl hm.wf hpos hlen)

/-- Appending a C string. -/
theorem appendCstr_shows {cs x : List (BitVec 8)} (hm : m.Shows c) (hi : c i = some l)
    (hk : c k = none) (hcs : Str.text (some cs) = x)
    (hfits : x.length + 1 < 2 ^ 32) (hlen : (spliced l l.length 0 x).length + 1 < 2 ^ 32) :
    Gives E (m.exec E (.appendCstr i (some cs) k)) fun m' =>
      m'.Shows (Function.update c i (some (spliced l l.length 0 x))) := by
  obtain ⟨s, hs, hl⟩ := hm.get hi
  simp only [exec, get_eq hs]
  refine Post.pure_bind ?_
  rw [hl.size]
  exact insertCstr_shows hm hi hk hcs hfits hlen

/-- String `i` has the contents `l`. -/
def Holds (m : Mach) (i : Nat) (l : List (BitVec 8)) : Prop :=
  ∃ s, m.strs i = some s ∧ s.Has i m.heap l

/-- The contents of one string. -/
theorem Shows.holds (hm : m.Shows (Function.update c i (some l))) : m.Holds i l :=
  hm.get (Function.update_self ..)

/-- The target of a move holds the contents. -/
theorem moveAssign_holds (hm : m.Shows c) (hij : i ≠ j) (hi : c i = some a) (hj : c j = some l) :
    Post ok (m.moveAssign i j) fun m' => m'.Holds i l := by
  obtain ⟨s, hs, hl⟩ := hm.get hi
  obtain ⟨t, ht, hr⟩ := hm.get hj
  obtain ⟨blk, hroom, -⟩ := hl.room
  simp only [moveAssign, if_neg hij, get_eq hs, get_eq ht]
  refine Post.pure_bind (Post.pure_bind (Post.bind (Str.release_safe hroom) fun h hfree => ?_))
  have hr₁ := hr.shift hfree fun b hbt hbs =>
    hij (hm.apart.unique i j b (by rw [ownAt_some hs]; exact hbs)
      (by rw [ownAt_some ht]; exact hbt))
  refine Post.bind (Str.moveFrom_has hr₁) fun q hq => Post.pure ⟨q.1, ?_, hq.has⟩
  simp [Function.update_of_ne hij]

/-- A call with a copy does what it should. -/
theorem onCopy_holds {e : SelfEdit} (hm : m.Shows c) (hij : i ≠ j) (hi : c i = some l)
    (hj : c j = some l) (htmp : c tmp = none)
    (he : e.InRange l) (hlen : (e.result l).length + 1 < 2 ^ 32) :
    Gives E (m.exec E (e.onCopy i j tmp l)) fun m' => m'.Holds i (e.result l) := by
  obtain ⟨s, hs, hl⟩ := hm.get hi
  obtain ⟨t, ht, hr⟩ := hm.get hj
  have hlt := hm.length_lt hi
  have hholds : ∀ {x : Except Stop Mach} {a}, Gives E x
      (fun m' => m'.Shows (Function.update c i (some a))) → Gives E x fun m' => m'.Holds i a :=
    fun h => Post.mono h fun _ hm' => hm'.holds
  cases e with
  | assign =>
      have hdisj : ∀ b ∈ own t, b ∉ own s := by
        intro b hbt hbs
        exact hij (hm.apart.unique i j b (by rw [ownAt_some hs]; exact hbs)
          (by rw [ownAt_some ht]; exact hbt))
      have hcopy := Str.copyAssign_has (E := E) hl hr hm.wf hdisj
      simp only [onCopy, exec, copyAssign, if_neg hij, get_eq ht]
      exact Post.pure_bind (hholds (apply_shows hm hs hcopy))
  | moveAssign => exact moveAssign_holds hm hij hi hj
  | assignOwn k =>
      have hcopy := Str.assignCstr_has (E := E) hl hm.wf (l.drop k) (hm.text_lt hi k)
      simp only [onCopy, exec]
      exact hholds (apply_shows hm hs hcopy)
  | insert pos =>
      simp only [result, length_spliced] at hlen
      exact hholds (insertStr_shows hm hij hi hj (by omega))
  | append =>
      simp only [result, length_spliced] at hlen
      simp only [onCopy, exec, get_eq hs]
      refine Post.pure_bind ?_
      rw [hl.size]
      exact hholds (insertStr_shows hm hij hi hj (by omega))
  | insertOwn pos k => exact hholds (insertCstr_shows hm hi htmp rfl (hm.text_lt hi k) hlen)
  | appendOwn k => exact hholds (appendCstr_shows hm hi htmp rfl (hm.text_lt hi k) hlen)
  | replace pos count =>
      have hcount : pos + count ≤ l.length := he
      exact hholds (replaceStr_shows hm hij hi hj (Str.not_wraps (.inr (by omega))) hlen)
  | replaceOwn pos count k =>
      have hcount := he.1
      exact hholds
        (replaceCstr_shows hm hi htmp rfl (hm.text_lt hi k) (Str.not_wraps (.inr (by omega))) hlen)
  | replaceBufOwn pos count k n =>
      have hcount := he.1
      have hbuf := Str.replaceBuf_has (E := E) hl hm.wf (Str.not_wraps (.inr (by omega))) hlen
      simp only [onCopy, exec]
      exact hholds (apply_shows hm hs hbuf)

section

variable {x : Env → Except Stop Mach} {P : Prop}

/-- Where the result is `a`, the call is right exactly if `a` is what it should be. -/
theorem right_iff (h : b.length + 1 < 2 ^ 32 →
    ∀ E, Gives E (x E) fun m' => m'.Shows (Function.update c i (some a))) (hab : a = b ↔ P) :
    (∀ E, Gives E (x E) fun m' => m'.Shows (Function.update c i (some b))) ↔
      b.length + 1 < 2 ^ 32 ∧ P := by
  rw [← hab]
  constructor
  · intro hx
    have hlen := fits_of_gives hx
    exact ⟨hlen, (gives_iff (h hlen)).mp hx⟩
  · rintro ⟨hlen, heq⟩
    exact (gives_iff (h hlen)).mpr heq

/-- Where it comes out right. -/
theorem right_of (h : b.length + 1 < 2 ^ 32 →
    ∀ E, Gives E (x E) fun m' => m'.Shows (Function.update c i (some b))) (hP : P) :
    (∀ E, Gives E (x E) fun m' => m'.Shows (Function.update c i (some b))) ↔
      b.length + 1 < 2 ^ 32 ∧ P :=
  right_iff h (iff_of_true rfl hP)

/-- Where there is no result. -/
theorem wrong_of (h : b.length + 1 < 2 ^ 32 → Post (fun _ => True) (x grants) fun _ => False)
    (hP : ¬ P) :
    (∀ E, Gives E (x E) fun m' => m'.Shows (Function.update c i (some b))) ↔
      b.length + 1 < 2 ^ 32 ∧ P :=
  iff_of_false (fun hx => not_gives (h (fits_of_gives hx)) hx) fun hP' => hP hP'.2

end

/-- A string that is cut and then inserted into itself. -/
theorem replaced_self_iff (hcount : pos + count ≤ l.length) :
    spliced (spliced l pos count []) pos 0 (Str.copied (spliced l pos count []) pos 0
      (spliced l pos count []).length 0) = spliced l pos count l ↔
      count = 0 ∧ Repeats l pos := by
  rw [← spliced_twice l l, Str.spliced_inj]
  by_cases hzero : count = 0
  · have hsame : spliced l pos count [] = l := by
      rw [hzero, spliced, List.append_nil, Nat.add_zero, List.take_append_drop]
    rw [hsame, Str.copied_self_iff]
    exact (and_iff_right hzero).symm
  · refine iff_of_false (fun heq => ?_) fun h => hzero h.1
    have hlen := congrArg List.length heq
    rw [Str.length_copied, length_spliced, List.length_nil] at hlen
    omega

/-- `operator=` with a pointer into the string itself. -/
theorem assignOwn_iff (hm : m.Shows c) (hs : m.strs i = some s) (hl : s.Has i m.heap l)
    (hk : k ≤ l.length) :
    (∀ E, Gives E (m.execSelf E i tmp (SelfEdit.assignOwn k)) fun m' =>
      m'.Shows (Function.update c i (some ((SelfEdit.assignOwn k).result l)))) ↔
      ((SelfEdit.assignOwn k).result l).length + 1 < 2 ^ 32 ∧
        (SelfEdit.assignOwn k).Clean i s l := by
  by_cases hclean : (SelfEdit.assignOwn k).Clean i s l
  · refine right_of (fun _ E => ?_) hclean
    simp only [execSelf, result]
    rcases hclean with hsso | hnil | hlong
    · exact apply_shows hm hs (Str.assignOwn_sso hl hk (Str.isSSO_iff.mp hsso))
    · rw [hnil]
      exact apply_shows hm hs (Str.assignOwn_empty hl hk hnil)
    · exact apply_shows hm hs (Str.assignOwn_long hl hk hlong)
  · refine wrong_of (fun _ => ?_) hclean
    obtain ⟨hsso, hrest⟩ := not_or.mp hclean
    obtain ⟨hne, hshort⟩ := not_or.mp hrest
    obtain ⟨blk, hroom, -⟩ := hl.room
    obtain ⟨b, hheap, -⟩ := hroom.heap hsso
    have hdead := Str.assignOwn_dead (E := grants) hl hk hheap hne (Nat.le_of_not_lt hshort)
    simp only [execSelf]
    exact apply_dead hs hdead

/-- `replace` by the string itself. -/
theorem replaceSelf_iff (hm : m.Shows c) (hi : c i = some l) (hcount : pos + count ≤ l.length) :
    (∀ E, Gives E (m.execSelf E i tmp (SelfEdit.replace pos count)) fun m' =>
      m'.Shows (Function.update c i (some ((SelfEdit.replace pos count).result l)))) ↔
      ((SelfEdit.replace pos count).result l).length + 1 < 2 ^ 32 ∧
        (SelfEdit.replace pos count).Clean i s l := by
  refine right_iff (fun hlen E => ?_) (replaced_self_iff hcount)
  simp only [result, length_spliced] at hlen
  simp only [execSelf]
  refine Post.bind (erase_shows hm hi (Str.not_wraps (.inr (by omega)))) fun m₁ hm₁ => ?_
  have hcut := length_spliced l [] pos count
  rw [List.length_nil] at hcut
  refine Post.mono (insertSelf_shows hm₁ (Function.update_self ..) (by omega) (by omega))
    fun m₂ hm₂ => ?_
  rwa [Function.update_idem] at hm₂

/-- `replace` by a part of the string itself. -/
theorem replaceBufOwn_iff (hm : m.Shows c) (hs : m.strs i = some s) (hl : s.Has i m.heap l)
    (hcount : pos + count ≤ l.length)
    (hk : k + n ≤ l.length) :
    (∀ E, Gives E (m.execSelf E i tmp (SelfEdit.replaceBufOwn pos count k n)) fun m' =>
      m'.Shows (Function.update c i (some ((SelfEdit.replaceBufOwn pos count k n).result l)))) ↔
      ((SelfEdit.replaceBufOwn pos count k n).result l).length + 1 < 2 ^ 32 ∧
        (SelfEdit.replaceBufOwn pos count k n).Clean i s l := by
  have hnew : (spliced l pos count ((l.drop k).take n)).length = l.length - count + n := by
    rw [length_spliced, List.length_take, List.length_drop]
    omega
  by_cases hfits : l.length - count + n ≤ s.cap i
  · simp only [Clean, if_pos hfits]
    refine right_iff (a := spliced l pos count (Str.copied l pos count n k)) (fun _ E => ?_)
      (Str.spliced_inj.trans (Str.copied_eq_iff hk))
    have hstays := Str.replaceBufOwn_stays (E := E) hl hm.wf hcount hk hfits
    simp only [execSelf]
    exact apply_shows hm hs hstays
  · simp only [Clean, if_neg hfits]
    by_cases hsso : s.isSSO i = true
    · refine right_of (fun hlen E => ?_) hsso
      simp only [result, hnew] at hlen
      have hleaves := Str.replaceBufOwn_leaves (E := E) hl hm.wf hcount hk hlen
        (Str.isSSO_iff.mp hsso) (Nat.lt_of_not_le hfits)
      simp only [execSelf]
      exact apply_shows hm hs hleaves
    · refine wrong_of (fun hlen => ?_) hsso
      simp only [result, hnew] at hlen
      obtain ⟨blk, hroom, -⟩ := hl.room
      obtain ⟨b, hheap, -⟩ := hroom.heap hsso
      have hdead := Str.replaceBufOwn_dead (E := grants) (k := k) hl hm.wf hcount hlen hheap
        (Nat.lt_of_not_le hfits)
      simp only [execSelf]
      exact apply_dead hs hdead

/-- Every call with the string itself is right exactly if it fits and is clean. -/
theorem execSelf_iff {e : SelfEdit} (hm : m.Shows c) (hi : c i = some l) (hs : m.strs i = some s)
    (htmp : c tmp = none) (he : e.InRange l) :
    (∀ E, Gives E (m.execSelf E i tmp e) fun m' =>
      m'.Shows (Function.update c i (some (e.result l)))) ↔
      (e.result l).length + 1 < 2 ^ 32 ∧ e.Clean i s l := by
  have hl : s.Has i m.heap l := by
    obtain ⟨s', hs', hl⟩ := hm.get hi
    rw [hs] at hs'
    exact Option.some.inj hs' ▸ hl
  have hlt := hm.length_lt hi
  cases e with
  | assign =>
      refine right_of (fun _ E => ?_) True.intro
      have hsame : Function.update c i (some l) = c := Function.update_eq_self_iff.mpr hi.symm
      simp only [execSelf, copyAssign, if_true, result, hsame]
      exact Post.pure hm
  | moveAssign =>
      refine right_of (fun _ E => ?_) True.intro
      have hsame : Function.update c i (some l) = c := Function.update_eq_self_iff.mpr hi.symm
      simp only [execSelf, moveAssign, if_true, result, hsame]
      exact Post.pure hm
  | assignOwn k => exact assignOwn_iff hm hs hl he
  | insert pos =>
      refine right_iff (fun hlen E => insertSelf_shows hm hi he ?_)
        (Str.spliced_inj.trans Str.copied_self_iff)
      simp only [result, length_spliced] at hlen
      omega
  | append =>
      have hrepeats : Repeats l l.length := fun x hx => by rw [Nat.mod_eq_of_lt hx]
      refine right_iff (a := spliced l l.length 0 (Str.copied l l.length 0 l.length 0))
        (fun hlen E => ?_)
        (iff_of_true (Str.spliced_inj.mpr (Str.copied_self_iff.mpr hrepeats)) True.intro)
      simp only [result, length_spliced] at hlen
      simp only [execSelf, get_eq hs]
      refine Post.pure_bind ?_
      rw [hl.size]
      exact insertSelf_shows hm hi (Nat.le_refl _) (by omega)
  | insertOwn pos k =>
      refine right_of (fun hlen E => ?_) True.intro
      simp only [execSelf, textAt_eq hm hi he.2]
      exact Post.pure_bind (insertCstr_shows hm hi htmp (Str.text_text _) (hm.text_lt hi k) hlen)
  | appendOwn k =>
      refine right_of (fun hlen E => ?_) True.intro
      simp only [execSelf, textAt_eq hm hi he]
      exact Post.pure_bind (appendCstr_shows hm hi htmp (Str.text_text _) (hm.text_lt hi k) hlen)
  | replace pos count => exact replaceSelf_iff hm hi he
  | replaceOwn pos count k =>
      have hcount := he.1
      refine right_of (fun hlen E => ?_) True.intro
      simp only [execSelf, textAt_eq hm hi he.2]
      exact Post.pure_bind (replaceCstr_shows hm hi htmp (Str.text_text _) (hm.text_lt hi k)
        (Str.not_wraps (.inr (by omega))) hlen)
  | replaceBufOwn pos count k n => exact replaceBufOwn_iff hm hs hl he.1 he.2

end Mach

/-- **When a string can be edited with itself.**  For every string with contents `l`, and
another that is a copy: the call with the copy makes `result` of the contents, where that can
be stored; and the call with the string itself, or with the address of its characters, does the
same exactly if it can be stored and the argument is read as it was. -/
theorem self_edit_iff (m : Mach) (c : Nat → Option (List (BitVec 8))) (i j tmp : Nat) (s : Str)
    (l : List (BitVec 8)) (e : SelfEdit)
    (hm : m.Shows c) (hij : i ≠ j) (hi : c i = some l) (hs : m.strs i = some s) (hj : c j = some l)
    (htmp : c tmp = none)
    (he : e.InRange l) :
    ((e.result l).length + 1 < 2 ^ 32 →
      ∀ E, Gives E (m.exec E (e.onCopy i j tmp l)) fun m' => m'.Holds i (e.result l)) ∧
    ((∀ E, Gives E (m.execSelf E i tmp e) fun m' =>
        m'.Shows (Function.update c i (some (e.result l)))) ↔
      (e.result l).length + 1 < 2 ^ 32 ∧ e.Clean i s l) :=
  ⟨fun hlen _ => Mach.onCopy_holds hm hij hi hj htmp he hlen, Mach.execSelf_iff hm hi hs htmp he⟩

/-- `"aa"` in itself. -/
theorem self_edit_iff_insert : ∃ m c, Mach.Shows m c ∧ c 0 = some [97, 97] ∧
    ∀ E, Gives E (m.execSelf E 0 2 (.insert 1)) fun m' =>
      m'.Shows (Function.update c 0 (some [97, 97, 97, 97])) := by
  obtain ⟨m₁, -, hm₁⟩ :=
    (Mach.ctorCstr_shows (E := grants) (k := 0) Mach.Shows.empty rfl [97, 97] (by decide)).ok
    fun _ => rfl
  obtain ⟨m₂, -, hm₂⟩ :=
    (Mach.ctorCstr_shows (E := grants) (k := 1) hm₁ rfl [97, 97] (by decide)).ok fun _ => rfl
  obtain ⟨s, hs, -⟩ := hm₂.get (i := 0) (l := [97, 97]) rfl
  exact ⟨m₂, _, hm₂, rfl,
    (self_edit_iff m₂ _ 0 1 2 s [97, 97] (.insert 1) hm₂ (by decide) rfl hs rfl rfl
    (show 1 ≤ 2 by decide)).2.mpr
    ⟨by decide, show SelfEdit.Repeats [97, 97] 1 by decide⟩⟩

/-- `"ab"` in itself, behind the `a`: the `a` that is copied first is the second character that
is read.  With a copy it is `"aabb"`. -/
theorem insert_self_repeats :
    (do
      let m ← Mach.empty.exec grants (.ctorCstr 0 (some [97, 98]))
      let m ← m.execSelf grants 0 2 (.insert 1)
      let s ← m.get 0
      s.read 0 m.heap 0 s.size).toOption = some [97, 97, 97, 98] ∧
    (do
      let m ← Mach.empty.exec grants (.ctorCstr 0 (some [97, 98]))
      let m ← m.exec grants (.copyCtor 1 0)
      let m ← m.exec grants ((SelfEdit.insert 1).onCopy 0 1 2 [97, 98])
      let s ← m.get 0
      s.read 0 m.heap 0 s.size).toOption = some [97, 97, 98, 98] := by
  decide +kernel

end Doors.Libcxx
