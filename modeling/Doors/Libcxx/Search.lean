import Doors.Lib.Scan
import Doors.Libcxx.StringContents

/-!
# Doors.Libcxx.Search

The searches of `string` (`libc++/string/string.cc`) and of `string_view`
(`libc++/include/string_view`), which are written twice.

`Str.find` and the others are those of the string at `i` for the string at `j`;
`StringView.find` and the others work on what `operator string_view` hands over: the
pointer `data_`, known by what can be read through it, and `size_`.

* `find_view` and the lemmas beside it — the two versions of a search do the same
  reads and come to the same result;
* `searches_agree_iff` — they do, all ten, unless an empty string is looked for from
  behind, where `string::rfind` says `npos` (`rfind_empty`).
-/

namespace Doors.Libcxx

open Run Str

/-- What can be read through a pointer, at each distance from it. -/
abbrev Chars : Type := Nat → Except Stop (BitVec 8)

/-- `memcmp`, from the byte `i` on. -/
def memcmp (a b : Chars) : Nat → Nat → Except Stop Int
  | 0, _ => .ok 0
  | n + 1, i => do
      let x ← a i
      let y ← b i
      if x > y then return 1 else if x < y then return -1 else memcmp a b n (i + 1)

/-- `memcmp(a + k, b, n) == 0`. -/
def matchesAt (a b : Chars) (n k : Nat) : Except Stop Bool := do
  let c ← memcmp (fun m => a (k + m)) b n 0
  return c = 0

/-- The inner loop of the searches for a set of characters: the first of the `n`
characters at `b` that is `a[k]`. -/
def member (a b : Chars) (n k : Nat) : Except Stop (Option Nat) :=
  Scan.up (fun m => do
    let x ← a k
    let y ← b m
    return x = y) n 0

/-- What a search returns. -/
def place (o : Option Nat) : Nat := o.getD npos

namespace Str

variable (i : Nat) (s : Str) (j : Nat) (t : Str) (h : Heap) (pos : Nat)

/-- `data_[k]`. -/
def char (k : Nat) : Except Stop (BitVec 8) := do
  let bs ← s.read i h k 1
  return bs.headD 0

/-- `find(const string &, size_type)`. -/
def find : Except Stop Nat :=
  if pos > s.size then .ok npos
  else if t.size = 0 then .ok pos
  else if t.size > sub32 s.size pos then .ok npos
  else do
    let o ← Scan.up (matchesAt (s.char i h) (t.char j h) t.size) (sub32 s.size t.size + 1 - pos) pos
    return place o

/-- `rfind(const string &, size_type)`. -/
def rfind : Except Stop Nat :=
  if t.size = 0 then .ok npos
  else if t.size > s.size then .ok npos
  else do
    let pos := min pos (sub32 s.size t.size)
    let o ← Scan.down (matchesAt (s.char i h) (t.char j h) t.size) (u32 (pos + 1))
    return place o

/-- `find_first_of(const string &, size_type)`. -/
def findFirstOf : Except Stop Nat :=
  if pos ≥ s.size then .ok npos
  else do
    let o ← Scan.up (fun k => do
      let m ← member (s.char i h) (t.char j h) t.size k
      return m.isSome) (s.size - pos) pos
    return place o

/-- `find_last_of(const string &, size_type)`. -/
def findLastOf : Except Stop Nat :=
  if s.size = 0 then .ok npos
  else do
    let pos := if pos ≥ s.size then sub32 s.size 1 else pos
    let o ← Scan.down (fun k => do
      let m ← member (s.char i h) (t.char j h) t.size k
      return m.isSome) (u32 (pos + 1))
    return place o

/-- `find_first_not_of(const string &, size_type)`. -/
def findFirstNotOf : Except Stop Nat :=
  if pos ≥ s.size then .ok npos
  else do
    let o ← Scan.up (fun k => do
      let m ← member (s.char i h) (t.char j h) t.size k
      let found := m.isSome
      return !found) (s.size - pos) pos
    return place o

/-- `find_last_not_of(const string &, size_type)`. -/
def findLastNotOf : Except Stop Nat :=
  if s.size = 0 then .ok npos
  else do
    let pos := if pos ≥ s.size then sub32 s.size 1 else pos
    let o ← Scan.down (fun k => do
      let m ← member (s.char i h) (t.char j h) t.size k
      let found := m.isSome
      return !found) (u32 (pos + 1))
    return place o

/-- `contains(const string &)`. -/
def contains : Except Stop Bool := do
  let r ← s.find i j t h 0
  return r ≠ npos

/-- `starts_with(const string &)`. -/
def startsWith : Except Stop Bool :=
  if t.size > s.size then .ok false else matchesAt (s.char i h) (t.char j h) t.size 0

/-- `ends_with(const string &)`. -/
def endsWith : Except Stop Bool :=
  if t.size > s.size then .ok false
  else matchesAt (s.char i h) (t.char j h) t.size (sub32 s.size t.size)

/-- `compare(const string &)`. -/
def compare : Except Stop Int := do
  let n := if s.size < t.size then s.size else t.size
  let cmp ← memcmp (s.char i h) (t.char j h) n 0
  if cmp ≠ 0 then return cmp
  else if s.size < t.size then return -1
  else if s.size > t.size then return 1
  else return 0

end Str

structure StringView where
  data : Chars
  size : Nat

/-- `operator string_view()`. -/
def Str.view (i : Nat) (s : Str) (h : Heap) : StringView := ⟨s.char i h, s.size⟩

namespace StringView

variable (s v : StringView) (pos : Nat)

/-- `find`. -/
def find : Except Stop Nat :=
  if pos > s.size ∨ v.size > sub32 s.size pos then .ok npos
  else do
    let o ← Scan.up (matchesAt s.data v.data v.size) (sub32 s.size v.size + 1 - pos) pos
    return place o

/-- `rfind`. -/
def rfind : Except Stop Nat :=
  if v.size > s.size then .ok npos
  else do
    let pos := if pos < sub32 s.size v.size then pos else sub32 s.size v.size
    let o ← Scan.downFrom (matchesAt s.data v.data v.size) pos
    return place o

/-- `find_first_of`. -/
def findFirstOf : Except Stop Nat := do
  let o ← Scan.up (fun k => do
    let m ← member s.data v.data v.size k
    return m.isSome) (s.size - pos) pos
  return place o

/-- `find_last_of`. -/
def findLastOf : Except Stop Nat :=
  if s.size = 0 then .ok npos
  else do
    let pos := if pos < s.size then pos else sub32 s.size 1
    let o ← Scan.downFrom (fun k => do
      let m ← member s.data v.data v.size k
      return m.isSome) pos
    return place o

/-- `find_first_not_of`. -/
def findFirstNotOf : Except Stop Nat := do
  let o ← Scan.up (fun k => do
    let m ← member s.data v.data v.size k
    let j := m.getD v.size
    return j = v.size) (s.size - pos) pos
  return place o

/-- `find_last_not_of`. -/
def findLastNotOf : Except Stop Nat :=
  if s.size = 0 then .ok npos
  else do
    let pos := if pos < s.size then pos else sub32 s.size 1
    let o ← Scan.downFrom (fun k => do
      let m ← member s.data v.data v.size k
      let j := m.getD v.size
      return j = v.size) pos
    return place o

/-- `contains`. -/
def contains : Except Stop Bool := do
  let r ← s.find v 0
  return r ≠ npos

/-- `starts_with`. -/
def startsWith : Except Stop Bool :=
  if s.size ≥ v.size then matchesAt s.data v.data v.size 0 else .ok false

/-- `ends_with`. -/
def endsWith : Except Stop Bool :=
  if s.size ≥ v.size then matchesAt s.data v.data v.size (sub32 s.size v.size) else .ok false

/-- The loop of `compare`. -/
def differ : Nat → Nat → Except Stop (Option Int)
  | 0, _ => .ok none
  | n + 1, i => do
      let x ← s.data i
      let y ← v.data i
      if x ≠ y then return some (if x < y then -1 else 1) else differ n (i + 1)

/-- `compare`. -/
def compare : Except Stop Int := do
  let rlen := if s.size < v.size then s.size else v.size
  let rest : Int := if s.size = v.size then 0 else if s.size < v.size then -1 else 1
  if rlen = 0 then return rest
  else
    let o ← differ s v rlen 0
    return o.getD rest

end StringView

/-! ## the two versions of a search -/

/-- Nothing is compared when there are no characters. -/
theorem matchesAt_zero (a b : Chars) (k : Nat) : matchesAt a b 0 k = .ok true := rfl

section

variable {ok : Stop → Prop} {a b : Chars} {n k : Nat}

/-- `memcmp` reads no further than its count. -/
theorem memcmp_post {m : Nat} (ha : ∀ k, k < m + n → Post ok (a k) fun _ => True)
    (hb : ∀ k, k < m + n → Post ok (b k) fun _ => True) :
    Post ok (memcmp a b n m) fun _ => True := by
  induction n generalizing m with
  | zero => exact trivial
  | succ n ih =>
    refine Post.bind (ha m (by omega)) fun x _ => Post.bind (hb m (by omega)) fun y _ => ?_
    split
    · exact trivial
    · split
      · exact trivial
      · exact ih (fun k hk => ha k (by omega)) (fun k hk => hb k (by omega))

/-- The comparison at a place reads the needle and as much of the text. -/
theorem matchesAt_post (ha : ∀ m, m < k + n → Post ok (a m) fun _ => True)
    (hb : ∀ m, m < n → Post ok (b m) fun _ => True) :
    Post ok (matchesAt a b n k) fun _ => True :=
  Post.bind (memcmp_post (fun m hm => ha (k + m) (by omega)) fun m hm => hb m (by omega)) fun _ _ =>
    trivial

/-- The inner loop reads one character and the set, and finds a place in it. -/
theorem member_post (ha : Post ok (a k) fun _ => True)
    (hb : ∀ m, m < n → Post ok (b m) fun _ => True) :
    Post ok (member a b n k) fun o => ∀ m, o = some m → m < n := by
  refine Post.mono (Scan.up_post fun m _ hm => Post.bind ha fun _ _ =>
    Post.bind (hb m (by omega)) fun _ _ => trivial) fun o ho m hm => ?_
  have := ho m hm
  omega

end

/-- The loop of `find_first_not_of` of a view leaves its index at the end exactly when
nothing was found. -/
theorem member_end (a b : Chars) (n k : Nat) :
    (do let m ← member a b n k; return decide (m.getD n = n)) =
      (do let m ← member a b n k; return !m.isSome : Except Stop Bool) := by
  have hbound : Post (fun _ => True) (member a b n k) _ :=
    member_post (Post.trivial _) fun m _ => Post.trivial _
  cases hm : member a b n k with
  | error e => rfl
  | ok o =>
    have hlt := hbound.of_eq hm
    cases o with
    | none => exact congrArg Except.ok (decide_eq_true rfl)
    | some m => exact congrArg Except.ok (decide_eq_false (Nat.ne_of_lt (hlt m rfl)))

section

variable {i j : Nat} {s t : Str} {h : Heap} {pos : Nat}

/-- `string::find` is `string_view::find` on the view of the string. -/
theorem find_view (hs : s.size < 2 ^ 32) : s.find i j t h pos =
    (s.view i h).find (t.view j h) pos := by
  rw [Str.view, Str.view]
  unfold Str.find StringView.find
  dsimp only
  by_cases hpos : pos > s.size
  · rw [if_pos hpos, if_pos (.inl hpos)]
  · rw [if_neg hpos]
    by_cases hz : t.size = 0
    · have hin : ¬ (pos > s.size ∨ t.size > sub32 s.size pos) := by
        rw [hz]
        exact not_or.mpr ⟨hpos, Nat.not_lt_zero _⟩
      have hcount : sub32 s.size 0 + 1 - pos = s.size - pos + 1 := by
        rw [sub32_of_le (Nat.zero_le _) hs]
        omega
      rw [if_pos hz, if_neg hin, hz, hcount, Scan.up_hit (matchesAt_zero ..)]
      rfl
    · rw [if_neg hz]
      by_cases hgt : t.size > sub32 s.size pos
      · rw [if_pos hgt, if_pos (.inr hgt)]
      · rw [if_neg hgt, if_neg (not_or.mpr ⟨hpos, hgt⟩)]

/-- `rfind`, but for the empty needle, at which the two differ. -/
theorem rfind_view (hs : s.size + 1 < 2 ^ 32) (ht : t.size ≠ 0) :
    s.rfind i j t h pos = (s.view i h).rfind (t.view j h) pos := by
  rw [Str.view, Str.view]
  unfold Str.rfind StringView.rfind
  dsimp only
  rw [if_neg ht]
  by_cases hgt : t.size > s.size
  · rw [if_pos hgt, if_pos hgt]
  · have hmin : min pos (sub32 s.size t.size) = if pos < sub32 s.size t.size then pos
        else sub32 s.size t.size := by
      split <;> omega
    have hwrap : u32 (min pos (sub32 s.size t.size) + 1) = min pos (sub32 s.size t.size) + 1 := by
      refine u32_of_lt ?_
      rw [sub32_of_le (by omega) (by omega)]
      omega
    rw [if_neg hgt, if_neg hgt, hwrap, ← hmin, Scan.downFrom_eq]

/-- `string::rfind` does not find the empty string. -/
theorem rfind_empty (ht : t.size = 0) : s.rfind i j t h pos = .ok npos := if_pos ht

/-- `string_view::rfind` finds it at `pos`, or at the end. -/
theorem rfind_empty_view (hs : s.size < 2 ^ 32) (ht : t.size = 0) :
    (s.view i h).rfind (t.view j h) pos = .ok (min pos s.size) := by
  rw [Str.view, Str.view]
  unfold StringView.rfind
  dsimp only
  rw [ht, if_neg (Nat.not_lt_zero _), sub32_of_le (Nat.zero_le _) hs,
    Scan.downFrom_hit (matchesAt_zero ..)]
  refine congrArg Except.ok ?_
  change (if pos < s.size - 0 then pos else s.size - 0) = min pos s.size
  split <;> omega

/-- `find_first_of` is that of the view. -/
theorem findFirstOf_view : s.findFirstOf i j t h pos =
    (s.view i h).findFirstOf (t.view j h) pos := by
  rw [Str.view, Str.view]
  unfold Str.findFirstOf StringView.findFirstOf
  dsimp only
  by_cases hpos : pos ≥ s.size
  · rw [if_pos hpos, Nat.sub_eq_zero_of_le hpos]
    rfl
  · rw [if_neg hpos]

/-- `find_first_not_of` is that of the view. -/
theorem findFirstNotOf_view : s.findFirstNotOf i j t h pos =
    (s.view i h).findFirstNotOf (t.view j h) pos := by
  rw [Str.view, Str.view]
  unfold Str.findFirstNotOf StringView.findFirstNotOf
  simp only [member_end]
  by_cases hpos : pos ≥ s.size
  · rw [if_pos hpos, Nat.sub_eq_zero_of_le hpos]
    rfl
  · rw [if_neg hpos]

/-- Where the searches from behind begin. -/
theorem lastPos_eq (hs : s.size + 1 < 2 ^ 32) (hz : s.size ≠ 0) :
    u32 ((if pos ≥ s.size then sub32 s.size 1 else pos) + 1) =
      (if pos < s.size then pos else sub32 s.size 1) + 1 := by
  rw [sub32_of_le (by omega) (by omega), u32_of_lt]
  · split <;> split <;> omega
  · split <;> omega

/-- `find_last_of` is that of the view; the size plus one must not wrap. -/
theorem findLastOf_view (hs : s.size + 1 < 2 ^ 32) :
    s.findLastOf i j t h pos = (s.view i h).findLastOf (t.view j h) pos := by
  rw [Str.view, Str.view]
  unfold Str.findLastOf StringView.findLastOf
  dsimp only
  by_cases hz : s.size = 0
  · rw [if_pos hz, if_pos hz]
  · rw [if_neg hz, if_neg hz, lastPos_eq hs hz, Scan.downFrom_eq]

/-- `find_last_not_of` is that of the view; the size plus one must not wrap. -/
theorem findLastNotOf_view (hs : s.size + 1 < 2 ^ 32) :
    s.findLastNotOf i j t h pos = (s.view i h).findLastNotOf (t.view j h) pos := by
  rw [Str.view, Str.view]
  unfold Str.findLastNotOf StringView.findLastNotOf
  simp only [member_end]
  by_cases hz : s.size = 0
  · rw [if_pos hz, if_pos hz]
  · rw [if_neg hz, if_neg hz, lastPos_eq hs hz, Scan.downFrom_eq]

/-- `contains` is that of the view. -/
theorem contains_view (hs : s.size < 2 ^ 32) :
    s.contains i j t h = (s.view i h).contains (t.view j h) := by
  unfold Str.contains StringView.contains
  rw [find_view hs]

/-- `starts_with` is that of the view. -/
theorem startsWith_view : s.startsWith i j t h = (s.view i h).startsWith (t.view j h) := by
  rw [Str.view, Str.view]
  unfold Str.startsWith StringView.startsWith
  dsimp only
  by_cases hgt : t.size > s.size
  · rw [if_pos hgt, if_neg (by omega)]
  · rw [if_neg hgt, if_pos (by omega)]

/-- `ends_with` is that of the view. -/
theorem endsWith_view : s.endsWith i j t h = (s.view i h).endsWith (t.view j h) := by
  rw [Str.view, Str.view]
  unfold Str.endsWith StringView.endsWith
  dsimp only
  by_cases hgt : t.size > s.size
  · rw [if_pos hgt, if_neg (by omega)]
  · rw [if_neg hgt, if_pos (by omega)]

end

/-- The loop of `compare` finds a difference where `memcmp` does. -/
theorem memcmp_differ (a b : Chars) (m m' n k : Nat) (r : Int) :
    (do let c ← memcmp a b n k; if c ≠ 0 then return c else return r) =
      (do let o ← StringView.differ ⟨a, m⟩ ⟨b, m'⟩ n k; return o.getD r : Except Stop Int) := by
  induction n generalizing k with
  | zero => rfl
  | succ n ih =>
    unfold memcmp StringView.differ
    dsimp only
    cases a k with
    | error e => rfl
    | ok x =>
      cases b k with
      | error e => rfl
      | ok y =>
        simp only [bind, Except.bind, pure, Except.pure, BitVec.lt_def, gt_iff_lt] at ih ⊢
        rcases Nat.lt_trichotomy x.toNat y.toNat with hlt | heq | hgt
        · have hne : x ≠ y := fun heq => Nat.lt_irrefl _ (heq ▸ hlt)
          simp [hlt, hne, Nat.not_lt_of_lt hlt]
        · have heq := BitVec.eq_of_toNat_eq heq
          subst heq
          simpa using ih (k + 1)
        · have hne : x ≠ y := fun heq => Nat.lt_irrefl _ (heq ▸ hgt)
          simp [hgt, hne, Nat.not_lt_of_lt hgt]

section

variable {i j : Nat} {s t : Str} {h : Heap} {pos : Nat}

/-- `compare` is that of the view. -/
theorem compare_view : s.compare i j t h = (s.view i h).compare (t.view j h) := by
  rw [Str.view, Str.view]
  unfold Str.compare StringView.compare
  dsimp only
  have hrest : (if s.size < t.size then return -1 else if s.size > t.size then return 1
    else return 0 : Except Stop Int) =
      return if s.size = t.size then 0 else if s.size < t.size then -1 else 1 := by
    split
    · rw [if_neg (by omega)]
    · split
      · rw [if_neg (by omega)]
      · rw [if_pos (by omega)]
  rw [hrest, memcmp_differ (s.char i h) (t.char j h) s.size t.size]
  generalize (if s.size < t.size then s.size else t.size) = rlen
  cases rlen with
  | zero => rfl
  | succ rlen => rw [if_neg (Nat.succ_ne_zero rlen)]

end

/-! ## searches end -/

/-- All characters of the view can be read. -/
def StringView.Readable (v : StringView) : Prop :=
  ∀ k, k < v.size → Post (fun _ => False) (v.data k) fun _ => True

/-- A computation that comes to a result. -/
abbrev Returns {α : Type} (x : Except Stop α) : Prop := Post (fun _ => False) x fun _ => True

namespace StringView

variable {s v : StringView} {pos k : Nat}

/-- A comparison inside the text returns. -/
theorem matchesAt_returns (hs : s.Readable) (hv : v.Readable) (hk : k + v.size ≤ s.size) :
    Returns (matchesAt s.data v.data v.size k) :=
  matchesAt_post (fun m hm => hs m (by omega)) hv

/-- A test for membership returns. -/
theorem member_returns (hs : s.Readable) (hv : v.Readable) (hk : k < s.size)
    (f : Option Nat → Bool) :
    Returns (do let m ← member s.data v.data v.size k; return f m) :=
  Post.bind (member_post (hs k hk) hv) fun _ _ => trivial

/-- `find` returns on readable views. -/
theorem find_returns (hs : s.Readable) (hv : v.Readable) (hlt : s.size < 2 ^ 32) :
    Returns (s.find v pos) := by
  unfold find
  split
  · exact trivial
  · next hin =>
    rw [sub32_of_le (by omega) hlt] at hin
    rw [sub32_of_le (by omega) hlt]
    exact Post.bind (Scan.up_post fun k _ hk => matchesAt_returns hs hv (by omega)) fun _ _ =>
      trivial

/-- `rfind` returns on readable views. -/
theorem rfind_returns (hs : s.Readable) (hv : v.Readable) (hlt : s.size < 2 ^ 32) :
    Returns (s.rfind v pos) := by
  unfold rfind
  split
  · exact trivial
  · rw [sub32_of_le (by omega) hlt]
    dsimp only
    rw [Scan.downFrom_eq]
    refine Post.bind (Scan.down_post fun k hk => matchesAt_returns hs hv ?_) fun _ _ => trivial
    split at hk <;> omega

/-- `find_first_of` returns on readable views. -/
theorem findFirstOf_returns (hs : s.Readable) (hv : v.Readable) : Returns (s.findFirstOf v pos) :=
  Post.bind (Scan.up_post fun _ _ hk => member_returns hs hv (by omega) _) fun _ _ => trivial

/-- `find_first_not_of` returns on readable views. -/
theorem findFirstNotOf_returns (hs : s.Readable) (hv : v.Readable) :
    Returns (s.findFirstNotOf v pos) :=
  Post.bind (Scan.up_post fun _ _ hk => member_returns hs hv (by omega) _) fun _ _ => trivial

/-- The searches from behind begin at a character. -/
theorem down_returns {p : Nat → Except Stop Bool} (hp : ∀ k, k < s.size → Returns (p k))
    (hlt : s.size < 2 ^ 32) :
    Returns (if s.size = 0 then .ok npos else do
      let pos := if pos < s.size then pos else sub32 s.size 1
      let o ← Scan.downFrom p pos
      return place o) := by
  split
  · exact trivial
  · rw [sub32_of_le (by omega) hlt]
    dsimp only
    rw [Scan.downFrom_eq]
    refine Post.bind (Scan.down_post fun k hk => hp k ?_) fun _ _ => trivial
    split at hk <;> omega

/-- `find_last_of` returns on readable views. -/
theorem findLastOf_returns (hs : s.Readable) (hv : v.Readable) (hlt : s.size < 2 ^ 32) :
    Returns (s.findLastOf v pos) :=
  down_returns (fun _ hk => member_returns hs hv hk _) hlt

/-- `find_last_not_of` returns on readable views. -/
theorem findLastNotOf_returns (hs : s.Readable) (hv : v.Readable) (hlt : s.size < 2 ^ 32) :
    Returns (s.findLastNotOf v pos) :=
  down_returns (fun _ hk => member_returns hs hv hk _) hlt

/-- `contains` returns on readable views. -/
theorem contains_returns (hs : s.Readable) (hv : v.Readable) (hlt : s.size < 2 ^ 32) :
    Returns (s.contains v) :=
  Post.bind (find_returns hs hv hlt) fun _ _ => trivial

/-- `starts_with` returns on readable views. -/
theorem startsWith_returns (hs : s.Readable) (hv : v.Readable) : Returns (s.startsWith v) := by
  unfold startsWith
  split
  · exact matchesAt_returns hs hv (by omega)
  · exact trivial

/-- `ends_with` returns on readable views. -/
theorem endsWith_returns (hs : s.Readable) (hv : v.Readable) (hlt : s.size < 2 ^ 32) :
    Returns (s.endsWith v) := by
  unfold endsWith
  split
  · next hle =>
    rw [sub32_of_le hle hlt]
    exact matchesAt_returns hs hv (by omega)
  · exact trivial

/-- `compare` returns on readable views. -/
theorem compare_returns (hs : s.Readable) (hv : v.Readable) : Returns (s.compare v) := by
  have hdiffer : ∀ n k, k + n ≤ s.size → k + n ≤ v.size → Returns (s.differ v n k) := by
    intro n
    induction n with
    | zero => exact fun _ _ _ => trivial
    | succ n ih =>
      intro k hk hk'
      refine Post.bind (hs k (by omega)) fun x _ => Post.bind (hv k (by omega)) fun y _ => ?_
      split
      · exact trivial
      · exact ih (k + 1) (by omega) (by omega)
  unfold compare
  dsimp only
  generalize hr : (if s.size < v.size then s.size else v.size) = r
  split
  · exact trivial
  · refine Post.bind (hdiffer r 0 ?_ ?_) fun _ _ => trivial
    · split at hr <;> omega
    · split at hr <;> omega

end StringView

/-! ## agreement -/

/-- Both computations come to results, and `R` relates them. -/
def Alike {α : Type} (R : α → α → Prop) (x y : Except Stop α) : Prop :=
  ∃ a b, x = .ok a ∧ y = .ok b ∧ R a b

/-- Two calls that are equal and return are alike. -/
theorem alike_of_eq {α : Type} {R : α → α → Prop} {x y : Except Stop α} (hR : ∀ a, R a a)
    (heq : x = y) (hy : Returns y) : Alike R x y := by
  cases y with
  | ok a => exact ⟨a, a, heq, rfl, hR a⟩
  | error e => exact hy.elim

/-- What the searches in the string at `i` for the string at `j` come to is what they come
to on views of the two. -/
structure SearchesAgree (i : Nat) (s : Str) (j : Nat) (t : Str) (h : Heap) (pos : Nat) : Prop where
  find : Alike Eq (s.find i j t h pos) ((s.view i h).find (t.view j h) pos)
  rfind : Alike Eq (s.rfind i j t h pos) ((s.view i h).rfind (t.view j h) pos)
  findFirstOf : Alike Eq (s.findFirstOf i j t h pos) ((s.view i h).findFirstOf (t.view j h) pos)
  findLastOf : Alike Eq (s.findLastOf i j t h pos) ((s.view i h).findLastOf (t.view j h) pos)
  findFirstNotOf : Alike Eq (s.findFirstNotOf i j t h pos)
    ((s.view i h).findFirstNotOf (t.view j h) pos)
  findLastNotOf : Alike Eq (s.findLastNotOf i j t h pos)
    ((s.view i h).findLastNotOf (t.view j h) pos)
  contains : Alike Eq (s.contains i j t h) ((s.view i h).contains (t.view j h))
  startsWith : Alike Eq (s.startsWith i j t h) ((s.view i h).startsWith (t.view j h))
  endsWith : Alike Eq (s.endsWith i j t h) ((s.view i h).endsWith (t.view j h))
  compare : Alike (fun c d => c.sign = d.sign) (s.compare i j t h)
    ((s.view i h).compare (t.view j h))

section

variable {i j : Nat} {s t : Str} {h : Heap} {pos : Nat} {l m : List (BitVec 8)}

/-- The view of a string can be read. -/
theorem Str.Has.readable (hs : s.Has i h l) : (s.view i h).Readable := by
  intro k hk
  have hlt : k + 1 ≤ l.length := hs.size ▸ hk
  change Post _ (s.char i h k) _
  unfold Str.char
  rw [hs.read hlt]
  exact trivial

/-- A size that has room for the terminator. -/
theorem Str.Has.size_lt (hs : s.Has i h l) : s.size + 1 < 2 ^ 32 := by
  have hcap := hs.cap_lt
  have hle := hs.size_le
  omega

/-- **The searches of strings and of views agree** as long as they do not look for the empty string.
-/
theorem searches_agree_iff (hs : s.Has i h l) (ht : t.Has j h m) (pos : Nat) :
    SearchesAgree i s j t h pos ↔ m ≠ [] := by
  have hS := hs.readable
  have hT := ht.readable
  have hlt := hs.size_lt
  have hlt' : s.size < 2 ^ 32 := by omega
  constructor
  · rintro hagree rfl
    obtain ⟨a, b, ha, hb, rfl⟩ := hagree.rfind
    rw [rfind_empty ht.size] at ha
    rw [rfind_empty_view hlt' ht.size] at hb
    have hnpos : npos = min pos s.size := by
      rw [Except.ok.inj ha, Except.ok.inj hb]
    unfold npos at hnpos
    omega
  · intro hne
    have hz : t.size ≠ 0 := by
      rw [ht.size]
      exact fun hz => hne (List.length_eq_zero_iff.mp hz)
    exact {
      find := alike_of_eq (fun _ => rfl) (find_view hlt') (StringView.find_returns hS hT hlt')
      rfind := alike_of_eq (fun _ => rfl) (rfind_view hlt hz) (StringView.rfind_returns hS hT hlt')
      findFirstOf :=
        alike_of_eq (fun _ => rfl) findFirstOf_view (StringView.findFirstOf_returns hS hT)
      findLastOf :=
        alike_of_eq (fun _ => rfl) (findLastOf_view hlt) (StringView.findLastOf_returns hS hT hlt')
      findFirstNotOf :=
        alike_of_eq (fun _ => rfl) findFirstNotOf_view (StringView.findFirstNotOf_returns hS hT)
      findLastNotOf := alike_of_eq (fun _ => rfl) (findLastNotOf_view hlt)
        (StringView.findLastNotOf_returns hS hT hlt')
      contains :=
        alike_of_eq (fun _ => rfl) (contains_view hlt') (StringView.contains_returns hS hT hlt')
      startsWith := alike_of_eq (fun _ => rfl) startsWith_view (StringView.startsWith_returns hS hT)
      endsWith := alike_of_eq (fun _ => rfl) endsWith_view (StringView.endsWith_returns hS hT hlt')
      compare := alike_of_eq (fun _ => rfl) compare_view (StringView.compare_returns hS hT) }

end

/-- A short string at `i`. -/
def short (i : Nat) (l : List (BitVec 8)) : Str :=
  ⟨.sso i, l.length, ssoCapacity, fun k => l.getD k 0⟩

/-- A short text is a string. -/
theorem short_has (h : Heap) (hl : l.length ≤ ssoCapacity) : (short i l).Has i h l := by
  refine has_sso rfl (fun k x hk => ?_) ?_ rfl hl h
  · show l.getD k 0 = x
    rw [List.getD_eq_getElem?_getD, hk]
    rfl
  · show l.getD l.length 0 = 0
    rw [List.getD_eq_getElem?_getD, List.getElem?_eq_none (Nat.le_refl _)]
    rfl

/-- `"banana"`. -/
def banana : List (BitVec 8) := [0x62, 0x61, 0x6E, 0x61, 0x6E, 0x61]

/-- `"ana"`. -/
def ana : List (BitVec 8) := [0x61, 0x6E, 0x61]

/-- The needle `ana`, from the third character of `banana` on. -/
theorem searches_agree_iff_banana :
    SearchesAgree 0 (short 0 banana) 1 (short 1 ana) Mach.empty.heap 2 :=
  (searches_agree_iff (short_has _ (by decide)) (short_has _ (by decide)) 2).mpr
    (List.cons_ne_nil _ _)

/-- **`string::rfind` misses the empty string**, which `string_view::rfind` finds. -/
theorem rfind_misses_empty :
    (short 0 [0x61]).Has 0 Mach.empty.heap [0x61] ∧ (short 1 []).Has 1 Mach.empty.heap [] ∧
      (short 0 [0x61]).rfind 0 1 (short 1 []) Mach.empty.heap npos = .ok npos ∧
      ((short 0 [0x61]).view 0 Mach.empty.heap).rfind
        ((short 1 []).view 1 Mach.empty.heap) npos = .ok 1 ∧
      ¬ SearchesAgree 0 (short 0 [0x61]) 1 (short 1 []) Mach.empty.heap npos := by
  have hstring : (short 0 [0x61]).rfind 0 1 (short 1 []) Mach.empty.heap npos = .ok npos :=
    rfind_empty rfl
  have hview : ((short 0 [0x61]).view 0 Mach.empty.heap).rfind
      ((short 1 []).view 1 Mach.empty.heap) npos = .ok 1 :=
    rfind_empty_view (by decide) rfl
  refine ⟨short_has _ (by decide), short_has _ (by decide), hstring, hview, fun hagree => ?_⟩
  obtain ⟨a, b, ha, hb, rfl⟩ := hagree.rfind
  rw [hstring] at ha
  rw [hview, ← Except.ok.inj ha] at hb
  exact absurd (Except.ok.inj hb) (by decide)

end Doors.Libcxx
