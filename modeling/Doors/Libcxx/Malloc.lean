import Mathlib.Algebra.Group.Nat.Defs
import Mathlib.Algebra.GroupWithZero.Nat
import Mathlib.Data.Nat.Bitwise
import Doors.Lib.Run
import Doors.Lib.Cells

/-!
# Doors.Libcxx.Malloc

`malloc` and `free` of user programs (`libc++/stdlib/malloc.cc`).

The memory is known by its words; a header is the word `next` and the word `size`
behind it.  Where the pool lies and how large `alignof(max_align_t)` is, is said by
the linker and by the compiler (`Layout`).  The blocks that the program holds, with the
sizes it asked for, are kept beside the memory, so that it can be said what it may free
and where it may store.

* `Sound` — the blocks of the program lie in the pool and apart from each other;
* `malloc_sound` — they do in every run in which a free pool is only asked for sizes
  that, rounded up and with a header, are below `2 ^ 32`;
* `malloc_short` — a larger size wraps to a small one, which is found;
* `malloc_answers_first` — a pool serves one block, as `malloc` does not split it.
-/

namespace Doors.Malloc

open Cells Run

def POOL_SIZE : Nat := 16384

/-- `sizeof(Header)`. -/
def sizeofHeader : Nat := 8

/-- Where the pool lies, and `alignof(max_align_t)`. -/
structure Layout where
  pool : Nat
  align : Nat
  pow : ∃ k, align = 2 ^ k
  /-- the `static_assert` -/
  header_le : sizeofHeader ≤ align
  /-- the `alignas` -/
  aligned : align ∣ pool
  pool_pos : 0 < pool
  pool_le : pool + POOL_SIZE ≤ 2 ^ 32

/-- The memory, the two static variables, and the blocks of the program. -/
structure State where
  mem : Nat → Nat
  freeList : Nat := 0
  initialized : Bool := false
  live : List (Nat × Nat) := []

/-- `size_t` arithmetic. -/
def u32 (n : Nat) : Nat := n % 2 ^ 32

namespace State

variable (L : Layout) (s : State)

/-- `hdr->next`. -/
def next (hdr : Nat) : Nat := s.mem hdr

/-- `hdr->size`. -/
def size (hdr : Nat) : Nat := s.mem (hdr + 4)

def setNext (hdr v : Nat) : State := { s with mem := set s.mem hdr v }

def setSize (hdr v : Nat) : State := { s with mem := set s.mem (hdr + 4) v }

/-- `init`. -/
def init : State :=
  if s.initialized then s
  else
    let s := { s with initialized := true, freeList := L.pool }
    let s := s.setNext L.pool 0
    s.setSize L.pool (POOL_SIZE - sizeofHeader)

/-- The bytes `malloc` looks for. -/
def needed (size : Nat) : Nat :=
  let aligned := u32 (size + L.align - 1) &&& (2 ^ 32 - 1 - (L.align - 1))
  u32 (sizeofHeader + aligned)

/-- The loop of `malloc`; `none` when it does not end. -/
def search (needed : Nat) : Nat → Nat → Nat → Option (Nat × State)
  | fuel, prev, cur =>
      if cur = 0 then some (0, s)
      else if s.size cur ≥ needed then
        let s := if prev ≠ 0 then s.setNext prev (s.next cur) else { s with freeList := s.next cur }
        some (u32 (cur + sizeofHeader), s)
      else
        match fuel with
        | 0 => none
        | fuel + 1 => search needed fuel cur (s.next cur)

/-- `malloc`.  There are no more headers than fit into the pool. -/
def malloc (size : Nat) : Option (Nat × State) :=
  if size = 0 then some (0, s)
  else
    let s := s.init L
    s.search (needed L size) (POOL_SIZE / sizeofHeader) 0 s.freeList

/-- `free`. -/
def free (ptr : Nat) : State :=
  if ptr = 0 then s
  else
    let hdr := ptr - sizeofHeader
    let s := s.setNext hdr s.freeList
    { s with freeList := hdr }

end State

/-! ## programs -/

/-- What a program does with the pool: requests, releases, and stores to its blocks. -/
inductive Op where
  | malloc (size : Nat)
  | free (ptr : Nat)
  | store (addr value : Nat)

/-- How an operation can fail to end. -/
inductive Stuck where
  | endless
  deriving DecidableEq

namespace State

variable (L : Layout)

def exec (s : State) : Op → Except Stuck State
  | .malloc size =>
      match s.malloc L size with
      | none => .error .endless
      | some (ptr, s) => .ok { s with live := if ptr = 0 then s.live else (ptr, size) :: s.live }
  | .free ptr => .ok { s.free ptr with live := s.live.eraseP fun b => b.1 = ptr }
  | .store addr value => .ok { s with mem := set s.mem addr value }

/-- Sizes are of type `size_t`; only live blocks are freed and stored to. -/
def Allowed (s : State) : Op → Prop
  | .malloc size => size < 2 ^ 32
  | .free ptr => ptr = 0 ∨ ∃ b ∈ s.live, b.1 = ptr
  | .store addr _ => ∃ b ∈ s.live, b.1 ≤ addr ∧ addr + 4 ≤ b.1 + b.2

/-- **Sound pool**: every block of the program lies in the pool, in the size that was
asked for, and no two of them share a byte. -/
structure Sound (s : State) : Prop where
  inside : ∀ b ∈ s.live, L.pool ≤ b.1 ∧ b.1 + b.2 ≤ L.pool + POOL_SIZE
  apart : s.live.Pairwise fun b c => b.1 + b.2 ≤ c.1 ∨ c.1 + c.2 ≤ b.1

end State

/-- `size` rounded up to the maximum alignment, without wrapping. -/
def Layout.roundUp (L : Layout) (size : Nat) : Nat := (size + L.align - 1) / L.align * L.align

/-- A request finds the pool lent out, or it can be rounded up and given a header without
wrapping. -/
def State.Fits (L : Layout) (s : State) : Op → Prop
  | .malloc size => s.live ≠ [] ∨ L.roundUp size + sizeofHeader < 2 ^ 32
  | _ => True

instance (s : State) (op : Op) : Decidable (s.Allowed op) := by
  cases op <;> unfold State.Allowed <;> infer_instance

instance (L : Layout) (s : State) (op : Op) : Decidable (s.Fits L op) := by
  cases op <;> unfold State.Fits <;> infer_instance

/-! ## rounding -/

/-- `x & ~(2 ^ k - 1)` in 32 bits. -/
theorem and_mask {x k : Nat} (hx : x < 2 ^ 32) (hk : k ≤ 32) :
    x &&& (2 ^ 32 - 1 - (2 ^ k - 1)) = x / 2 ^ k * 2 ^ k := by
  have hpow : 2 ^ k ≤ 2 ^ 32 := Nat.pow_le_pow_right (by decide) hk
  have hpos := Nat.two_pow_pos k
  rw [show 2 ^ 32 - 1 - (2 ^ k - 1) = 2 ^ 32 - (2 ^ k - 1 + 1) by omega]
  refine Nat.eq_of_testBit_eq fun i => ?_
  rw [Nat.testBit_and, Nat.testBit_two_pow_sub_succ (by omega), Nat.testBit_two_pow_sub_one,
    Nat.testBit_mul_two_pow, Nat.testBit_div_two_pow]
  by_cases hik : k ≤ i
  · by_cases hi : i < 32
    · simp [hik, hi, Nat.not_lt_of_le hik, Nat.sub_add_cancel hik]
    · have hfalse : x.testBit i = false :=
        Nat.testBit_lt_two_pow (Nat.lt_of_lt_of_le hx (Nat.pow_le_pow_right (by decide) (by omega)))
      simp [hik, hfalse, Nat.sub_add_cancel hik]
  · simp [hik, Nat.lt_of_not_le hik]

namespace Layout

variable (L : Layout) {size : Nat}

/-- Alignments are positive. -/
theorem align_pos : 0 < L.align := Nat.lt_of_lt_of_le (by decide) L.header_le

/-- Alignments are powers of two. -/
theorem pow_le : ∃ k ≤ 32, L.align = 2 ^ k := by
  obtain ⟨k, hk⟩ := L.pow
  refine ⟨k, Nat.le_of_lt ((Nat.pow_lt_pow_iff_right (by decide : 1 < 2)).mp ?_), hk⟩
  rw [← hk]
  have hle := Nat.le_of_dvd L.pool_pos L.aligned
  have hfit := L.pool_le
  unfold POOL_SIZE at hfit
  omega

/-- Rounding does not go down. -/
theorem le_roundUp (size : Nat) : size ≤ L.roundUp size := by
  have hpos := L.align_pos
  have hdiv := Nat.div_add_mod (size + L.align - 1) L.align
  have hmod := Nat.mod_lt (size + L.align - 1) hpos
  rw [Nat.mul_comm] at hdiv
  unfold roundUp
  omega

/-- What is rounded up below `2 ^ 32` stays so far below that the sum before the mask does not wrap.
-/
theorem needed_eq (h : L.roundUp size + sizeofHeader < 2 ^ 32) :
    State.needed L size = sizeofHeader + L.roundUp size := by
  obtain ⟨k, hk, hpow⟩ := L.pow_le
  have hpos := L.align_pos
  have hle := L.le_roundUp size
  have hdvd : L.align ∣ 2 ^ 32 := hpow ▸ Nat.pow_dvd_pow 2 hk
  have hround : L.roundUp size + L.align ≤ 2 ^ 32 := by
    obtain ⟨q, hq⟩ := hdvd
    have hlt : (size + L.align - 1) / L.align < q := by
      refine Nat.lt_of_mul_lt_mul_right (a := L.align) ?_
      rw [Nat.mul_comm q, ← hq]
      exact Nat.lt_of_le_of_lt (Nat.le_add_right _ _) h
    have hmul := Nat.mul_le_mul_right L.align hlt
    rw [Nat.mul_comm q, ← hq, Nat.succ_mul] at hmul
    exact hmul
  have hsum : size + L.align - 1 < 2 ^ 32 := by omega
  unfold State.needed u32
  dsimp only
  rw [Nat.mod_eq_of_lt hsum, hpow, and_mask (hpow ▸ hsum) hk, ← hpow,
    Nat.mod_eq_of_lt (by unfold roundUp at h; omega)]
  rfl

end Layout

namespace State

variable {L : Layout} {s s' : State} {hdr needed fuel size : Nat}

@[simp] theorem setNext_next (v : Nat) : (s.setNext hdr v).next hdr = v := set_self ..
@[simp] theorem setNext_size (v : Nat) : (s.setNext hdr v).size hdr = s.size hdr :=
  set_of_ne _ _ (by omega)

/-! ## the free list -/

/-- At the end of the list. -/
theorem search_nil (s : State) (needed fuel prev : Nat) :
    s.search needed fuel prev 0 = some (0, s) := by
  unfold search
  exact if_pos rfl

/-- A list of one header. -/
theorem search_one (hne : hdr ≠ 0) (hnext : s.next hdr = 0) :
    s.search needed (fuel + 1) 0 hdr =
      some (if s.size hdr ≥ needed then (u32 (hdr + sizeofHeader), { s with freeList := 0 })
        else (0, s)) := by
  unfold search
  rw [if_neg hne, hnext]
  split
  · rw [if_neg (by simp)]
  · exact search_nil s needed fuel hdr

/-- The pool is one free block. -/
structure Idle (L : Layout) (s : State) : Prop where
  initialized : s.initialized = true
  size : s.size L.pool = POOL_SIZE - sizeofHeader
  freeList : s.freeList = L.pool
  next : s.next L.pool = 0

/-- The pool is lent out. -/
structure Lent (L : Layout) (s : State) : Prop where
  initialized : s.initialized = true
  size : s.size L.pool = POOL_SIZE - sizeofHeader
  freeList : s.freeList = 0

/-- The first call makes one free block. -/
theorem init_idle (h : s.initialized = false) : (s.init L).Idle L := by
  unfold init
  rw [h, if_neg (by simp)]
  exact ⟨rfl, set_self .., rfl, (set_of_ne _ _ (by omega)).trans (set_self ..)⟩

/-- Later calls do nothing. -/
theorem init_initialized (h : s.initialized = true) : s.init L = s := if_pos h

/-- `init` gives nothing out. -/
theorem init_live : (s.init L).live = s.live := by
  unfold init
  split <;> rfl

/-- A pool with its one block stays so. -/
theorem Idle.init (h : s.Idle L) : (s.init L).Idle L := by
  rw [init_initialized h.initialized]
  exact h

/-- The block is given out whole. -/
theorem Idle.lend (h : s.Idle L) (live : List (Nat × Nat)) :
    ({ s with freeList := 0, live } : State).Lent L :=
  ⟨h.initialized, h.size, rfl⟩

/-- The pool does not wrap. -/
theorem u32_pool (L : Layout) : u32 (L.pool + sizeofHeader) = L.pool + sizeofHeader := by
  have hfit := L.pool_le
  unfold POOL_SIZE at hfit
  unfold u32 sizeofHeader
  omega

/-- No pointer into the pool is null. -/
theorem ptr_ne_zero (L : Layout) : L.pool + sizeofHeader ≠ 0 := by
  have hpos := L.pool_pos
  omega

/-- A free pool is lent out whole to the first request that it can serve. -/
theorem malloc_idle (h : (s.init L).Idle L) (hsize : size ≠ 0) :
    s.malloc L size =
      some (if State.needed L size ≤ POOL_SIZE - sizeofHeader
        then (L.pool + sizeofHeader, { s.init L with freeList := 0 })
        else (0, s.init L)) := by
  unfold malloc
  rw [if_neg hsize]
  dsimp only
  rw [h.freeList, show POOL_SIZE / sizeofHeader = 2047 + 1 from rfl,
    search_one (Nat.ne_of_gt L.pool_pos) h.next, h.size, u32_pool]

/-- Nothing is left of a pool that is lent out. -/
theorem malloc_lent (h : s.Lent L) : s.malloc L size = some (0, s) := by
  unfold malloc
  split
  · rfl
  · dsimp only
    rw [init_initialized h.initialized, h.freeList, search_nil]

/-! ## one block at a time -/

/-- Between two operations the pool is free, or lent out to the only block of the program. -/
inductive Inv (L : Layout) (s : State) : Prop where
  | free (idle : (s.init L).Idle L) (live : s.live = [])
  | lent (lent : s.Lent L) (n : Nat) (le : n ≤ POOL_SIZE - sizeofHeader)
    (live : s.live = [(L.pool + sizeofHeader, n)])

/-- Before the first call. -/
theorem start_inv (mem : Nat → Nat) : ({ mem } : State).Inv L := .free (init_idle rfl) rfl

/-- **Soundness** of a state that keeps the invariant. -/
theorem Inv.sound (h : s.Inv L) : s.Sound L := by
  cases h with
  | free _ hlive => exact ⟨by simp [hlive], by simp [hlive]⟩
  | lent _ n hle hlive =>
    refine ⟨fun b hb => ?_, by simp [hlive]⟩
    rw [hlive, List.mem_singleton] at hb
    subst hb
    unfold POOL_SIZE sizeofHeader at *
    dsimp only
    omega

/-- A request of a size that does not wrap. -/
theorem Inv.malloc (h : s.Inv L) (hfits : s.Fits L (.malloc size)) :
    ∃ t, s.exec L (.malloc size) = .ok t ∧ t.Inv L := by
  cases h with
  | lent hlent n hle hlive =>
    refine ⟨s, ?_, .lent hlent n hle hlive⟩
    simp only [exec, malloc_lent hlent, if_true]
  | free hidle hlive =>
    by_cases hzero : size = 0
    · subst hzero
      exact ⟨s, rfl, .free hidle hlive⟩
    · simp only [exec, malloc_idle hidle hzero,
        L.needed_eq (hfits.resolve_left fun hne => hne hlive)]
      by_cases hfit : sizeofHeader + L.roundUp size ≤ POOL_SIZE - sizeofHeader
      · have hle := L.le_roundUp size
        simp only [if_pos hfit, if_neg (ptr_ne_zero L), init_live, hlive]
        exact ⟨_, rfl, .lent (hidle.lend _) size (by omega) rfl⟩
      · simp only [if_neg hfit, if_true]
        exact ⟨_, rfl, .free hidle.init (init_live.trans hlive)⟩

/-- A release, of the only block if of anything. -/
theorem Inv.release {ptr : Nat} (h : s.Inv L) (hop : s.Allowed (.free ptr)) :
    ∃ t, s.exec L (.free ptr) = .ok t ∧ t.Inv L := by
  refine ⟨_, rfl, ?_⟩
  cases h with
  | free hidle hlive =>
    obtain rfl := hop.resolve_right (by simp [hlive])
    have herase : (s.live.eraseP fun b => b.1 = 0) = s.live := by
      rw [hlive]
      rfl
    rw [herase]
    exact .free hidle hlive
  | lent hlent n hle hlive =>
    rcases hop with rfl | ⟨b, hb, rfl⟩
    · exact .lent ⟨hlent.initialized, hlent.size, hlent.freeList⟩ n hle
        (by simp [hlive, Nat.ne_of_gt L.pool_pos])
    · rw [hlive, List.mem_singleton] at hb
      subst hb
      unfold State.free
      dsimp only
      rw [if_neg (ptr_ne_zero L), Nat.add_sub_cancel, hlent.freeList]
      refine .free ?_ (by simp [hlive])
      exact Idle.init ⟨hlent.initialized, (setNext_size 0).trans hlent.size, rfl, setNext_next 0⟩

/-- A store of the program; the header lies in front of the block. -/
theorem Inv.store {addr value : Nat} (h : s.Inv L) (hop : s.Allowed (.store addr value)) :
    ∃ t, s.exec L (.store addr value) = .ok t ∧ t.Inv L := by
  obtain ⟨b, hb, hfrom, -⟩ := hop
  cases h with
  | free _ hlive => simp [hlive] at hb
  | lent hlent n hle hlive =>
    rw [hlive, List.mem_singleton] at hb
    subst hb
    have hsize : set s.mem addr value (L.pool + 4) = s.mem (L.pool + 4) :=
      set_of_ne _ _ (by unfold sizeofHeader at hfrom; omega)
    exact ⟨_, rfl, .lent ⟨hlent.initialized, hsize.trans hlent.size, hlent.freeList⟩ n hle hlive⟩

/-- **One call** ends, and keeps the invariant. -/
theorem Inv.exec {op : Op} (h : s.Inv L) (hop : s.Allowed op) (hfits : s.Fits L op) :
    ∃ t, s.exec L op = .ok t ∧ t.Inv L := by
  cases op with
  | malloc size => exact h.malloc hfits
  | free ptr => exact h.release hop
  | store addr value => exact h.store hop

/-- **No short or shared block** is handed out in a program that asks a free pool for no size that,
rounded up and with a header, wraps; and every operation of such a program ends. -/
theorem malloc_sound (L : Layout) (mem : Nat → Nat) (tr : List Op) (s : State)
    (hrun : Reach (exec L) (fun s op => s.Allowed op ∧ s.Fits L op) { mem } tr s) :
    s.Sound L ∧ ∀ op, s.Allowed op → s.Fits L op → ∃ t, s.exec L op = .ok t := by
  have hinv := hrun.inv (start_inv mem) fun s op t hs hop hnext => by
    obtain ⟨t', hnext', hinv⟩ := hs.exec hop.1 hop.2
    rw [hnext] at hnext'
    exact Except.ok.inj hnext' ▸ hinv
  refine ⟨hinv.sound, fun op hop hfits => ?_⟩
  obtain ⟨t, ht, -⟩ := hinv.exec hop hfits
  exact ⟨t, ht⟩

end State

/-- A pool where the linker may put it, with the alignment of the i386 compiler. -/
def i386 : Layout where
  pool := 0x8100000
  align := 16
  pow := ⟨4, rfl⟩
  header_le := by decide
  aligned := ⟨0x810000, rfl⟩
  pool_pos := by decide
  pool_le := by decide

namespace State

/-- The block is given out and comes back. -/
theorem malloc_sound_lend :
    ∃ s, Reach (exec i386) (fun s op => s.Allowed op ∧ s.Fits i386 op) { mem := fun _ => 0 }
    [.malloc 100, .store 0x8100008 7, .malloc (2 ^ 32 - 1), .free 0x8100008, .malloc 200] s ∧
      s.live = [(0x8100008, 200)] ∧ s.Sound i386 := by
  obtain ⟨s, hrun, hlive⟩ :=
    Reach.of_runsTo (exec i386) (fun s op => s.Allowed op ∧ s.Fits i386 op) { mem := fun _ => 0 }
    [.malloc 100, .store 0x8100008 7, .malloc (2 ^ 32 - 1), .free 0x8100008, .malloc 200]
      (fun s => s.live = [(0x8100008, 200)]) (by decide +kernel)
  exact ⟨s, hrun, of_decide_eq_true hlive, (malloc_sound i386 _ _ s hrun).1⟩

/-- **A short block**: the largest size rounds up to 0, for which the pool is large enough. -/
theorem malloc_short :
    ∃ s, Reach (exec i386) State.Allowed { mem := fun _ => 0 } [.malloc (2 ^ 32 - 1)] s ∧
    s.live = [(0x8100008, 2 ^ 32 - 1)] ∧ ¬ s.Sound i386 := by
  obtain ⟨s, hrun, hlive⟩ :=
    Reach.of_runsTo (exec i386) State.Allowed { mem := fun _ => 0 } [.malloc (2 ^ 32 - 1)]
    (fun s => s.live = [(0x8100008, 2 ^ 32 - 1)]) (by decide +kernel)
  have hlive := of_decide_eq_true hlive
  refine ⟨s, hrun, hlive, fun hsound => ?_⟩
  have hin := (hsound.inside _ (hlive ▸ List.mem_singleton_self _)).2
  exact absurd hin (by decide)

/-! ## requests -/

/-- The answers to a sequence of requests. -/
def requests (L : Layout) (s : State) : List Nat → Option (List Nat)
  | [] => some []
  | size :: sizes => do
      let (ptr, s) ← s.malloc L size
      let ptrs ← requests L s sizes
      return ptr :: ptrs

/-- The first request of some size is answered, and no other. -/
def answers (ptr : Nat) : List Nat → List Nat
  | [] => []
  | size :: sizes => if size = 0 then 0 :: answers ptr sizes else ptr :: sizes.map fun _ => 0

variable {L : Layout} {s : State} {sizes : List Nat}

/-- While the block is out every request fails. -/
theorem requests_lent (h : s.Lent L) : s.requests L sizes = some (sizes.map fun _ => 0) := by
  induction sizes with
  | nil => rfl
  | cons size sizes ih =>
    rw [requests, malloc_lent h]
    dsimp only [bind, Option.bind]
    rw [ih]
    rfl

/-- The first request that is not for nothing gets the block. -/
theorem requests_idle (h : (s.init L).Idle L)
    (hsum : (sizes.map fun size => L.roundUp size + sizeofHeader).sum ≤ POOL_SIZE - sizeofHeader) :
    s.requests L sizes = some (answers (L.pool + sizeofHeader) sizes) := by
  induction sizes with
  | nil => rfl
  | cons size sizes ih =>
    rw [List.map_cons, List.sum_cons] at hsum
    rw [requests, answers]
    split
    · next hzero =>
      subst hzero
      rw [show s.malloc L 0 = some (0, s) from rfl]
      dsimp only [bind, Option.bind]
      rw [ih (by omega)]
      rfl
    · next hzero =>
      have hneeded : State.needed L size = sizeofHeader + L.roundUp size :=
        L.needed_eq (Nat.lt_of_le_of_lt (Nat.le_of_add_right_le hsum) (by decide))
      rw [malloc_idle h hzero, hneeded, if_pos (by omega)]
      dsimp only [bind, Option.bind]
      rw [requests_lent (h.lend _)]
      rfl

/-- Who gets the block. -/
theorem answers_get {ptr k n p : Nat} (hptr : ptr ≠ 0) (hk : sizes[k]? = some n)
    (hp : (answers ptr sizes)[k]? = some p) :
    p ≠ 0 ↔ n ≠ 0 ∧ ∀ m ∈ sizes.take k, m = 0 := by
  induction sizes generalizing k with
  | nil => simp at hk
  | cons size sizes ih =>
    rw [answers] at hp
    cases k with
    | zero =>
      obtain rfl := Option.some.inj hk
      split at hp
      · next hzero => simp [hzero, ← Option.some.inj hp]
      · next hzero => simp [hzero, ← Option.some.inj hp, hptr]
    | succ k =>
      rw [List.getElem?_cons_succ] at hk
      split at hp
      · next hzero =>
        rw [List.getElem?_cons_succ] at hp
        rw [ih hk hp, List.take_succ_cons, List.forall_mem_cons]
        simp [hzero]
      · next hzero =>
        -- a request before this one was answered
        rw [List.getElem?_cons_succ, List.getElem?_map, hk] at hp
        simp [hzero, ← Option.some.inj hp]

/-- Every request is answered. -/
theorem length_answers (ptr : Nat) (sizes : List Nat) :
    (answers ptr sizes).length = sizes.length := by
  induction sizes with
  | nil => rfl
  | cons size sizes ih =>
    rw [answers]
    split <;> simp [ih]

/-- **The pool serves one request**: of requests that would fit into the pool one after the other,
the
first of a size other than 0 is answered with a block, and the others with null. -/
theorem malloc_answers_first (L : Layout) (mem : Nat → Nat) (sizes : List Nat)
    (hsum : (sizes.map fun size => L.roundUp size + sizeofHeader).sum ≤ POOL_SIZE - sizeofHeader) :
    ∃ ptrs, ({ mem } : State).requests L sizes = some ptrs ∧ ptrs.length = sizes.length ∧
      ∀ (k n p : Nat), sizes[k]? = some n → ptrs[k]? = some p →
        (p ≠ 0 ↔ n ≠ 0 ∧ ∀ m ∈ sizes.take k, m = 0) := by
  exact ⟨_, requests_idle (init_idle rfl) hsum, length_answers _ _,
    fun k n p => answers_get (ptr_ne_zero L)⟩

/-- Three requests, the first of them for nothing. -/
theorem malloc_answers_first_three :
    ∃ ptrs, ({ mem := fun _ => 0 } : State).requests i386 [0, 100, 1] = some ptrs ∧
      ptrs.length = 3 ∧
      ∀ (k n p : Nat), [0, 100, 1][k]? = some n → ptrs[k]? = some p →
        (p ≠ 0 ↔ n ≠ 0 ∧ ∀ m ∈ [0, 100, 1].take k, m = 0) :=
  malloc_answers_first i386 _ [0, 100, 1] (by decide)

/-- **No block is split**: the second request is refused, however small the two are. -/
theorem malloc_whole_pool :
    ([1, 1].map fun size => i386.roundUp size + sizeofHeader).sum ≤ POOL_SIZE - sizeofHeader ∧
      ({ mem := fun _ => 0 } : State).requests i386 [1, 1] = some [0x8100008, 0] :=
        ⟨by decide, by decide +kernel⟩

end State

end Doors.Malloc
