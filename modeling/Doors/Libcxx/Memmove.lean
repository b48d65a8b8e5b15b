import Doors.Lib.Copy
import Doors.Libcxx.StringContents

/-!
# Doors.Libcxx.Memmove

`memmove` and `memcpy` (`libc++/string/memmove.cc`, `memcpy.cc`) in the memory of the
machine: an address and a `size_t` are 32-bit words, and an address wraps at the end.

* `memmove_moves` — whatever the two ranges have in common, the destination gets what the
  source held, and nothing else changes;
* `memcpy_moves` — `memcpy` does the same when the destination is not inside the source;
* `memmove_window` — within one buffer this is the `poke` with which `string` is modelled.
-/

namespace Doors.Libcxx

/-- The memory of the machine. -/
abbrev Bytes : Type := BitVec 32 → BitVec 8

/-- `&p[i]`. -/
def cell (p : BitVec 32) (i : Nat) : BitVec 32 := p + BitVec.ofNat 32 i

/-- `memmove`: what it returns, and the memory after it. -/
def memmove (mem : Bytes) (dst src num : BitVec 32) : BitVec 32 × Bytes :=
  if dst < src then (dst, Copy.up (cell dst) (cell src) num.toNat 0 mem)
  else (dst, Copy.down (cell dst) (cell src) num.toNat mem)

/-- `memcpy`: what it returns, and the memory after it. -/
def memcpy (mem : Bytes) (dst src num : BitVec 32) : BitVec 32 × Bytes :=
  (dst, Copy.up (cell dst) (cell src) num.toNat 0 mem)

variable {mem : Bytes} {p dst src num x : BitVec 32} {n i j : Nat}

/-! ## ranges -/

/-- An address that does not wrap. -/
theorem toNat_cell (h : p.toNat + i < 2 ^ 32) : (cell p i).toNat = p.toNat + i := by
  rw [cell, BitVec.toNat_add, BitVec.toNat_ofNat, Nat.mod_eq_of_lt (show i < 2 ^ 32 by omega),
    Nat.mod_eq_of_lt h]

/-- Two cells whose distances from 0 differ. -/
theorem cell_ne (hp : p.toNat + i < 2 ^ 32) (hx : x.toNat + j < 2 ^ 32)
    (h : p.toNat + i ≠ x.toNat + j) : cell p i ≠ cell x j := by
  intro heq
  have hnat := congrArg BitVec.toNat heq
  rw [toNat_cell hp, toNat_cell hx] at hnat
  exact h hnat

/-- Addresses that do not wrap are apart. -/
theorem cell_apart (h : p.toNat + n ≤ 2 ^ 32) : Copy.Apart (cell p) n :=
  fun i j hij hj => cell_ne (by omega) (by omega) (by omega)

/-! ## the copies -/

/-- What a copy of `n` bytes has to leave: the source's bytes at the destination, and
everything else as it was. -/
structure Moved (mem : Bytes) (dst src : BitVec 32) (n : Nat) (mem' : Bytes) : Prop where
  moved : ∀ i < n, mem' (cell dst i) = mem (cell src i)
  kept : ∀ x : BitVec 32, x.toNat < dst.toNat ∨ dst.toNat + n ≤ x.toNat → mem' x = mem x

/-- A copy of all bytes. -/
theorem Moved.of_copied {mem' : Bytes} (h : Copy.Copied (cell dst) (cell src) 0 n mem mem')
    (hdst : dst.toNat + n ≤ 2 ^ 32) :
    Moved mem dst src n mem' where
  moved := fun i hi => h.inside i (Nat.zero_le i) hi
  kept := fun x hx => h.outside x fun i _ hi heq => by
    have hnat := congrArg BitVec.toNat heq
    rw [toNat_cell (by omega)] at hnat
    omega

/-- The loop upwards, where the target does not run ahead of the source. -/
theorem up_moved (mem : Bytes) (hdst : dst.toNat + n ≤ 2 ^ 32) (hsrc : src.toNat + n ≤ 2 ^ 32)
    (hside : dst.toNat ≤ src.toNat ∨ src.toNat + n ≤ dst.toNat) :
    Moved mem dst src n (Copy.up (cell dst) (cell src) n 0 mem) := by
  have hread : ∀ j k, j < k → k < n → cell dst j ≠ cell src k :=
    fun j k hjk hk => cell_ne (by omega) (by omega) (by omega)
  have hup := @Copy.up_copied _ (BitVec 8) (cell dst) (cell src) n 0 _
  rw [Nat.zero_add] at hup
  exact Moved.of_copied (hup (cell_apart hdst) hread mem) hdst

/-- The loop downwards, where the target is behind the source. -/
theorem down_moved (mem : Bytes) (hdst : dst.toNat + n ≤ 2 ^ 32) (hsrc : src.toNat + n ≤ 2 ^ 32)
    (hle : src.toNat ≤ dst.toNat) :
    Moved mem dst src n (Copy.down (cell dst) (cell src) n mem) :=
  Moved.of_copied (Copy.down_copied (cell_apart hdst)
    (fun j k hjk hk => cell_ne (by omega) (by omega) (by omega)) mem) hdst

/-- The loop that goes up is taken when a byte of the source is written only after it was
read, and so is the one that goes down. -/
theorem memmove_moved (mem : Bytes) (hdst : dst.toNat + num.toNat ≤ 2 ^ 32)
    (hsrc : src.toNat + num.toNat ≤ 2 ^ 32) :
    Moved mem dst src num.toNat (memmove mem dst src num).2 := by
  unfold memmove
  split
  · next hlt => exact up_moved mem hdst hsrc (.inl (Nat.le_of_lt (BitVec.lt_def.mp hlt)))
  · next hge =>
      exact down_moved mem hdst hsrc (Nat.not_lt.mp fun hlt => hge (BitVec.lt_def.mpr hlt))

/-- `memcpy` is right when the destination does not begin inside the source. -/
theorem memcpy_moved (mem : Bytes) (hdst : dst.toNat + num.toNat ≤ 2 ^ 32)
    (hsrc : src.toNat + num.toNat ≤ 2 ^ 32)
    (hside : dst.toNat ≤ src.toNat ∨ src.toNat + num.toNat ≤ dst.toNat) :
    Moved mem dst src num.toNat (memcpy mem dst src num).2 :=
  up_moved mem hdst hsrc hside

/-- **`memmove`** is right for every overlap of the two ranges. -/
theorem memmove_moves (mem : Bytes) (dst src num : BitVec 32)
    (hdst : dst.toNat + num.toNat ≤ 2 ^ 32)
    (hsrc : src.toNat + num.toNat ≤ 2 ^ 32) :
    (∀ i < num.toNat, (memmove mem dst src num).2 (dst + BitVec.ofNat 32 i) =
      mem (src + BitVec.ofNat 32 i)) ∧
      ∀ x : BitVec 32, x.toNat < dst.toNat ∨ dst.toNat + num.toNat ≤ x.toNat →
        (memmove mem dst src num).2 x = mem x := by
  have hmoved := memmove_moved mem hdst hsrc
  exact ⟨hmoved.moved, hmoved.kept⟩

/-- A gap of one byte is opened in front of three that are moved by one. -/
theorem memmove_opens_gap :
    (∀ i < 3, (memmove (BitVec.truncate 8) 0x2001 0x2000 3).2 (0x2001 + BitVec.ofNat 32 i) =
      (0x2000 + BitVec.ofNat 32 i).truncate 8) ∧
      ∀ x : BitVec 32, x.toNat < 0x2001 ∨ 0x2004 ≤ x.toNat →
        (memmove (BitVec.truncate 8) 0x2001 0x2000 3).2 x = x.truncate 8 :=
  memmove_moves (BitVec.truncate 8) 0x2001 0x2000 3 (by decide) (by decide)

/-! ## one buffer -/

/-- Within a buffer at `p`, `memmove` is the `poke` of what was read before. -/
theorem memmove_window {size a b k : Nat} (mem : Bytes) (hp : p.toNat + size < 2 ^ 32)
    (ha : a + num.toNat ≤ size)
    (hb : b + num.toNat ≤ size) (hk : k < size) :
    (memmove mem (cell p a) (cell p b) num).2 (cell p k) =
      poke (fun k => mem (cell p k)) a ((List.range num.toNat).map fun k => mem (cell p (b + k)))
        k := by
  have hpa : (cell p a).toNat = p.toNat + a := toNat_cell (by omega)
  have hpb : (cell p b).toNat = p.toNat + b := toNat_cell (by omega)
  have hpk : (cell p k).toNat = p.toNat + k := toNat_cell (by omega)
  have hadd : ∀ c i, cell (cell p c) i = cell p (c + i) := by
    intro c i
    rw [cell, cell, cell, BitVec.add_assoc, BitVec.ofNat_add]
  have hmoved := @memmove_moved (cell p a) (cell p b) num mem (by omega) (by omega)
  have hlen : ((List.range num.toNat).map fun k => mem (cell p (b + k))).length = num.toNat := by
    simp
  by_cases hin : a ≤ k ∧ k < a + num.toNat
  · obtain ⟨i, rfl⟩ := Nat.exists_eq_add_of_le hin.1
    have hi : i < num.toNat := by omega
    rw [poke_inside (x := mem (cell p (b + i))) (by simp [hi]), ← hadd, ← hadd]
    exact hmoved.moved i hi
  · rw [poke, hlen, if_neg hin]
    exact hmoved.kept (cell p k) (by omega)

end Doors.Libcxx
