import Mathlib.Data.List.Basic
import Doors.Lib.Post

/-!
# Doors.Symbols

The symbol table of the kernel and its search (`kernel/Symbols.cc`).

The table is written by the build, sorted by address, with a last entry that has no
name (`SymbolTable`).  The function that an address lies in is that of the last entry
that is not above the address (`enclosing`).

* `Between` — the entries at which the search may still end;
* `lookupSymbol_enclosing` — the search ends with the name of that function.
-/

namespace Doors.Symbols

open Run

structure SymbolEntry where
  address : BitVec 32
  name : Option String

/-- A generated table. -/
structure SymbolTable where
  entries : List SymbolEntry
  sorted : entries.Pairwise fun a b => a.address ≤ b.address
  sentinel : ∃ e, entries.getLast? = some e ∧ e.name = none

/-- How a search can go wrong. -/
inductive Fault where
  /-- an access outside the table -/
  | outside
  /-- the loop does not end -/
  | endless
  deriving DecidableEq

/-- `symbol_table[k]`. -/
def entry (table : List SymbolEntry) (k : Int) : Except Fault SymbolEntry :=
  if k < 0 then .error .outside
  else
    match table[k.toNat]? with
    | some e => .ok e
    | none => .error .outside

/-- The address at which the range of the entry `mid` ends. -/
def nextAddr (table : List SymbolEntry) (mid : Int) : Except Fault (BitVec 32) :=
  if mid = table.length - 1 then .ok 0xFFFFFFFF
  else do
    let e ← entry table (mid + 1)
    return e.address

/-- The loop of `lookupSymbol`. -/
def searchLoop (table : List SymbolEntry) (addr : BitVec 32) :
    Nat → Int → Int → Except Fault (Option String)
  | fuel, lo, hi =>
      if lo ≤ hi then
        match fuel with
        | 0 => .error .endless
        | fuel + 1 => do
            let mid := lo + (hi - lo) / 2
            let e ← entry table mid
            if addr ≥ e.address then
              let next ← nextAddr table mid
              if addr < next then return e.name else searchLoop table addr fuel (mid + 1) hi
            else searchLoop table addr fuel lo (mid - 1)
      else .ok none

/-- `lookupSymbol`. -/
def lookupSymbol (table : List SymbolEntry) (addr : BitVec 32) : Except Fault (Option String) :=
  if table.length = 0 then .ok none
  else searchLoop table addr table.length 0 (table.length - 1)

/-! ## the enclosing function -/

/-- The name of the last entry whose address is at most `addr`. -/
def enclosing (table : List SymbolEntry) (addr : BitVec 32) : Option String :=
  (table.reverse.find? fun e => e.address ≤ addr).bind SymbolEntry.name

section

variable {table : List SymbolEntry} {addr : BitVec 32} {e : SymbolEntry} {k m : Nat}

/-- An entry that is not above `addr`, with all entries above `addr` behind it. -/
theorem enclosing_eq (hk : table[k]? = some e) (hle : e.address ≤ addr)
    (habove : ∀ m e, k < m → table[m]? = some e → addr < e.address) :
    enclosing table addr = e.name := by
  have hsplit : table = table.take k ++ e :: table.drop (k + 1) := by
    obtain ⟨hlt, rfl⟩ := List.getElem?_eq_some_iff.mp hk
    rw [List.getElem_cons_drop, List.take_append_drop]
  have hnone : (table.drop (k + 1)).reverse.find? (fun e => e.address ≤ addr) = none := by
    refine List.find?_eq_none.mpr fun e he => ?_
    obtain ⟨m, hm⟩ := List.mem_iff_getElem?.mp (List.mem_reverse.mp he)
    rw [List.getElem?_drop] at hm
    have hlt := habove _ e (by omega) hm
    rw [decide_eq_true_iff]
    exact BitVec.not_le.mpr hlt
  unfold enclosing
  rw [hsplit, List.reverse_append, List.reverse_cons, List.find?_append, List.find?_append, hnone]
  simp [hle]

/-- No entry is at or below `addr`. -/
theorem enclosing_none (habove : ∀ e ∈ table, addr < e.address) : enclosing table addr = none := by
  unfold enclosing
  rw [List.find?_eq_none.mpr]
  · rfl
  · intro e he
    rw [decide_eq_true_iff]
    exact BitVec.not_le.mpr (habove e (List.mem_reverse.mp he))

/-! ## the loop -/

theorem entry_eq (hk : table[k]? = some e) : entry table k = .ok e := by
  unfold entry
  rw [if_neg (by omega), Int.toNat_natCast, hk]

theorem lt_le_trans {a b c : BitVec 32} (hab : a < b) (hbc : b ≤ c) : a < c := by
  rw [BitVec.lt_def] at hab ⊢
  rw [BitVec.le_def] at hbc
  omega

theorem entry_succ (hk : table[k + 1]? = some e) : entry table (k + 1) = .ok e :=
  entry_eq (k := k + 1) hk

/-- The addresses do not decrease. -/
theorem address_le {a b : SymbolEntry} (hsorted : table.Pairwise fun a b => a.address ≤ b.address)
    (hkm : k ≤ m)
    (ha : table[k]? = some a) (hb : table[m]? = some b) : a.address ≤ b.address := by
  obtain ⟨hk, rfl⟩ := List.getElem?_eq_some_iff.mp ha
  obtain ⟨hm, rfl⟩ := List.getElem?_eq_some_iff.mp hb
  rcases Nat.lt_or_eq_of_le hkm with hlt | heq
  · exact List.pairwise_iff_getElem.mp hsorted k m hk hm hlt
  · subst heq
    exact BitVec.le_refl _

/-- **What is left to search**: all entries behind `hi` are above `addr`, and the one at `lo` is
not, or `lo` is behind
the last entry and that one is not. -/
structure Between (table : List SymbolEntry) (addr : BitVec 32) (lo hi : Int) : Prop where
  nonneg : 0 ≤ lo
  hi_lt : hi < table.length
  lo_le : lo ≤ hi + 1
  above : ∀ (k : Nat) e, hi < k → table[k]? = some e → addr < e.address
  below : lo = 0 ∨ (∃ e, table[lo.toNat]? = some e ∧ e.address ≤ addr) ∨
    lo = table.length ∧ ∃ e, table.getLast? = some e ∧ e.address ≤ addr

/-- A search that ends without an entry. -/
theorem Between.done {lo hi : Int} (h : Between table addr lo hi) (hlt : hi < lo)
    (hsentinel : ∃ e, table.getLast? = some e ∧ e.name = none) :
    enclosing table addr = none := by
  have hle := h.lo_le
  have hnonneg := h.nonneg
  rcases h.below with hzero | ⟨e, he, hbelow⟩ | ⟨hend, e, he, hbelow⟩
  · refine enclosing_none fun e he => ?_
    obtain ⟨k, hk⟩ := List.mem_iff_getElem?.mp he
    exact h.above k e (by omega) hk
  · exact absurd hbelow (BitVec.not_le.mpr (h.above _ e (by omega) he))
  · obtain ⟨e', he', hname⟩ := hsentinel
    obtain rfl := Option.some.inj (he.symm.trans he')
    rw [List.getLast?_eq_getElem?] at he
    rw [enclosing_eq he hbelow fun m e hlast hm => h.above m e (by omega) hm, hname]

/-- The search ends with the name of the enclosing function. -/
theorem searchLoop_eq (hsorted : table.Pairwise fun a b => a.address ≤ b.address)
    (hsentinel : ∃ e, table.getLast? = some e ∧ e.name = none)
    {fuel : Nat} {lo hi : Int} (h : Between table addr lo hi) (hfuel : hi + 1 - lo ≤ fuel) :
    searchLoop table addr fuel lo hi = .ok (enclosing table addr) := by
  induction fuel generalizing lo hi with
  | zero =>
    have hlt : ¬ lo ≤ hi := by omega
    unfold searchLoop
    rw [if_neg hlt, h.done (by omega) hsentinel]
  | succ fuel ih =>
    unfold searchLoop
    split
    · next hle =>
      have hnonneg := h.nonneg
      have hhi := h.hi_lt
      obtain ⟨k, hk⟩ : ∃ k : Nat, lo + (hi - lo) / 2 = k := ⟨(lo + (hi - lo) / 2).toNat, by omega⟩
      obtain ⟨e, he⟩ : ∃ e, table[k]? = some e := ⟨_, List.getElem?_eq_getElem (by omega)⟩
      dsimp only
      rw [hk, entry_eq he]
      change (if addr ≥ e.address then _ else _) = _
      split
      · next hbelow =>
        by_cases hlast : (k : Int) = table.length - 1
        · have hnext : nextAddr table k = .ok 0xFFFFFFFF := if_pos hlast
          rw [hnext]
          change (if addr < 0xFFFFFFFF then _ else _) = _
          have hend : table.getLast? = some e := by
            rw [List.getLast?_eq_getElem?, show table.length - 1 = k by omega, he]
          split
          · exact congrArg Except.ok
              (enclosing_eq he hbelow fun m e hm hget => h.above m e (by omega) hget).symm
          · exact ih ⟨by omega, hhi, by omega, h.above, .inr (.inr ⟨by omega, e, hend, hbelow⟩)⟩
              (by omega)
        · obtain ⟨e', he'⟩ : ∃ e', table[k + 1]? = some e' :=
            ⟨_, List.getElem?_eq_getElem (by omega)⟩
          have hnext : nextAddr table k = .ok e'.address := by
            unfold nextAddr
            rw [if_neg hlast, entry_succ he']
            rfl
          rw [hnext]
          change (if addr < e'.address then _ else _) = _
          split
          · next hlt =>
            exact congrArg Except.ok (enclosing_eq he hbelow fun m b hm hget =>
              lt_le_trans hlt (address_le hsorted hm he' hget)).symm
          · next hge =>
            exact ih ⟨by omega, hhi, by omega, h.above, .inr (.inl ⟨e', he', BitVec.not_lt.mp hge⟩)⟩
              (by omega)
      · next habove =>
        refine ih ⟨hnonneg, by omega, by omega, fun m b hm hget => ?_, h.below⟩ (by omega)
        exact lt_le_trans (BitVec.not_le.mp habove) (address_le hsorted (by omega) he hget)
    · next hgt => rw [h.done (by omega) hsentinel]

end

/-- **The enclosing function is found**, within the table. -/
theorem lookupSymbol_enclosing (table : SymbolTable) (addr : BitVec 32) :
    lookupSymbol table.entries addr = .ok (enclosing table.entries addr) := by
  obtain ⟨e, he, hname⟩ := table.sentinel
  have hpos : table.entries.length ≠ 0 := fun hzero => by
    simp [List.length_eq_zero_iff.mp hzero] at he
  unfold lookupSymbol
  rw [if_neg hpos]
  refine searchLoop_eq table.sorted ⟨e, he, hname⟩
    ⟨Int.le_refl 0, by omega, by omega, fun k e hk hget => ?_, .inl rfl⟩ (by omega)
  have hlt := (List.getElem?_eq_some_iff.mp hget).1
  omega

/-- A table with two functions at one address. -/
def smallTable : SymbolTable where
  entries :=
    [⟨0x100, some "a"⟩, ⟨0x180, some "b"⟩, ⟨0x180, some "c"⟩, ⟨0x200, some "d"⟩, ⟨0x300, none⟩]
  sorted := by decide
  sentinel := ⟨⟨0x300, none⟩, rfl, rfl⟩

/-- Below the first function, in one, in the last of two, and from the sentinel on. -/
theorem lookupSymbol_enclosing_small :
    lookupSymbol smallTable.entries 0xFF = .ok none ∧
      lookupSymbol smallTable.entries 0x17F = .ok (some "a") ∧
      lookupSymbol smallTable.entries 0x1FF = .ok (some "c") ∧
        lookupSymbol smallTable.entries 0x300 = .ok none :=
  ⟨lookupSymbol_enclosing smallTable 0xFF, lookupSymbol_enclosing smallTable 0x17F,
    lookupSymbol_enclosing smallTable 0x1FF, lookupSymbol_enclosing smallTable 0x300⟩

end Doors.Symbols
