import Mathlib.Data.Multiset.Bind
import Mathlib.Tactic.Abel
import Doors.Memory.Ledger

/-!
# Doors.Memory.Refs

What memory shows of the references to frames: the live directories, their user tables, and
the frames that these map.

* `Spaces` — the counts are exact, and directories and tables have no other use;
* `refs_change` — what a change to one entry of a directory makes of the references;
* `Spaces.change` — the invariant after it.
-/

namespace Doors.Memory

open Phys

/-! ## what one directory refers to -/

/-- The table of a directory entry. -/
def tabRefs (e : Nat) : Multiset Nat := if present e ∧ user e then {addr e} else 0

/-- What the table of a directory entry maps. -/
def pageRefs (mem : Nat → BitVec 8) (e : Nat) : Multiset Nat :=
  if present e ∧ user e then tableRefs mem (addr e) pteCount else 0

/-- The user tables of the first `n` entries. -/
def dirTabs (mem : Nat → BitVec 8) (dir n : Nat) : Multiset Nat :=
  ↑((userEntries mem dir n).map (tableOf mem dir))

/-- The frames that they map. -/
def dirPages (mem : Nat → BitVec 8) (dir n : Nat) : Multiset Nat := ↑(dirFrames mem dir n)

/-- Directories and user tables. -/
def structs (mem : Nat → BitVec 8) (live : Multiset Nat) : Multiset Nat :=
  live + live.bind fun d => dirTabs mem d pteCount

/-- The frames that the user tables map, each as often as it is mapped. -/
def mapped (mem : Nat → BitVec 8) (live : Multiset Nat) : Multiset Nat :=
  live.bind fun d => dirPages mem d pteCount

/-- **All references**: those of the live directories, and of callers that hold a frame. -/
def refsOf (mem : Nat → BitVec 8) (live held : Multiset Nat) : Multiset Nat :=
  structs mem live + mapped mem live + held

/-- **The directories `live`**, with exact counts. -/
structure Spaces (M : Set Nat) (live held : Multiset Nat) (st : Phys) : Prop where
  exact : Exact M (refsOf st.mem live held) st
  alone : ∀ a ∈ structs st.mem live, (refsOf st.mem live held).count a = 1

variable {M : Set Nat} {R live held : Multiset Nat} {st st' : Phys} {mem mem' : Nat → BitVec 8}
  {a d d' e g t n i j k : Nat}

/-- One more entry of the directory. -/
theorem dirTabs_succ (mem : Nat → BitVec 8) (d n : Nat) :
    dirTabs mem d (n + 1) = tabRefs (word mem (d + 4 * n)) + dirTabs mem d n := by
  unfold dirTabs tabRefs
  rw [userEntries_succ, List.map_append, ← Multiset.coe_add, add_comm]
  split
  · rfl
  · rfl

/-- One more entry of the directory. -/
theorem dirPages_succ (mem : Nat → BitVec 8) (d n : Nat) :
    dirPages mem d (n + 1) = pageRefs mem (word mem (d + 4 * n)) + dirPages mem d n := by
  unfold dirPages pageRefs tableRefs
  rw [dirFrames_succ, ← Multiset.coe_add, add_comm]
  split
  · rfl
  · rfl

/-- The table of an entry. -/
theorem mem_tabRefs : a ∈ tabRefs e ↔ (present e = true ∧ user e = true) ∧ a = addr e := by
  unfold tabRefs
  split
  · next h => simp [h]
  · next h => simp [h]

/-- The tables of a directory. -/
theorem mem_dirTabs : a ∈ dirTabs mem d n ↔ ∃ k < n, a ∈ tabRefs (word mem (d + 4 * k)) := by
  unfold dirTabs
  simp only [Multiset.mem_coe, List.mem_map, mem_userEntries, mem_tabRefs, tableOf]
  constructor
  · rintro ⟨k, ⟨hk, hu⟩, rfl⟩
    exact ⟨k, hk, hu, rfl⟩
  · rintro ⟨k, hk, hu, rfl⟩
    exact ⟨k, ⟨hk, hu⟩, rfl⟩

/-- The directories and tables. -/
theorem mem_structs : a ∈ structs mem live ↔ a ∈ live ∨ ∃ d ∈ live, ∃ k < pteCount,
    a ∈ tabRefs (word mem (d + 4 * k)) := by
  unfold structs
  simp only [Multiset.mem_add, Multiset.mem_bind, mem_dirTabs]

/-- The pages of a user table. -/
theorem pageRefs_user (he : present e = true ∧ user e = true) :
    pageRefs mem e = tableRefs mem (addr e) pteCount := if_pos he

/-- The one table of an entry. -/
theorem tabRefs_user (he : present e = true ∧ user e = true) : tabRefs e = {addr e} := if_pos he

/-! ## what is used once -/

/-- The tables of the other entries. -/
theorem dirTabs_split (mem : Nat → BitVec 8) (d : Nat) (hi : i < n) :
    ∃ X, dirTabs mem d n = tabRefs (word mem (d + 4 * i)) + X ∧
    ∀ k < n, k ≠ i → ∀ a ∈ tabRefs (word mem (d + 4 * k)), a ∈ X := by
  induction n with
  | zero => omega
  | succ n ih =>
      rw [dirTabs_succ]
      by_cases hin : i = n
      · subst hin
        refine ⟨dirTabs mem d i, rfl, fun k hk hki a ha => mem_dirTabs.mpr ⟨k, by omega, ha⟩⟩
      · obtain ⟨X, hX, hall⟩ := ih (by omega)
        refine ⟨tabRefs (word mem (d + 4 * n)) +
          X, by rw [hX, add_left_comm], fun k hk hki a ha => Multiset.mem_add.mpr ?_⟩
        by_cases hkn : k = n
        · subst hkn
          exact .inl ha
        · exact .inr (hall k (by omega) hki a ha)

/-- One user table, and everything else with a structure in it. -/
theorem structs_split (mem : Nat → BitVec 8) (hd : d ∈ live) (hi : i < pteCount) :
    ∃ Y, structs mem live = tabRefs (word mem (d + 4 * i)) + Y ∧
    (∀ a ∈ live, a ∈ Y) ∧
    ∀ d' ∈ live, ∀ k < pteCount, d' ≠ d ∨ k ≠ i → ∀ a ∈ tabRefs (word mem (d' + 4 * k)), a ∈ Y := by
  obtain ⟨rest, rfl⟩ := Multiset.exists_cons_of_mem hd
  obtain ⟨X, hX, hall⟩ := dirTabs_split mem d hi
  refine ⟨(d ::ₘ rest) + (X + rest.bind fun d => dirTabs mem d pteCount), ?_,
    fun a ha => Multiset.mem_add.mpr (.inl ha),
    fun d' hd' k hk hne a ha => Multiset.mem_add.mpr (.inr (Multiset.mem_add.mpr ?_))⟩
  · unfold structs
    rw [Multiset.cons_bind, hX, add_assoc, add_left_comm]
  · rcases Multiset.mem_cons.mp hd' with rfl | hd'
    · exact .inl (hall k hk (hne.resolve_left fun h => h rfl) a ha)
    · exact .inr (Multiset.mem_bind.mpr ⟨d', hd', mem_dirTabs.mpr ⟨k, hk, ha⟩⟩)

/-- A structure has no second use. -/
theorem Spaces.once {X Y : Multiset Nat} (h : Spaces M live held st) (ha : a ∈ structs st.mem live)
    (hXY : refsOf st.mem live held = X + Y)
    (hX : a ∈ X) : a ∉ Y := by
  intro hY
  have hone := h.alone a ha
  have h₁ := Multiset.count_pos.mpr hX
  have h₂ := Multiset.count_pos.mpr hY
  rw [hXY, Multiset.count_add] at hone
  omega

/-- No directory or table is mapped for a task. -/
theorem Spaces.not_mapped (h : Spaces M live held st) (ha : a ∈ structs st.mem live) :
    a ∉ mapped st.mem live ∧ a ∉ held := by
  have hsplit : refsOf st.mem live held = structs st.mem live + (mapped st.mem live + held) := by
    rw [refsOf, add_assoc]
  have hno := h.once ha hsplit ha
  exact ⟨fun hm => hno (Multiset.mem_add.mpr (.inl hm)),
    fun hm => hno (Multiset.mem_add.mpr (.inr hm))⟩

/-- **A user table** is no directory, and the table of no other entry. -/
theorem Spaces.table (h : Spaces M live held st) (hd : d ∈ live) (hi : i < pteCount)
    (ht : t ∈ tabRefs (word st.mem (d + 4 * i))) :
    t ∉ live ∧ ∀ d' ∈ live, ∀ k < pteCount, d' ≠ d ∨ k ≠ i →
      t ∉ tabRefs (word st.mem (d' + 4 * k)) := by
  obtain ⟨Y, hY, hlive, htabs⟩ := structs_split st.mem hd hi
  have hin : t ∈ structs st.mem live := mem_structs.mpr (.inr ⟨d, hd, i, hi, ht⟩)
  have hsplit : refsOf st.mem live held = tabRefs (word st.mem (d + 4 * i)) +
      (Y + mapped st.mem live + held) := by
    rw [refsOf, hY, add_assoc, add_assoc, add_assoc]
  have hno := h.once hin hsplit ht
  have hY' : t ∉ Y := fun hm => hno (Multiset.mem_add.mpr (.inl (Multiset.mem_add.mpr (.inl hm))))
  exact ⟨fun hl => hY' (hlive t hl), fun d' hd' k hk hne hm => hY' (htabs d' hd' k hk hne t hm)⟩

/-- **A directory** is not twice among the live ones. -/
theorem Spaces.dir {rest : Multiset Nat} (h : Spaces M (d ::ₘ rest) held st) : d ∉ rest := by
  have hin : d ∈ structs st.mem (d ::ₘ rest) :=
    mem_structs.mpr (.inl (Multiset.mem_cons_self d rest))
  have hsplit : refsOf st.mem (d ::ₘ rest) held =
    {d} + (rest + ((d ::ₘ rest).bind fun d => dirTabs st.mem d pteCount) +
      mapped st.mem (d ::ₘ rest) + held) := by
    rw [refsOf, structs, ← Multiset.singleton_add]
    simp only [add_assoc]
  have hno := h.once hin hsplit (Multiset.mem_singleton_self d)
  exact fun hm =>
    hno (Multiset.mem_add.mpr (.inl (Multiset.mem_add.mpr (.inl (Multiset.mem_add.mpr (.inl hm))))))

/-! ## changes -/

/-- Sums that differ in one summand. -/
theorem sum_change {A : Type} [AddCommMonoid A] (F F' G G' : Nat → A)
    (hF : ∀ n, F (n + 1) = G n + F n)
    (hF' : ∀ n, F' (n + 1) = G' n + F' n) (hzero' : F' 0 = 0) (hzero : F 0 = 0) (hi : i < n)
    (h : ∀ k < n, k ≠ i → G' k = G k) :
    F' n + G i = F n + G' i := by
  have hbelow : ∀ m ≤ i, m ≤ n → F' m = F m := by
    intro m hm hmn
    induction m with
    | zero => exact hzero'.trans hzero.symm
    | succ m ih => rw [hF, hF', h m (by omega) (by omega), ih (by omega) (by omega)]
  induction n with
  | zero => omega
  | succ n ih =>
      rw [hF, hF']
      by_cases hin : i = n
      · subst hin
        rw [hbelow i le_rfl (by omega), add_right_comm, add_comm (G' i), add_right_comm]
      · rw [h n (by omega) (Ne.symm hin), add_assoc, add_assoc,
          ih (by omega) (fun k hk => h k (by omega)) fun m hm hmn => hbelow m hm (by omega)]

/-- Sums over entries that agree. -/
theorem sum_same {A : Type} [AddCommMonoid A] (F F' G G' : Nat → A)
    (hF : ∀ n, F (n + 1) = G n + F n)
    (hF' : ∀ n, F' (n + 1) = G' n + F' n) (hzero' : F' 0 = 0) (hzero : F 0 = 0)
    (h : ∀ k < n, G' k = G k) : F' n = F n := by
  induction n with
  | zero => exact hzero'.trans hzero.symm
  | succ n ih => rw [hF, hF', h n (by omega), ih fun k hk => h k (by omega)]

/-- No entries. -/
theorem dirTabs_zero (mem : Nat → BitVec 8) (d : Nat) : dirTabs mem d 0 = 0 := rfl

/-- No entries. -/
theorem dirPages_zero (mem : Nat → BitVec 8) (d : Nat) : dirPages mem d 0 = 0 := rfl

/-- One entry of a table changed. -/
theorem tableRefs_change (hj : j < n)
    (hwords : ∀ k < n, k ≠ j → word mem' (t + 4 * k) = word mem (t + 4 * k)) :
    tableRefs mem' t n + entryRefs (word mem (t + 4 * j)) =
      tableRefs mem t n + entryRefs (word mem' (t + 4 * j)) :=
  sum_change (tableRefs mem t) (tableRefs mem' t) (fun k => entryRefs (word mem (t + 4 * k)))
    (fun k => entryRefs (word mem' (t + 4 * k))) (tableRefs_succ mem t) (tableRefs_succ mem' t)
      (tableRefs_zero mem' t) (tableRefs_zero mem t) hj fun k hk hkj => by rw [hwords k hk hkj]

/-- The same table, as far as the references go. -/
theorem tableRefs_same (hwords : ∀ k < n, word mem' (t + 4 * k) = word mem (t + 4 * k)) :
    tableRefs mem' t n = tableRefs mem t n :=
  sum_same (tableRefs mem t) (tableRefs mem' t) (fun k => entryRefs (word mem (t + 4 * k)))
    (fun k => entryRefs (word mem' (t + 4 * k))) (tableRefs_succ mem t) (tableRefs_succ mem' t)
      (tableRefs_zero mem' t) (tableRefs_zero mem t) fun k hk => by rw [hwords k hk]

/-- A table that does not change keeps its pages. -/
theorem pageRefs_same (h : ∀ t ∈ tabRefs e, Same mem mem' t) :
    pageRefs mem' e = pageRefs mem e := by
  unfold pageRefs
  split
  · next hu => exact tableRefs_same fun k hk => (h _ (mem_tabRefs.mpr ⟨hu, rfl⟩)).word hk
  · rfl

/-- A directory whose words and tables are the same. -/
theorem dir_same (hwords : ∀ k < n, word mem' (d + 4 * k) = word mem (d + 4 * k))
    (htabs : ∀ k < n, ∀ t ∈ tabRefs (word mem (d + 4 * k)), Same mem mem' t) :
    dirTabs mem' d n = dirTabs mem d n ∧ dirPages mem' d n = dirPages mem d n := by
  constructor
  · exact sum_same (dirTabs mem d) (dirTabs mem' d) (fun k => tabRefs (word mem (d + 4 * k)))
      (fun k => tabRefs (word mem' (d + 4 * k))) (dirTabs_succ mem d) (dirTabs_succ mem' d)
        (dirTabs_zero mem' d) (dirTabs_zero mem d) fun k hk => by rw [hwords k hk]
  · exact sum_same (dirPages mem d) (dirPages mem' d) (fun k => pageRefs mem (word mem (d + 4 * k)))
      (fun k => pageRefs mem' (word mem' (d + 4 * k))) (dirPages_succ mem d) (dirPages_succ mem' d)
        (dirPages_zero mem' d) (dirPages_zero mem d) fun k hk => by
        rw [hwords k hk, pageRefs_same (htabs k hk)]

/-- A directory with one entry, or one table, changed. -/
theorem dir_change (hi : i < n)
    (hwords : ∀ k < n, k ≠ i → word mem' (d + 4 * k) = word mem (d + 4 * k))
    (htabs : ∀ k < n, k ≠ i → ∀ t ∈ tabRefs (word mem (d + 4 * k)), Same mem mem' t) :
    dirTabs mem' d n + tabRefs (word mem (d + 4 * i)) =
      dirTabs mem d n + tabRefs (word mem' (d + 4 * i)) ∧
      dirPages mem' d n + pageRefs mem (word mem (d + 4 * i)) =
        dirPages mem d n + pageRefs mem' (word mem' (d + 4 * i)) := by
  constructor
  · exact sum_change (dirTabs mem d) (dirTabs mem' d) (fun k => tabRefs (word mem (d + 4 * k)))
      (fun k => tabRefs (word mem' (d + 4 * k))) (dirTabs_succ mem d) (dirTabs_succ mem' d)
        (dirTabs_zero mem' d) (dirTabs_zero mem d) hi fun k hk hki => by rw [hwords k hk hki]
  · exact sum_change (dirPages mem d) (dirPages mem' d)
      (fun k => pageRefs mem (word mem (d + 4 * k)))
      (fun k => pageRefs mem' (word mem' (d + 4 * k))) (dirPages_succ mem d) (dirPages_succ mem' d)
        (dirPages_zero mem' d) (dirPages_zero mem d) hi fun k hk hki => by
        rw [hwords k hk hki, pageRefs_same (htabs k hk hki)]

/-- Where `mem'` may differ from `mem`: in entry `i` of `d` and in its table. -/
structure ChangedAt (mem mem' : Nat → BitVec 8) (live : Multiset Nat) (d i : Nat) : Prop where
  words : ∀ k < pteCount, k ≠ i → word mem' (d + 4 * k) = word mem (d + 4 * k)
  same : ∀ a ∈ structs mem live, a ≠ d → a ∉ tabRefs (word mem (d + 4 * i)) → Same mem mem' a

/-- **What becomes of the references.** -/
theorem refs_change (h : Spaces M live held st) (hd : d ∈ live) (hi : i < pteCount)
    (hc : ChangedAt st.mem mem' live d i) :
    structs mem' live + tabRefs (word st.mem (d + 4 * i)) =
      structs st.mem live + tabRefs (word mem' (d + 4 * i)) ∧
      mapped mem' live + pageRefs st.mem (word st.mem (d + 4 * i)) =
        mapped st.mem live + pageRefs mem' (word mem' (d + 4 * i)) := by
  obtain ⟨rest, rfl⟩ := Multiset.exists_cons_of_mem hd
  have hdrest := h.dir
  have hstruct : ∀ d' ∈ d ::ₘ rest, ∀ k < pteCount, ∀ t ∈ tabRefs (word st.mem (d' + 4 * k)),
      t ∈ structs st.mem (d ::ₘ rest) :=
    fun d' hd' k hk t ht => mem_structs.mpr (.inr ⟨d', hd', k, hk, ht⟩)
  have htab : ∀ d' ∈ d ::ₘ rest, ∀ k < pteCount, d' ≠ d ∨ k ≠ i →
      ∀ t ∈ tabRefs (word st.mem (d' + 4 * k)), Same st.mem mem' t := by
    intro d' hd' k hk hne t ht
    obtain ⟨hnot, hothers⟩ := h.table hd' hk ht
    refine hc.same t (hstruct d' hd' k hk t ht) (fun heq => hnot (heq ▸ hd)) (hothers d hd i hi ?_)
    exact hne.imp Ne.symm Ne.symm
  obtain ⟨hown₁, hown₂⟩ := dir_change hi hc.words fun k hk hki => htab d hd k hk (.inr hki)
  have hrest : ∀ d' ∈ rest, dirTabs mem' d' pteCount = dirTabs st.mem d' pteCount ∧
      dirPages mem' d' pteCount = dirPages st.mem d' pteCount := by
    intro d' hd'
    have hne : d' ≠ d := fun heq => hdrest (heq ▸ hd')
    have hlive := Multiset.mem_cons_of_mem (b := d) hd'
    have hsame : Same st.mem mem' d' := by
      refine hc.same d' (mem_structs.mpr (.inl hlive)) hne fun ht => ?_
      exact (h.table hd hi ht).1 hlive
    exact dir_same (fun k hk => hsame.word hk) fun k hk => htab d' hlive k hk (.inl hne)
  constructor
  · unfold structs
    rw [Multiset.cons_bind, Multiset.cons_bind, Multiset.bind_congr fun d' hd' => (hrest d' hd').1,
      add_assoc (d ::ₘ rest),
      add_right_comm (dirTabs mem' d pteCount), hown₁, add_right_comm (dirTabs st.mem d pteCount),
        ← add_assoc (d ::ₘ rest)]
  · unfold mapped
    rw [Multiset.cons_bind, Multiset.cons_bind, Multiset.bind_congr fun d' hd' => (hrest d' hd').2,
      add_right_comm, hown₂, add_right_comm]

/-- **The invariant after a change** to one entry, given the counts. -/
theorem Spaces.change {R' held' : Multiset Nat} (h : Spaces M live held st) (hd : d ∈ live)
    (hi : i < pteCount)
    (hc : ChangedAt st.mem st'.mem live d i) (hexact : Exact M R' st')
    (hR : R' +
    (tabRefs (word st.mem (d + 4 * i)) + pageRefs st.mem (word st.mem (d + 4 * i)) + held) =
      refsOf st.mem live held +
        (tabRefs (word st'.mem (d + 4 * i)) + pageRefs st'.mem (word st'.mem (d + 4 * i)) + held'))
    (hle : ∀ a, a ∈ structs st.mem live ∨ a ∈ tabRefs (word st'.mem (d + 4 * i)) → R'.count a ≤ 1) :
    Spaces M live held' st' := by
  obtain ⟨hstructs, hmapped⟩ := refs_change h hd hi hc
  have hnew : R' = refsOf st'.mem live held' := by
    refine add_right_cancel (hR.trans (Eq.symm ?_))
    calc refsOf st'.mem live held' +
      (tabRefs (word st.mem (d + 4 * i)) + pageRefs st.mem (word st.mem (d + 4 * i)) + held)
        = (structs st'.mem live + tabRefs (word st.mem (d + 4 * i))) +
            (mapped st'.mem live + pageRefs st.mem (word st.mem (d + 4 * i))) + (held + held') := by
          unfold refsOf
          abel
      _ = (structs st.mem live + tabRefs (word st'.mem (d + 4 * i))) +
            (mapped st.mem live + pageRefs st'.mem (word st'.mem (d + 4 * i))) +
              (held + held') := by rw [hstructs, hmapped]
      _ = refsOf st.mem live held + (tabRefs (word st'.mem (d + 4 * i)) + pageRefs st'.mem
        (word st'.mem (d + 4 * i)) + held') := by
          unfold refsOf
          abel
  refine ⟨hnew ▸ hexact, fun a ha => ?_⟩
  have hpos : 0 < (refsOf st'.mem live held').count a :=
    Multiset.count_pos.mpr (Multiset.mem_add.mpr (.inl (Multiset.mem_add.mpr (.inl ha))))
  have hin : a ∈ structs st.mem live + tabRefs (word st'.mem (d + 4 * i)) := by
    rw [← hstructs]
    exact Multiset.mem_add.mpr (.inl ha)
  have hone := hle a (Multiset.mem_add.mp hin)
  rw [hnew] at hone
  omega

/-- Nothing that the references depend on changed. -/
theorem refs_same (h : ∀ a ∈ structs mem live, Same mem mem' a) :
    structs mem' live = structs mem live ∧ mapped mem' live = mapped mem live := by
  have hdir : ∀ d ∈ live, dirTabs mem' d pteCount = dirTabs mem d pteCount ∧
      dirPages mem' d pteCount = dirPages mem d pteCount :=
    fun d hd => dir_same (fun k hk => (h d (mem_structs.mpr (.inl hd))).word hk)
      fun k hk t ht => h t (mem_structs.mpr (.inr ⟨d, hd, k, hk, ht⟩))
  constructor
  · unfold structs
    rw [Multiset.bind_congr fun d hd => (hdir d hd).1]
  · unfold mapped
    rw [Multiset.bind_congr fun d hd => (hdir d hd).2]

/-- Directories and tables are references. -/
theorem mem_refs (ha : a ∈ structs mem live) (held : Multiset Nat) : a ∈ refsOf mem live held :=
  Multiset.mem_add.mpr (.inl (Multiset.mem_add.mpr (.inl ha)))

/-- Only what callers hold changed. -/
theorem Spaces.keep {held' : Multiset Nat} (h : Spaces M live held st)
    (hsame : ∀ a ∈ structs st.mem live, Same st.mem st'.mem a)
    (hexact : Exact M (structs st.mem live + mapped st.mem live + held') st')
    (hle : ∀ a ∈ structs st.mem live, a ∉ held') :
    Spaces M live held' st' := by
  obtain ⟨hstructs, hmapped⟩ := refs_same hsame
  refine ⟨by rw [refsOf, hstructs, hmapped]; exact hexact, fun a ha => ?_⟩
  rw [hstructs] at ha
  have hone := h.alone a ha
  rw [refsOf, hstructs, hmapped, Multiset.count_add, Multiset.count_eq_zero.mpr (hle a ha)]
  rwa [refsOf, Multiset.count_add, Multiset.count_eq_zero.mpr (h.not_mapped ha).2] at hone

end Doors.Memory
