import Mathlib.Data.BitVec
import Doors.Scheduler.Reap

/-!
# Doors.Syscall.UserPtr

What `syscallHandler` reads and writes through the pointers it is given (`Syscall.cc`,
and the status of `Scheduler::waitpid`).

* `isValidUserBuf_iff` — the range check is right, also where the sum wraps;
* `syscall_stays_below_iff` — a call stays below the kernel, and its writes in the range
  it checked, exactly when no size of `TASKCTL_LIST` wraps to less than its entries, the
  message of `SYS_PANIC` ends in time, and `SYS_WAITPID` has no status to store.
-/

namespace Doors.UserPtr

open Sched Scheduler

/-- One byte read or written.  Addresses are not reduced modulo 2^32: a checked range ends
below the kernel, and a list of MAX_TASKS entries or a message is much shorter than the
kernel's part of the address space. -/
structure Access where
  write : Bool
  addr : Nat
  deriving DecidableEq

def reads (a n : Nat) : List Access := (List.range n).map fun i => ⟨false, a + i⟩

def writes (a n : Nat) : List Access := (List.range n).map fun i => ⟨true, a + i⟩

/-- What a call does with the user's pointer: the range it has checked, if any, and its
accesses. -/
structure Trace where
  checked : Option (Nat × Nat) := none
  accesses : List Access := []

/-- What the handlers find: the scheduler, and the one in which a blocked `waitpid` goes
on; the memory; the lengths of the tasks' names; how many characters `read` gets; the
length of the line that `readLine` returns; and whether there is a snapshot. -/
structure World where
  sched : Sched
  later : Option Sched
  mem : Nat → BitVec 8
  nameLen : Nat → Nat
  keys : Nat
  line : Nat
  snapshot : Bool

/-! ## the handlers -/

def isValidUserBuf (addr count : BitVec 32) : Bool :=
  if addr = 0 then false
  else if count.toInt ≤ 0 then false
  else if addr.toNat ≥ kernelVirtualBase then false
  else
    let stop := addr + count
    if stop.toNat > kernelVirtualBase then false
    else if stop < addr then false
    else true

/-- A handler that checks its buffer first. -/
def guarded (addr count : BitVec 32) (accesses : List Access) : Trace :=
  if isValidUserBuf addr count then ⟨some (addr.toNat, count.toNat), accesses⟩ else {}

variable (w : World)

def handleRead (addr count : BitVec 32) : Trace :=
  guarded addr count (writes addr.toNat (min count.toNat w.keys))

def handleWriteSerial (addr len : BitVec 32) : Trace :=
  guarded addr len (reads addr.toNat len.toNat)

def handleWriteStr (addr len : BitVec 32) : Trace := guarded addr len (reads addr.toNat len.toNat)

def handleReadLine (bufAddr maxlen : BitVec 32) : Trace :=
  guarded bufAddr maxlen <|
    if maxlen.toNat < 2 then []
    else
      let copyLen := if w.line ≥ maxlen.toNat then maxlen.toNat - 1 else w.line
      writes bufAddr.toNat copyLen ++ writes (bufAddr.toNat + copyLen) 1

/-- The name of task `i`, as far as it is copied. -/
def nameBytes (i : Nat) : Nat := if w.nameLen i > 15 then 15 else w.nameLen i

/-- The fields of a `TaskEntry`; a byte before `runtimeMs` is padding. -/
def writeEntry (dst i : Nat) : List Access :=
  writes dst 1 ++ writes (dst + 1) (nameBytes w i) ++ writes (dst + 1 + nameBytes w i) 1 ++ writes
    (dst + 17) 2 ++
    writes (dst + 20) 4

/-- The loop of `handleTaskctlList` over the tasks `is`, with `written` entries written. -/
def writeEntries (dst : Nat) (maxEntries : Int) : List Nat → Nat → List Access
  | [], _ => []
  | i :: is, written =>
      if (written : Int) < maxEntries then
        if (w.sched.tasks i).state = .dead then writeEntries dst maxEntries is written
        else writeEntry w (dst + 24 * written) i ++ writeEntries dst maxEntries is (written + 1)
      else []

/-- The size is a product of `int`s. -/
def handleTaskctlList (bufAddr maxEntries : BitVec 32) : Trace :=
  guarded bufAddr (maxEntries * 24)
    (writeEntries w bufAddr.toNat maxEntries.toInt (List.range w.sched.taskCount) 0)

def handleTaskctlDetail (tid bufAddr : BitVec 32) : Trace :=
  if tid.toInt < 0 ∨ tid.toInt ≥ w.sched.taskCount then {}
  else
    let id := tid.toInt.toNat
    if (w.sched.tasks id).state = .dead then {}
    else
      guarded bufAddr 48 (writes bufAddr.toNat 4 ++ writes (bufAddr.toNat + 4) (nameBytes w id) ++
        writes (bufAddr.toNat + 4 + nameBytes w id) 1 ++ writes (bufAddr.toNat + 20) 28)

/-- `static_cast<TaskctlCmd>(cmd)` and `static_cast<SysinfoCmd>(cmd)`: both enumerations
are of type `uint8_t`, so only the lowest byte of the register counts. -/
def command (cmd : BitVec 32) : BitVec 8 := cmd.setWidth 8

/-- `TASKCTL_COUNT` and `TASKCTL_KILL` take no pointer. -/
def handleTaskctl (cmd arg1 arg2 : BitVec 32) : Trace :=
  match (command cmd).toNat with
  | 2 => handleTaskctlList w arg1 arg2 -- TASKCTL_LIST
  | 4 => handleTaskctlDetail w arg1 arg2 -- TASKCTL_DETAIL
  | _ => {}

def handleSysinfoDatetime (bufAddr : BitVec 32) : Trace :=
  guarded bufAddr 6 (writes bufAddr.toNat 6)

def handleSysinfoCpu (bufAddr : BitVec 32) : Trace := guarded bufAddr 76 (writes bufAddr.toNat 76)

/-- The other commands take no pointer. -/
def handleSysinfo (cmd arg : BitVec 32) : Trace :=
  match (command cmd).toNat with
  | 4 => handleSysinfoDatetime arg -- SYSINFO_DATETIME
  | 5 => handleSysinfoCpu arg -- SYSINFO_CPU
  | _ => {}

def panicMsgMax : Nat := 128

/-- `while (slen < n && src[slen]) ++slen`. -/
def strnlen (mem : Nat → BitVec 8) (src : Nat) : Nat → Nat
  | 0 => 0
  | n + 1 => if mem src = 0 then 0 else strnlen mem (src + 1) n + 1

/-- The loop reads up to the end of the message, and `memcpy` reads the message again. -/
def handlePanic (userMsgAddr : BitVec 32) : Trace :=
  if userMsgAddr ≠ 0 ∧ userMsgAddr.toNat < kernelVirtualBase then
    let src := userMsgAddr.toNat
    let slen := strnlen w.mem src (panicMsgMax - 1)
    { accesses := reads src (min (slen + 1) (panicMsgMax - 1)) ++ reads src slen }
  else {}

def handleStats (bufAddr : BitVec 32) : Trace :=
  guarded bufAddr 88 (if w.snapshot then writes bufAddr.toNat 88 else [])

/-- `reapDeadChild` stores the exit code; only the first byte of it was checked. -/
def reapInto (s : Sched) (status : BitVec 32) : Trace :=
  match (s.reapDeadChild s.currentIdx).1 with
  | some _ =>
      { checked := some (status.toNat, 1),
        accesses := if status = 0 then [] else writes status.toNat 4 }
  | none => {}

def waitpid (status : BitVec 32) : Trace :=
  if w.sched.currentIdx ≥ maxTasks ∨ status.toNat ≥ kernelVirtualBase then {}
  else
    match (w.sched.reapDeadChild w.sched.currentIdx).1 with
    | some _ => reapInto w.sched status
    | none =>
        if w.sched.cur.children = [] then {}
        else
          match w.later with
          | some s => reapInto s status
          | none => {}

/-- `syscallHandler`.  The other calls take no pointer: a signal handler's address is
stored and not used. -/
def syscallHandler (eax ebx ecx edx : BitVec 32) : Trace :=
  match eax.toNat with
  | 3 => handleRead w ebx ecx -- SYS_READ
  | 4 => handleWriteStr ebx ecx -- SYS_WRITESTR
  | 5 => handleReadLine w ebx ecx -- SYS_READLINE
  | 7 => handleTaskctl w ebx ecx edx -- SYS_TASKCTL
  | 8 => handleSysinfo ebx ecx -- SYS_SYSINFO
  | 10 => handlePanic w ebx -- SYS_PANIC
  | 12 => handleWriteSerial ebx ecx -- SYS_SERIAL
  | 16 => waitpid w ebx -- SYS_WAITPID
  | 20 => handleStats w ebx -- SYS_STATS
  | _ => {}

/-! ## below the kernel -/

/-- All accesses are below the kernel, and all writes in the range that was checked. -/
structure Trace.StaysBelow (t : Trace) : Prop where
  below : ∀ x ∈ t.accesses, x.addr < kernelVirtualBase
  inside : ∀ x ∈ t.accesses, x.write = true →
    ∃ r, t.checked = some r ∧ r.1 ≤ x.addr ∧ x.addr < r.1 + r.2

/-- The tasks that `TASKCTL_LIST` lists when there is room. -/
def World.alive : Nat :=
  ((List.range w.sched.taskCount).filter fun i => (w.sched.tasks i).state ≠ .dead).length

/-- The current task has a dead child to reap. -/
def DeadChild (s : Sched) : Prop := ∃ pid ∈ s.cur.children, ∃ t < s.taskCount,
    (s.tasks t).pid = pid ∧ (s.tasks t).state = .dead

/-- The size that was checked has room for the entries. -/
def ListFits (bufAddr maxEntries : BitVec 32) : Prop :=
  isValidUserBuf bufAddr (maxEntries * 24) = true →
    24 * min w.alive maxEntries.toInt.toNat ≤ (maxEntries * 24).toNat

/-- The message is rejected, or it ends before the kernel. -/
def MessageEnds (userMsgAddr : BitVec 32) : Prop :=
  userMsgAddr = 0 ∨ kernelVirtualBase ≤ userMsgAddr.toNat ∨
    userMsgAddr.toNat + 127 ≤ kernelVirtualBase ∨
    ∃ x, userMsgAddr.toNat ≤ x ∧ x < kernelVirtualBase ∧ w.mem x = 0

/-- The pointer is null or rejected, or there is no dead child. -/
def StoresNoStatus (status : BitVec 32) : Prop :=
  status = 0 ∨ kernelVirtualBase ≤ status.toNat ∨ maxTasks ≤ w.sched.currentIdx ∨
    (¬ DeadChild w.sched ∧ (w.sched.cur.children ≠ [] → ∀ s, w.later = some s → ¬ DeadChild s))

/-- The condition on the three calls whose pointer the check does not cover:
`TASKCTL_LIST`, `SYS_PANIC` and `SYS_WAITPID`. -/
def Harmless (eax ebx ecx edx : BitVec 32) : Prop :=
  (eax.toNat = 7 → command ebx = 2 → ListFits w ecx edx) ∧ (eax.toNat = 10 → MessageEnds w ebx) ∧
    (eax.toNat = 16 → StoresNoStatus w ebx)

variable {w} {a n : Nat} {x : Access} {addr count : BitVec 32} {accesses : List Access}

/-- The bytes of a read. -/
theorem mem_reads : x ∈ reads a n ↔ x.write = false ∧ a ≤ x.addr ∧ x.addr < a + n := by
  obtain ⟨b, y⟩ := x
  simp only [reads, List.mem_map, List.mem_range, Access.mk.injEq]
  constructor
  · rintro ⟨i, hi, rfl, rfl⟩
    exact ⟨rfl, by omega, by omega⟩
  · rintro ⟨rfl, hlo, hhi⟩
    exact ⟨y - a, by omega, rfl, by omega⟩

/-- The bytes of a write. -/
theorem mem_writes : x ∈ writes a n ↔ x.write = true ∧ a ≤ x.addr ∧ x.addr < a + n := by
  obtain ⟨b, y⟩ := x
  simp only [writes, List.mem_map, List.mem_range, Access.mk.injEq]
  constructor
  · rintro ⟨i, hi, rfl, rfl⟩
    exact ⟨rfl, by omega, by omega⟩
  · rintro ⟨rfl, hlo, hhi⟩
    exact ⟨y - a, by omega, rfl, by omega⟩

/-- No access, no harm. -/
theorem stays_nothing : Trace.StaysBelow {} := ⟨by simp, by simp⟩

/-- The check accepts the ranges of positive length that end below the kernel. -/
theorem isValidUserBuf_iff : isValidUserBuf addr count = true ↔
    0 < addr.toNat ∧ 0 < count.toNat ∧ count.toNat < 2 ^ 31 ∧
      addr.toNat + count.toNat ≤ kernelVirtualBase := by
  have ha := addr.isLt
  have hc := count.isLt
  have hzero : addr = 0 ↔ addr.toNat = 0 := by
    rw [← BitVec.toNat_inj]
    rfl
  have hint := BitVec.toInt_eq_toNat_cond count
  have hsum : (addr + count).toNat = (addr.toNat + count.toNat) % 2 ^ 32 := BitVec.toNat_add ..
  unfold isValidUserBuf kernelVirtualBase
  simp only [hzero, BitVec.lt_def, hsum]
  constructor
  · intro h
    split at h
    · contradiction
    · split at h
      · contradiction
      · split at h
        · contradiction
        · split at h
          · contradiction
          · split at h
            · contradiction
            · split at hint
              · omega
              · omega
  · rintro ⟨hpos, hcount, hsmall, hle⟩
    rw [if_pos (by omega)] at hint
    rw [if_neg (by omega), if_neg (by omega), if_neg (by omega), if_neg (by omega),
      if_neg (by omega)]

/-- A handler that checks its buffer and stays in it. -/
theorem stays_guarded
    (h : ∀ x ∈ accesses, addr.toNat ≤ x.addr ∧ x.addr < addr.toNat + count.toNat) :
    (guarded addr count accesses).StaysBelow := by
  unfold guarded
  split
  · next hvalid =>
      obtain ⟨-, -, -, hle⟩ := isValidUserBuf_iff.mp hvalid
      refine ⟨fun x hx => ?_, fun x hx _ => ⟨_, rfl, h x hx⟩⟩
      have := (h x hx).2
      omega
  · exact stays_nothing

/-- A name has room in its field. -/
theorem nameBytes_le (w : World) (i : Nat) : nameBytes w i ≤ 15 := by
  unfold nameBytes
  split
  · exact Nat.le_refl 15
  · omega

/-! ## the list of tasks -/

/-- An entry is written inside its 24 bytes. -/
theorem writeEntry_inside {i : Nat} (hx : x ∈ writeEntry w a i) :
    x.write = true ∧ a ≤ x.addr ∧ x.addr < a + 24 := by
  have hlen := nameBytes_le w i
  simp only [writeEntry, List.mem_append, mem_writes] at hx
  rcases hx with (((hx | hx) | hx) | hx) | hx <;> exact ⟨hx.1, by omega, by omega⟩

/-- The last byte of an entry is written. -/
theorem writeEntry_last (w : World) (a i : Nat) : ⟨true, a + 23⟩ ∈ writeEntry w a i := by
  refine List.mem_append_right _ (mem_writes.mpr ⟨rfl, ?_, ?_⟩)
  · show a + 20 ≤ a + 23
    omega
  · show a + 23 < a + 20 + 4
    omega

/-- The entries of the tasks `is`. -/
def entries (w : World) (maxEntries : Int) (is : List Nat) (written : Nat) : Nat :=
  min (is.filter fun i => (w.sched.tasks i).state ≠ .dead).length (maxEntries.toNat - written)

/-- The entries are written behind each other. -/
theorem writeEntries_inside {dst written : Nat} {maxEntries : Int} {is : List Nat}
    (hx : x ∈ writeEntries w dst maxEntries is written) :
    dst + 24 * written ≤ x.addr ∧ x.addr < dst + 24 *
      (written + entries w maxEntries is written) := by
  induction is generalizing written with
  | nil => simp [writeEntries] at hx
  | cons i is ih =>
      unfold writeEntries at hx
      unfold entries at ih ⊢
      split at hx
      · next hlt =>
          split at hx
          · next hdead =>
              rw [List.filter_cons_of_neg (by simp [hdead])]
              exact ih hx
          · next hlive =>
              rw [List.filter_cons_of_pos (by simpa using hlive), List.length_cons]
              rcases List.mem_append.mp hx with hx | hx
              · have := writeEntry_inside hx
                omega
              · have := ih hx
                omega
      · simp at hx

/-- The last byte of each of the entries is written. -/
theorem writeEntries_last {dst written k : Nat} {maxEntries : Int} {is : List Nat}
    (hk : k < entries w maxEntries is written) :
    ⟨true, dst + 24 * (written + k) + 23⟩ ∈ writeEntries w dst maxEntries is written := by
  induction is generalizing written k with
  | nil => simp [entries] at hk
  | cons i is ih =>
      unfold writeEntries
      unfold entries at hk ih
      rw [if_pos (by omega)]
      split
      · next hdead =>
          rw [List.filter_cons_of_neg (by simp [hdead])] at hk
          exact ih hk
      · next hlive =>
          rw [List.filter_cons_of_pos (by simpa using hlive), List.length_cons] at hk
          cases k with
          | zero => exact List.mem_append_left _ (writeEntry_last w _ i)
          | succ k =>
              rw [show written + (k + 1) = written + 1 + k by omega]
              refine List.mem_append_right _ (ih ?_)
              omega

/-- `TASKCTL_LIST` stays in its buffer exactly when the checked size has room for the
entries. -/
theorem list_stays_iff (w : World) (bufAddr maxEntries : BitVec 32) :
    (handleTaskctlList w bufAddr maxEntries).StaysBelow ↔ ListFits w bufAddr maxEntries := by
  have hentries : entries w maxEntries.toInt (List.range w.sched.taskCount) 0 =
    min w.alive maxEntries.toInt.toNat := rfl
  unfold handleTaskctlList ListFits
  constructor
  · intro h hvalid
    rw [guarded, if_pos hvalid] at h
    by_contra hover
    have hk : min w.alive maxEntries.toInt.toNat - 1 <
        entries w maxEntries.toInt (List.range w.sched.taskCount) 0 := by
      rw [hentries]
      omega
    have hlast := @writeEntries_last _ bufAddr.toNat _ _ _ _ hk
    obtain ⟨r, hr, -, hlt⟩ := h.inside _ hlast rfl
    obtain rfl := Option.some.inj hr
    dsimp only at hlt
    omega
  · intro hfits
    by_cases hvalid : isValidUserBuf bufAddr (maxEntries * 24) = true
    · have hle := hfits hvalid
      refine stays_guarded fun x hx => ?_
      have := writeEntries_inside hx
      rw [hentries] at this
      omega
    · rw [guarded, if_neg hvalid]
      exact stays_nothing

/-! ## the message -/

/-- `strnlen` stops at its bound. -/
theorem strnlen_le (mem : Nat → BitVec 8) (src n : Nat) : strnlen mem src n ≤ n := by
  induction n generalizing src with
  | zero => exact Nat.le_refl 0
  | succ n ih =>
      unfold strnlen
      split
      · exact Nat.zero_le _
      · exact Nat.succ_le_succ (ih _)

/-- `strnlen` stops at a terminator before its bound. -/
theorem strnlen_end {mem : Nat → BitVec 8} {src : Nat} (h : strnlen mem src n < n) :
    mem (src + strnlen mem src n) = 0 := by
  induction n generalizing src with
  | zero => omega
  | succ n ih =>
      unfold strnlen at h ⊢
      split
      · next hz => exact hz
      · next hnz =>
          rw [if_neg hnz] at h
          have hend : mem (src + 1 + strnlen mem (src + 1) n) = 0 := ih (by omega)
          rwa [show src + (strnlen mem (src + 1) n + 1) =
            src + 1 + strnlen mem (src + 1) n by omega]

/-- `strnlen` does not pass a terminator. -/
theorem strnlen_lt {mem : Nat → BitVec 8} {src y : Nat} (hle : src ≤ y) (hz : mem y = 0) :
    strnlen mem src n ≤ y - src := by
  induction n generalizing src with
  | zero => exact Nat.zero_le _
  | succ n ih =>
      unfold strnlen
      split
      · exact Nat.zero_le _
      · next hnz =>
          have hne : src ≠ y := by
            rintro rfl
            exact hnz hz
          have hle' : strnlen mem (src + 1) n ≤ y - (src + 1) := ih (by omega)
          omega

/-- `SYS_PANIC` stays below the kernel exactly when the message ends there. -/
theorem panic_stays_iff (w : World) (userMsgAddr : BitVec 32) :
    (handlePanic w userMsgAddr).StaysBelow ↔ MessageEnds w userMsgAddr := by
  unfold handlePanic MessageEnds
  by_cases hread : userMsgAddr ≠ 0 ∧ userMsgAddr.toNat < kernelVirtualBase
  · rw [if_pos hread]
    obtain ⟨hne, hlt⟩ := hread
    have hle := strnlen_le w.mem userMsgAddr.toNat 127
    simp only [hne, false_or, panicMsgMax]
    generalize hn : strnlen w.mem userMsgAddr.toNat 127 = slen at hle ⊢
    constructor
    · intro h
      have hlast := h.below ⟨false, userMsgAddr.toNat + min (slen + 1) 127 - 1⟩
        (List.mem_append_left _ (mem_reads.mpr ⟨rfl, by dsimp only; omega, by dsimp only; omega⟩))
      dsimp only at hlast
      by_cases hend : slen < 127
      · have hz : w.mem (userMsgAddr.toNat + strnlen w.mem userMsgAddr.toNat 127) = 0 :=
          strnlen_end (by omega)
        rw [hn] at hz
        exact .inr (.inr ⟨_, by omega, by omega, hz⟩)
      · exact .inr (.inl (by omega))
    · intro h
      have hbound : userMsgAddr.toNat + min (slen + 1) 127 ≤ kernelVirtualBase := by
        rcases h with h | h | ⟨y, hlo, hhi, hz⟩
        · omega
        · omega
        · have := strnlen_lt (n := 127) hlo hz
          omega
      refine ⟨fun x hx => ?_, fun x hx hw => ?_⟩
      · simp only [List.mem_append, mem_reads] at hx
        omega
      · simp [List.mem_append, mem_reads, hw] at hx
  · rw [if_neg hread]
    refine ⟨fun _ => ?_, fun _ => stays_nothing⟩
    by_cases hz : userMsgAddr = 0
    · exact .inl hz
    · exact .inr (.inl (not_lt.mp fun hbelow => hread ⟨hz, hbelow⟩))

/-! ## the status -/

/-- A child is reaped when one is dead. -/
theorem reap_iff (s : Sched) : (s.reapDeadChild s.currentIdx).1 ≠ none ↔ DeadChild s := by
  unfold reapDeadChild DeadChild
  split
  · next hnone =>
      simp only [ne_eq, not_true_eq_false, false_iff]
      rintro ⟨pid, hpid, t, ht, hp, hdead⟩
      exact findDead_none (findReapable_none hnone pid hpid) ht hp hdead
  · next i t hsome =>
      obtain ⟨j, pid, -, hpid, hd⟩ := findReapable_some hsome
      obtain ⟨ht, hp, hdead⟩ := findDead_some hd
      simp only [ne_eq, reduceCtorEq, not_false_eq_true, true_iff]
      exact ⟨pid, List.mem_of_getElem? hpid, t, ht, hp, hdead⟩

/-- A status is stored past the byte that was checked. -/
theorem reapInto_stays_iff {s : Sched} {status : BitVec 32} :
    (reapInto s status).StaysBelow ↔ status = 0 ∨ ¬ DeadChild s := by
  rw [← reap_iff]
  unfold reapInto
  split
  · next r hr =>
      by_cases hz : status = 0
      · simp only [hz, if_true, true_or, iff_true]
        exact ⟨by simp, by simp⟩
      · simp only [hz, if_false, hr, false_or, ne_eq, reduceCtorEq, not_false_eq_true,
          not_true_eq_false, iff_false]
        intro h
        obtain ⟨r, hr, -, hhi⟩ := h.inside ⟨true, status.toNat + 3⟩
          (mem_writes.mpr ⟨rfl, by dsimp only; omega, by dsimp only; omega⟩) rfl
        obtain rfl := Option.some.inj hr
        dsimp only at hhi
        omega
  · next hr =>
      simp only [hr, ne_eq, not_true_eq_false, not_false_eq_true, or_true, iff_true]
      exact stays_nothing

/-- `waitpid` writes its status only where a dead child or a later one is found. -/
theorem waitpid_stays_iff (w : World) (status : BitVec 32) :
    (waitpid w status).StaysBelow ↔ StoresNoStatus w status := by
  unfold waitpid StoresNoStatus
  by_cases hreject : w.sched.currentIdx ≥ maxTasks ∨ status.toNat ≥ kernelVirtualBase
  · rw [if_pos hreject]
    refine ⟨fun _ => ?_, fun _ => stays_nothing⟩
    rcases hreject with h | h
    · exact .inr (.inr (.inl h))
    · exact .inr (.inl h)
  · rw [if_neg hreject]
    simp only [not_or, not_le] at hreject
    obtain ⟨hidx, hlt⟩ := hreject
    have hidx' : ¬ maxTasks ≤ w.sched.currentIdx := Nat.not_le.mpr hidx
    have hlt' : ¬ kernelVirtualBase ≤ status.toNat := Nat.not_le.mpr hlt
    simp only [hidx', hlt', false_or]
    split
    · next r hr =>
        have hdead : DeadChild w.sched := (reap_iff _).mp (by simp [hr])
        rw [reapInto_stays_iff]
        simp [hdead]
    · next hr =>
        have hnone : ¬ DeadChild w.sched := fun h => (reap_iff _).mpr h hr
        split
        · next hch => simp [hch, hnone, stays_nothing]
        · next hch =>
            split
            · next s hs =>
                rw [reapInto_stays_iff]
                simp [hch, hnone, hs]
            · next hs => simp [hs, hnone, stays_nothing]

/-! ## the calls -/

/-- The detail of a task is written into a checked buffer. -/
theorem detail_stays (w : World) (tid bufAddr : BitVec 32) :
    (handleTaskctlDetail w tid bufAddr).StaysBelow := by
  unfold handleTaskctlDetail
  split
  · exact stays_nothing
  · dsimp only
    split
    · exact stays_nothing
    · refine stays_guarded fun x hx => ?_
      have hlen := nameBytes_le w tid.toInt.toNat
      have hsize : (48 : BitVec 32).toNat = 48 := rfl
      simp only [List.mem_append, mem_writes] at hx
      omega

/-- A line is written into a checked buffer. -/
theorem readLine_stays (w : World) (bufAddr maxlen : BitVec 32) :
    (handleReadLine w bufAddr maxlen).StaysBelow := by
  refine stays_guarded fun x hx => ?_
  split at hx
  · simp at hx
  · dsimp only at hx
    simp only [List.mem_append, mem_writes] at hx
    split at hx
    · omega
    · omega

/-- The two structures are written into checked buffers. -/
theorem sysinfo_stays (cmd arg : BitVec 32) : (handleSysinfo cmd arg).StaysBelow := by
  unfold handleSysinfo
  split
  · exact stays_guarded fun x hx => (mem_writes.mp hx).2
  · exact stays_guarded fun x hx => (mem_writes.mp hx).2
  · exact stays_nothing

/-- The statistics are written into a checked buffer. -/
theorem stats_stays (w : World) (bufAddr : BitVec 32) : (handleStats w bufAddr).StaysBelow := by
  refine stays_guarded fun x hx => ?_
  split at hx
  · exact (mem_writes.mp hx).2
  · simp at hx

/-- Characters are written into a checked buffer. -/
theorem read_stays (w : World) (addr count : BitVec 32) : (handleRead w addr count).StaysBelow := by
  refine stays_guarded fun x hx => ?_
  rw [mem_writes] at hx
  omega

/-- **Every call stays below the kernel**, and writes only in the range it checked,
exactly when its pointer is not of the three that the check does not cover. -/
theorem syscall_stays_below_iff (w : World) (eax ebx ecx edx : BitVec 32) :
    (syscallHandler w eax ebx ecx edx).StaysBelow ↔ Harmless w eax ebx ecx edx := by
  have hother : ∀ {t : Trace}, t.StaysBelow → eax.toNat ≠ 7 → eax.toNat ≠ 10 → eax.toNat ≠ 16 →
      (t.StaysBelow ↔ Harmless w eax ebx ecx edx) :=
    fun ht h₁ h₂ h₃ =>
      iff_of_true ht ⟨fun h => absurd h h₁, fun h => absurd h h₂, fun h => absurd h h₃⟩
  unfold syscallHandler
  split
  · next heax => exact hother (read_stays w ebx ecx) (by omega) (by omega) (by omega)
  · next heax =>
      exact hother (stays_guarded fun x hx => (mem_reads.mp hx).2) (by omega) (by omega) (by omega)
  · next heax => exact hother (readLine_stays w ebx ecx) (by omega) (by omega) (by omega)
  · next heax =>
      have hharmless : Harmless w eax ebx ecx edx ↔
          ((command ebx).toNat = 2 → ListFits w ecx edx) := by
        simp [Harmless, heax, ← BitVec.toNat_inj]
      rw [hharmless]
      unfold handleTaskctl
      split
      · next hcmd =>
          rw [list_stays_iff]
          exact ⟨fun h _ => h, fun h => h hcmd⟩
      · next hcmd => exact iff_of_true (detail_stays w ecx edx) fun h => by omega
      · next hcmd _ => exact iff_of_true stays_nothing fun h => absurd h hcmd
  · next heax => exact hother (sysinfo_stays ebx ecx) (by omega) (by omega) (by omega)
  · next heax =>
      rw [panic_stays_iff]
      simp [Harmless, heax]
  · next heax =>
      exact hother (stays_guarded fun x hx => (mem_reads.mp hx).2) (by omega) (by omega) (by omega)
  · next heax =>
      rw [waitpid_stays_iff]
      simp [Harmless, heax]
  · next heax => exact hother (stats_stays w ebx) (by omega) (by omega) (by omega)
  · next h₁ h₂ h₃ h₄ h₅ h₆ h₇ h₈ h₉ => exact hother stays_nothing h₄ h₆ h₈

/-! ## a size that wraps -/

/-- One live task, and no other to be listed. -/
def oneTask : World where
  sched := { tasks := fun _ => { state := .ready }, taskCount := 1 }
  later := none
  mem _ := 1
  nameLen _ := 4
  keys := 0
  line := 0
  snapshot := false

/-- 0x0AAAAAAB entries are 8 bytes, and the first of them reaches into the kernel. -/
theorem list_writes_kernel : ¬ (syscallHandler oneTask 7 2 0xBFFFFFF8 0x0AAAAAAB).StaysBelow := by
  intro h
  have hwrite : (⟨true, 0xC000000F⟩ : Access) ∈
    (syscallHandler oneTask 7 2 0xBFFFFFF8 0x0AAAAAAB).accesses := by decide +kernel
  exact absurd (h.below _ hwrite) (by decide)

end Doors.UserPtr
