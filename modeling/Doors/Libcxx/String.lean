import Mathlib.Algebra.Group.Nat.Defs
import Mathlib.Logic.Function.Basic
import Mathlib.Data.List.Basic
import Doors.Lib.Run

/-!
# Doors.Libcxx.String

The string class (`libc++/string/string.cc`): small strings in the object
itself, larger ones in a heap block.

A string is known by the number of its object, which stands for the address of
`this`; the pointer `data_` is the buffer `sso_` of some object, or a heap
block.  Every access through a pointer is checked against the size of the buffer
it leads to, and every release against the live blocks; what was written before
to a new block or a new object is left open by `Env`.
-/

namespace Doors.Libcxx

/-- How an operation can end without a result. -/
inductive Stop where
  /-- the `hlt` loop of `allocate` and `checkNotNull` -/
  | halt
  /-- an access outside a buffer -/
  | overrun
  /-- the release of something that is not a live block -/
  | badFree
  deriving DecidableEq, Repr

/-! ## the heap -/

/-- A live heap block. -/
structure Block where
  size : Nat
  byte : Nat → BitVec 8

/-- The blocks, numbered as they are allocated, and how often each was freed. -/
structure Heap where
  next : Nat
  block : Nat → Option Block
  frees : Nat → Nat

/-- The outside of the string class: which allocations fail, and the contents
of new blocks and new objects. -/
structure Env where
  fails : Nat → Bool
  junk : Nat → Nat → BitVec 8
  raw : Nat → Nat → BitVec 8

/-- `uint32_t` arithmetic of sizes. -/
def u32 (n : Nat) : Nat := n % 2 ^ 32

/-- `a - b` in `uint32_t`, for two sizes. -/
def sub32 (a b : Nat) : Nat := u32 (a + 2 ^ 32 - b)

/-- `buf` with `bs` at `off`. -/
def poke (buf : Nat → BitVec 8) (off : Nat) (bs : List (BitVec 8)) (k : Nat) : BitVec 8 :=
  if off ≤ k ∧ k < off + bs.length then bs.getD (k - off) 0 else buf k

/-- A checked write to block `b`. -/
def Heap.write (h : Heap) (b off : Nat) (bs : List (BitVec 8)) : Except Stop Heap :=
  match h.block b with
  | none => .error .overrun
  | some blk =>
      if off + bs.length ≤ blk.size then
        .ok { h with block := Function.update h.block b (some ⟨blk.size, poke blk.byte off bs⟩) }
      else .error .overrun

/-- `string::allocate`: a block of `cap + 1` bytes.  `Heap::alloc` returns null
for a size of 0, to which the sum can wrap. -/
def allocate (E : Env) (cap : Nat) (h : Heap) : Except Stop (Nat × Heap) :=
  if u32 (cap + 1) = 0 ∨ E.fails h.next then .error .halt
  else .ok (h.next, { h with
    next := h.next + 1
    block := Function.update h.block h.next (some ⟨u32 (cap + 1), E.junk h.next⟩) })

/-! ## strings -/

/-- The buffer that `data_` points to. -/
inductive Ptr where
  | sso (owner : Nat)
  | heap (block : Nat)
  deriving DecidableEq, Repr

structure Str where
  data : Ptr
  size : Nat
  capacity : Nat
  sso : Nat → BitVec 8

def ssoCapacity : Nat := 23
def npos : Nat := 4294967295
def maxSize : Nat := npos / 2

/-- `string::deallocate`. -/
def deallocate (p : Ptr) (h : Heap) : Except Stop Heap :=
  match p with
  | .sso _ => .error .badFree
  | .heap b =>
      match h.block b with
      | none => .error .badFree
      | some _ => .ok { h with
          block := Function.update h.block b none
          frees := Function.update h.frees b (h.frees b + 1) }

namespace Str

variable (E : Env) (i : Nat) (s : Str) (h : Heap)

/-- `isSSO()` of the string at `i`. -/
def isSSO : Bool := s.data = .sso i

/-- `capacity()`. -/
def cap : Nat := if s.isSSO i then ssoCapacity else s.capacity

/-- The buffer that the string at `i` reads and writes through `data_`. -/
def buffer : Option Block :=
  match s.data with
  | .sso o => if o = i then some ⟨ssoCapacity + 1, s.sso⟩ else none
  | .heap b => h.block b

/-- A checked read of `n` bytes at `data_ + off`. -/
def read (off n : Nat) : Except Stop (List (BitVec 8)) :=
  match s.buffer i h with
  | none => .error .overrun
  | some blk =>
      if off + n ≤ blk.size then .ok ((List.range n).map fun k => blk.byte (off + k))
        else .error .overrun

/-- A checked write to the array `sso_`. -/
def writeSSO (off : Nat) (bs : List (BitVec 8)) : Except Stop Str :=
  if off + bs.length ≤ ssoCapacity + 1 then .ok { s with sso := poke s.sso off bs }
    else .error .overrun

/-- A checked write at `data_ + off`. -/
def write (off : Nat) (bs : List (BitVec 8)) : Except Stop (Str × Heap) :=
  match s.data with
  | .sso o =>
      if o = i then do
        let s ← s.writeSSO off bs
        return (s, h)
      else .error .overrun
  | .heap b => do
      let h ← h.write b off bs
      return (s, h)

/-- `if (isHeap()) deallocate(data_)`. -/
def release : Except Stop Heap := if s.isSSO i then .ok h else deallocate s.data h

/-- `setSSO`. -/
def setSSO (bs : List (BitVec 8)) : Except Stop Str := do
  let s ← s.writeSSO 0 bs
  let s ← s.writeSSO bs.length [0]
  return { s with data := .sso i, size := bs.length }

/-- `setHeap`. -/
def setHeap (b n cap : Nat) : Except Stop (Str × Heap) :=
  write i { s with data := .heap b, size := n, capacity := cap } h n [0]

/-- `size_ = n; data_[size_] = '\0'`. -/
def setSize (n : Nat) : Except Stop (Str × Heap) := write i { s with size := n } h n [0]

/-- `grow`. -/
def grow (minCap : Nat) : Except Stop (Str × Heap) := do
  let newCap := max (max (u32 (s.cap i * 2)) minCap) (ssoCapacity + 1)
  let (p, h) ← allocate E newCap h
  let h ← if s.size > 0 then do
      let bs ← s.read i h 0 s.size
      h.write p 0 bs
    else .ok h
  let h ← h.write p s.size [0]
  let h ← s.release i h
  s.setHeap i h p s.size newCap

/-- `reserveFor`. -/
def reserveFor (n : Nat) : Except Stop (Str × Heap) :=
  if n ≤ s.cap i then .ok (s, h)
  else if s.isSSO i ∧ n ≤ ssoCapacity then .ok (s, h)
  else s.grow E i h n

/-! ## constructors and the destructor -/

/-- The members before the body of a constructor. -/
def fresh : Str := { data := .sso i, size := 0, capacity := ssoCapacity, sso := E.raw i }

/-- The bytes of a C string before its terminator. -/
def text (cs : Option (List (BitVec 8))) : List (BitVec 8) := (cs.getD []).takeWhile (· ≠ 0)

/-- `string()`. -/
def ctor : Except Stop (Str × Heap) := do
  let s ← (fresh E i).writeSSO 0 [0]
  return (s, h)

/-- `string(const char *)`. -/
def ctorCstr (cs : Option (List (BitVec 8))) : Except Stop (Str × Heap) :=
  if cs.isNone then .error .halt
  else if (text cs).length ≤ ssoCapacity then do
    let s ← (fresh E i).setSSO i (text cs)
    return ({ s with capacity := ssoCapacity }, h)
  else do
    let (p, h) ← allocate E (text cs).length h
    let h ← h.write p 0 (text cs ++ [0])
    (fresh E i).setHeap i h p (text cs).length (text cs).length

/-- `string(const char *, size_type)`, with the bytes it is given. -/
def ctorBuf (bs : Option (List (BitVec 8))) : Except Stop (Str × Heap) :=
  if bs.isNone then .error .halt
  else if (bs.getD []).length ≤ ssoCapacity then do
    let s ← (fresh E i).setSSO i (bs.getD [])
    return ({ s with capacity := ssoCapacity }, h)
  else do
    let (p, h) ← allocate E (bs.getD []).length h
    let h ← h.write p 0 (bs.getD [])
    (fresh E i).setHeap i h p (bs.getD []).length (bs.getD []).length

/-- `string(size_type, char)`; the steps for a short string are those of
`setSSO`. -/
def ctorFill (n : Nat) (ch : BitVec 8) : Except Stop (Str × Heap) :=
  if n ≤ ssoCapacity then do
    let s ← (fresh E i).setSSO i (List.replicate n ch)
    return ({ s with capacity := ssoCapacity }, h)
  else do
    let (p, h) ← allocate E n h
    let h ← h.write p 0 (List.replicate n ch)
    (fresh E i).setHeap i h p n n

/-- `string(const string &)`, from the string `t` at `j`. -/
def copyCtor (j : Nat) (t : Str) : Except Stop (Str × Heap) :=
  if t.isSSO j then do
    let bs ← t.read j h 0 t.size
    let s ← (fresh E i).setSSO i bs
    return ({ s with capacity := ssoCapacity }, h)
  else do
    let (p, h) ← allocate E t.capacity h
    let bs ← t.read j h 0 (t.size + 1)
    let h ← h.write p 0 bs
    (fresh E i).setHeap i h p t.size t.capacity

/-- The members of `s` and of `t` at `j` after a move from `t`. -/
def moveFrom (j : Nat) (t : Str) : Except Stop (Str × Str) := do
  let s := { s with data := t.data, size := t.size, capacity := t.capacity }
  let s ← if t.isSSO j then do
      let bs ← t.read j h 0 (t.size + 1)
      let s ← s.writeSSO 0 bs
      pure { s with data := .sso i }
    else pure s
  let t ← writeSSO { t with data := .sso j, size := 0 } 0 [0]
  return (s, t)

/-! ## assignments -/

/-- `operator=(const string &)` from another string. -/
def copyAssign (j : Nat) (t : Str) : Except Stop (Str × Heap) :=
  if t.isSSO j then do
    let h ← s.release i h
    let bs ← t.read j h 0 t.size
    let s ← s.setSSO i bs
    return ({ s with capacity := ssoCapacity }, h)
  else if ¬ s.isSSO i ∧ s.capacity ≥ t.size then do
    let bs ← t.read j h 0 (t.size + 1)
    let (s, h) ← s.write i h 0 bs
    s.setSize i h t.size
  else do
    let h ← s.release i h
    let (p, h) ← allocate E t.capacity h
    let bs ← t.read j h 0 (t.size + 1)
    let h ← h.write p 0 bs
    s.setHeap i h p t.size t.capacity

/-- `assign(const char *)`. -/
def assignCstr (cs : Option (List (BitVec 8))) : Except Stop (Str × Heap) :=
  if cs.isNone then .error .halt
  else if (text cs).length ≤ ssoCapacity then do
    let h ← s.release i h
    let s ← s.setSSO i (text cs)
    return ({ s with capacity := ssoCapacity }, h)
  else if ¬ s.isSSO i ∧ s.capacity ≥ (text cs).length then do
    -- the terminator is that of the C string
    let (s, h) ← s.write i h 0 (text cs ++ [0])
    return ({ s with size := (text cs).length }, h)
  else do
    let h ← s.release i h
    let (p, h) ← allocate E (text cs).length h
    let h ← h.write p 0 (text cs ++ [0])
    s.setHeap i h p (text cs).length (text cs).length

/-! ## mutators -/

/-- `reserve(size_type)`. -/
def reserve (newCap : Nat) : Except Stop (Str × Heap) :=
  if newCap ≤ s.cap i then .ok (s, h) else s.grow E i h newCap

/-- `shrink_to_fit`. -/
def shrinkToFit : Except Stop (Str × Heap) :=
  if s.isSSO i then .ok (s, h)
  else if s.size = s.capacity then .ok (s, h)
  else if s.size ≤ ssoCapacity then do
    let tmp ← s.read i h 0 s.size
    let h ← deallocate s.data h
    let s ← s.setSSO i tmp
    return ({ s with capacity := ssoCapacity }, h)
  else do
    let (p, h) ← allocate E s.size h
    let bs ← s.read i h 0 s.size
    let h ← h.write p 0 bs
    let h ← h.write p s.size [0]
    let h ← deallocate s.data h
    s.setHeap i h p s.size s.size

/-- `clear`. -/
def clear : Except Stop (Str × Heap) := do
  let h ← s.release i h
  let s := if s.isSSO i then s else { s with data := .sso i, capacity := ssoCapacity }
  let s ← writeSSO { s with size := 0 } 0 [0]
  return (s, h)

/-- `pop_back`. -/
def popBack : Except Stop (Str × Heap) :=
  if s.size > 0 then s.setSize i h (s.size - 1) else .ok (s, h)

/-- Makes room for `n` bytes in place of the `count` bytes at `pos`: the reservation
and the `memmove` in `replace`, and those of `insert` for a count of 0. -/
def openGap (pos count n : Nat) : Except Stop (Str × Heap) := do
  let (s, h) ← s.reserveFor E i h (u32 (sub32 s.size count + n))
  if u32 (pos + count) < s.size then do
    let bs ← s.read i h (u32 (pos + count)) (sub32 (sub32 s.size pos) count)
    s.write i h (u32 (pos + n)) bs
  else pure (s, h)

/-- Replaces `count` bytes at `pos` by the `n` bytes of `src`: the body of
`replace`, and that of `insert` for a count of 0. -/
def splice (pos count n : Nat) (src : Heap → Except Stop (List (BitVec 8))) :
    Except Stop (Str × Heap) := do
  let (s, h) ← s.openGap E i h pos count n
  let bs ← src h
  let (s, h) ← s.write i h pos bs
  s.setSize i h (u32 (sub32 s.size count + n))

/-- `insert(size_type, const string &)`, with the string `t` at `j`. -/
def insertStr (pos j : Nat) (t : Str) : Except Stop (Str × Heap) :=
  s.splice E i h (min pos s.size) 0 t.size fun h => t.read j h 0 t.size

/-- `insert(size_type, size_type, char)`. -/
def insertFill (pos n : Nat) (ch : BitVec 8) : Except Stop (Str × Heap) :=
  s.splice E i h (min pos s.size) 0 n fun _ => .ok (List.replicate n ch)

/-- The count of `erase` and `replace` after it is cut at the end. -/
def cut (pos count : Nat) : Nat :=
  if count = npos ∨ u32 (pos + count) > s.size then s.size - pos else count

/-- `replace(size_type, size_type, const char *, size_type)`. -/
def replaceBuf (pos count : Nat) (bs : Option (List (BitVec 8))) : Except Stop (Str × Heap) :=
  if bs.isNone then .error .halt
  else s.splice E i h (min pos s.size) (s.cut (min pos s.size) count) (bs.getD []).length fun _ =>
    .ok (bs.getD [])

/-- `erase`. -/
def erase (pos count : Nat) : Except Stop (Str × Heap) :=
  if pos > s.size then .ok (s, h)
  else do
    let count := s.cut pos count
    let (s, h) ← if u32 (pos + count) < s.size then do
        let bs ← s.read i h (u32 (pos + count)) (sub32 (sub32 s.size pos) count)
        s.write i h pos bs
      else pure (s, h)
    s.setSize i h (sub32 s.size count)

/-- `push_back`. -/
def pushBack (ch : BitVec 8) : Except Stop (Str × Heap) := do
  let (s, h) ← s.reserveFor E i h (u32 (s.size + 1))
  let (s, h) ← s.write i h s.size [ch]
  s.setSize i h (u32 (s.size + 1))

/-- `resize(size_type, char)`. -/
def resize (n : Nat) (ch : BitVec 8) : Except Stop (Str × Heap) :=
  if n < s.size then s.setSize i h n
  else if n > s.size then do
    let (s, h) ← s.reserveFor E i h n
    let (s, h) ← s.write i h s.size (List.replicate (n - s.size) ch)
    s.setSize i h n
  else .ok (s, h)

/-! ## extracts -/

/-- `copy`, with the bytes that it writes to its destination, which is not null. -/
def copy (count pos : Nat) : Except Stop (List (BitVec 8)) :=
  if pos ≥ s.size then .ok [] else s.read i h pos (min count (s.size - pos))

/-- `substr`, to the new object `k`; the last part is `string(const char *, size_type)`
with a pointer into the string. -/
def substr (k pos count : Nat) : Except Stop (Str × Heap) :=
  if pos ≥ s.size then ctor E k h
  else if s.cut pos count ≤ ssoCapacity then do
    let bs ← s.read i h pos (s.cut pos count)
    let r ← (fresh E k).setSSO k bs
    return ({ r with capacity := ssoCapacity }, h)
  else do
    let (p, h) ← allocate E (s.cut pos count) h
    let bs ← s.read i h pos (s.cut pos count)
    let h ← h.write p 0 bs
    (fresh E k).setHeap k h p (s.cut pos count) (s.cut pos count)

end Str

/-! ## programs with strings -/

/-- All string objects, and the heap. -/
structure Mach where
  strs : Nat → Option Str
  heap : Heap

/-- The machine before the first string. -/
def Mach.empty : Mach := ⟨fun _ => none, ⟨0, fun _ => none, fun _ => 0⟩⟩

/-- An operation.  `tmp` is the object of the temporary string that the
operation makes.  The other overloads are calls of these: `reserve()` is
`shrinkToFit`, `resize(n)` fills with zeros, `assign(const string &)`,
`operator=(const char *)` and `operator+=` are the members they call. -/
inductive Op where
  | ctor (i : Nat)
  | ctorCstr (i : Nat) (cs : Option (List (BitVec 8)))
  | ctorBuf (i : Nat) (bs : Option (List (BitVec 8)))
  | ctorFill (i n : Nat) (ch : BitVec 8)
  | copyCtor (i j : Nat)
  | moveCtor (i j : Nat)
  | dtor (i : Nat)
  | copyAssign (i j : Nat)
  | moveAssign (i j : Nat)
  | assignCstr (i : Nat) (cs : Option (List (BitVec 8)))
  | reserve (i newCap : Nat)
  | shrinkToFit (i : Nat)
  | clear (i : Nat)
  | popBack (i : Nat)
  | insertStr (i pos j : Nat)
  | insertCstr (i pos : Nat) (cs : Option (List (BitVec 8))) (tmp : Nat)
  | insertFill (i pos n : Nat) (ch : BitVec 8)
  | erase (i pos count : Nat)
  | pushBack (i : Nat) (ch : BitVec 8)
  | append (i j : Nat)
  | appendCstr (i : Nat) (cs : Option (List (BitVec 8))) (tmp : Nat)
  | resize (i n : Nat) (ch : BitVec 8)
  | swap (i j tmp : Nat)
  | replaceStr (i pos count j : Nat)
  | replaceCstr (i pos count : Nat) (cs : Option (List (BitVec 8))) (tmp : Nat)
  | replaceBuf (i pos count : Nat) (bs : Option (List (BitVec 8)))

namespace Mach

variable (E : Env) (m : Mach)

/-- The string at `i`; there is no such access to a dead object. -/
def get (i : Nat) : Except Stop Str :=
  match m.strs i with
  | some s => .ok s
  | none => .error .overrun

def put (i : Nat) (r : Str × Heap) : Mach := ⟨Function.update m.strs i (some r.1), r.2⟩

/-- A constructor of object `i`. -/
def make (i : Nat) (f : Heap → Except Stop (Str × Heap)) : Except Stop Mach := do
  let r ← f m.heap
  return m.put i r

/-- A member function of string `i`. -/
def apply (i : Nat) (f : Str → Heap → Except Stop (Str × Heap)) : Except Stop Mach := do
  let s ← m.get i
  let r ← f s m.heap
  return m.put i r

/-- The destructor. -/
def dtor (i : Nat) : Except Stop Mach := do
  let s ← m.get i
  let h ← s.release i m.heap
  return ⟨Function.update m.strs i none, h⟩

/-- `string(string &&)`. -/
def moveCtor (i j : Nat) : Except Stop Mach := do
  let t ← m.get j
  let (s, t) ← (Str.fresh E i).moveFrom i m.heap j t
  return ⟨Function.update (Function.update m.strs i (some s)) j (some t), m.heap⟩

/-- `operator=(const string &)`. -/
def copyAssign (i j : Nat) : Except Stop Mach :=
  if i = j then .ok m
  else do
    let t ← m.get j
    m.apply i fun s h => s.copyAssign E i h j t

/-- `operator=(string &&)`. -/
def moveAssign (i j : Nat) : Except Stop Mach :=
  if i = j then .ok m
  else do
    let s ← m.get i
    let t ← m.get j
    let h ← s.release i m.heap
    let (s, t) ← s.moveFrom i h j t
    return ⟨Function.update (Function.update m.strs i (some s)) j (some t), h⟩

def insertStr (i pos j : Nat) : Except Stop Mach := do
  let t ← m.get j
  m.apply i fun s h => s.insertStr E i h pos j t

def ctorCstr (i : Nat) (cs : Option (List (BitVec 8))) : Except Stop Mach :=
  m.make i fun h => Str.ctorCstr E i h cs

def erase (i pos count : Nat) : Except Stop Mach := m.apply i fun s h => s.erase i h pos count

/-- `substr` of string `i`, to the new object `k`. -/
def substr (i k pos count : Nat) : Except Stop Mach := do
  let s ← m.get i
  m.make k fun h => s.substr E i h k pos count

/-- `copy` from string `i`. -/
def copy (i count pos : Nat) : Except Stop (List (BitVec 8)) := do
  let s ← m.get i
  s.copy i m.heap count pos

/-- `insert(size_type, const char *)` through a temporary string. -/
def insertCstr (i pos : Nat) (cs : Option (List (BitVec 8))) (tmp : Nat) : Except Stop Mach := do
  let m ← m.ctorCstr E tmp cs
  let m ← m.insertStr E i pos tmp
  m.dtor tmp

/-- `replace(size_type, size_type, const string &)`. -/
def replaceStr (i pos count j : Nat) : Except Stop Mach := do
  let m ← m.erase i pos count
  m.insertStr E i pos j

/-- One operation. -/
def exec : Op → Except Stop Mach
  | .ctor i => m.make i fun h => Str.ctor E i h
  | .ctorCstr i cs => m.ctorCstr E i cs
  | .ctorBuf i bs => m.make i fun h => Str.ctorBuf E i h bs
  | .ctorFill i n ch => m.make i fun h => Str.ctorFill E i h n ch
  | .copyCtor i j => do
      let t ← m.get j
      m.make i fun h => Str.copyCtor E i h j t
  | .moveCtor i j => m.moveCtor E i j
  | .dtor i => m.dtor i
  | .copyAssign i j => m.copyAssign E i j
  | .moveAssign i j => m.moveAssign i j
  | .assignCstr i cs => m.apply i fun s h => s.assignCstr E i h cs
  | .reserve i newCap => m.apply i fun s h => s.reserve E i h newCap
  | .shrinkToFit i => m.apply i fun s h => s.shrinkToFit E i h
  | .clear i => m.apply i fun s h => s.clear i h
  | .popBack i => m.apply i fun s h => s.popBack i h
  | .insertStr i pos j => m.insertStr E i pos j
  | .insertCstr i pos cs tmp => m.insertCstr E i pos cs tmp
  | .insertFill i pos n ch => m.apply i fun s h => s.insertFill E i h pos n ch
  | .erase i pos count => m.erase i pos count
  | .pushBack i ch => m.apply i fun s h => s.pushBack E i h ch
  | .append i j => do
      let s ← m.get i
      m.insertStr E i s.size j
  | .appendCstr i cs tmp => do
      let s ← m.get i
      m.insertCstr E i s.size cs tmp
  | .resize i n ch => m.apply i fun s h => s.resize E i h n ch
  | .swap i j tmp => do
      let m ← m.moveCtor E tmp i
      let m ← m.moveAssign i j
      let m ← m.moveAssign j tmp
      m.dtor tmp
  | .replaceStr i pos count j => m.replaceStr E i pos count j
  | .replaceCstr i pos count cs tmp => do
      let m ← m.ctorCstr E tmp cs
      let m ← m.replaceStr E i pos count tmp
      m.dtor tmp
  | .replaceBuf i pos count bs => m.apply i fun s h => s.replaceBuf E i h pos count bs

end Mach

end Doors.Libcxx
