import Mathlib.Order.Defs.LinearOrder
import ParallelArch.Concurrency.Threads

/-!
# The lock-free list

`LockFreeList` keeps its values in a chain of nodes from the sentinel `head`; a second
sentinel `tail` carries the same value `T{}`.  The lowest bit of a node's `next` marks the
node as removed.  `find` walks to the first node not below a value and cuts a marked `cur`
out; `add` links a new node there, `remove` marks a node's `next` and swings the
predecessor over it, and `contains` walks on its own.

Nodes live at addresses given out once.  An access through a null pointer ends the program,
and one through a marked pointer goes to the middle of a node, where C++ leaves everything
open: `step` has neither, and what is said about runs is said of those that come to no access
through a marked pointer (`Pc.AccessesMarked`).  An access to a node already deleted finds the
node as it was.
-/

namespace LockFreeList

/-- A pointer word: the address, and the mark in its lowest bit. -/
structure Ptr where
  addr : ℕ
  mark : Bool
deriving DecidableEq

/-- `nullptr`. -/
def Ptr.null : Ptr := ⟨0, false⟩

/-- `PointerUtils::get_pointer`. -/
def Ptr.getPointer (p : Ptr) : Ptr := ⟨p.addr, false⟩

/-- `PointerUtils::get_marked`. -/
def Ptr.getMarked (p : Ptr) : Ptr := ⟨p.addr, true⟩

theorem Ptr.getPointer_of_unmarked {p : Ptr} (h : p.mark = false) :
  p.getPointer = p
  := by
  obtain ⟨addr, mark⟩ := p
  obtain rfl : mark = false := h
  rfl

theorem Ptr.eq_of_addr {p q : Ptr} (hp : p.mark = false) (hq : q.mark = false)
    (h : p.addr = q.addr) :
  p = q
  := by
  have hsame : p.getPointer = q.getPointer := by
    rw [Ptr.getPointer, Ptr.getPointer, h]
  rwa [Ptr.getPointer_of_unmarked hp, Ptr.getPointer_of_unmarked hq] at hsame

theorem Ptr.eq_null {p : Ptr} (h : p.mark = false) (haddr : p.addr = 0) :
  p = .null
  := Ptr.eq_of_addr h rfl haddr

theorem Ptr.addr_ne_zero {p : Ptr} (h : p.mark = false) (hnull : p ≠ .null) :
  p.addr ≠ 0
  := fun haddr => hnull (Ptr.eq_null h haddr)

/-- The nodes by address, with how often each has been deleted; `size` is the next address
to give out. -/
structure Mem (T : Type*) where
  value : ℕ → T
  next : ℕ → Ptr
  deleted : ℕ → ℕ
  size : ℕ
  head : Ptr
  tail : Ptr

/-- A call of the list. -/
inductive Call (T : Type*) where
  | add (value : T)
  | remove (value : T)
  | contains (value : T)
deriving DecidableEq

/-- The caller of `find`: `add` with its new node, or `remove`. -/
inductive Caller where
  | add (newNode : Ptr)
  | remove

/-- Where a thread is in `find`, `add`, `remove` or `contains`, with its local
variables. -/
inductive Pc (T : Type*) where
  | idle
  | addNew (value : T)
  | findHead (caller : Caller) (value : T)
  | findFirst (caller : Caller) (value : T) (pre : Ptr)
  | findTest (caller : Caller) (value : T) (pre cur : Ptr)
  | findNext (caller : Caller) (value : T) (pre cur : Ptr)
  | cleanLoad (caller : Caller) (value : T) (pre cur : Ptr)
  | cleanCas (caller : Caller) (value : T) (pre cur nextCur : Ptr)
  | addTest (value : T) (newNode pre cur : Ptr)
  | addDelete (value : T) (newNode : Ptr)
  | addStore (value : T) (newNode pre cur : Ptr)
  | addCas (value : T) (newNode pre cur : Ptr)
  | removeTest (value : T) (pre cur : Ptr)
  | removeLoad (value : T) (pre cur : Ptr)
  | removeMark (value : T) (pre cur nextCur : Ptr)
  | removeSwing (value : T) (pre cur nextCur : Ptr)
  | removeDelete (value : T) (cur : Ptr)
  | containsHead (value : T)
  | containsTest (value : T) (cur : Ptr)
  | containsNext (value : T) (cur : Ptr)
  | containsTail (value : T) (pCur : Ptr)
  | containsMark (value : T) (pCur : Ptr)

/-- The state of a thread: the calls it still has to make, and where it is in the current
one. -/
structure Thread (T : Type*) where
  todo : List (Call T)
  pc : Pc T

/-- A call returns. -/
inductive Event (T : Type*) where
  | returned (call : Call T) (answer : Bool)
deriving DecidableEq

variable {T : Type*}

/-- The thread at another point of its code. -/
def Thread.goto (l : Thread T) (pc : Pc T) : Thread T := { l with pc := pc }

@[simp]
theorem Thread.goto_pc (l : Thread T) (pc : Pc T) : (l.goto pc).pc = pc := rfl

@[simp]
theorem Thread.goto_todo (l : Thread T) (pc : Pc T) : (l.goto pc).todo = l.todo := rfl

/-! ### The heap -/

/-- `new Node(value)`. -/
def Mem.newNode (m : Mem T) (value : T) : Mem T :=
  { m with
    value := Function.update m.value m.size value
    next := Function.update m.next m.size .null
    size := m.size + 1 }

/-- A store to the field `next` of the node at `a`. -/
def Mem.storeNext (m : Mem T) (a : ℕ) (p : Ptr) : Mem T :=
  { m with next := Function.update m.next a p }

/-- `delete`. -/
def Mem.delete (m : Mem T) (a : ℕ) : Mem T :=
  { m with deleted := Function.update m.deleted a (m.deleted a + 1) }

@[simp]
theorem Mem.newNode_head (m : Mem T) (v : T) : (m.newNode v).head = m.head := rfl

@[simp]
theorem Mem.newNode_size (m : Mem T) (v : T) : (m.newNode v).size = m.size + 1 := rfl

@[simp]
theorem Mem.newNode_deleted (m : Mem T) (v : T) : (m.newNode v).deleted = m.deleted := rfl

@[simp]
theorem Mem.storeNext_head (m : Mem T) (a : ℕ) (p : Ptr) : (m.storeNext a p).head = m.head := rfl

@[simp]
theorem Mem.storeNext_size (m : Mem T) (a : ℕ) (p : Ptr) : (m.storeNext a p).size = m.size := rfl

@[simp]
theorem Mem.storeNext_value (m : Mem T) (a : ℕ) (p : Ptr) :
  (m.storeNext a p).value = m.value
  := rfl

@[simp]
theorem Mem.storeNext_deleted (m : Mem T) (a : ℕ) (p : Ptr) :
  (m.storeNext a p).deleted = m.deleted
  := rfl

@[simp]
theorem Mem.delete_head (m : Mem T) (a : ℕ) : (m.delete a).head = m.head := rfl

@[simp]
theorem Mem.delete_size (m : Mem T) (a : ℕ) : (m.delete a).size = m.size := rfl

@[simp]
theorem Mem.delete_value (m : Mem T) (a : ℕ) : (m.delete a).value = m.value := rfl

@[simp]
theorem Mem.delete_next (m : Mem T) (a : ℕ) : (m.delete a).next = m.next := rfl

/-- The address a node points to. -/
def Mem.succ (m : Mem T) (a : ℕ) : ℕ := (m.next a).addr

/-- The node's own `next` carries the mark. -/
def Mem.Marked (m : Mem T) (a : ℕ) : Prop := (m.next a).mark = true

instance (m : Mem T) (a : ℕ) : Decidable (m.Marked a) := inferInstanceAs (Decidable (_ = _))

/-- A node whose link is unmarked is not marked. -/
theorem Mem.not_marked {m : Mem T} {a : ℕ} {p : Ptr} (h : m.next a = p) (hmark : p.mark = false) :
  ¬ m.Marked a
  := by
  rw [Marked, h, hmark]
  apply Bool.false_ne_true

theorem Mem.marked_of_getMarked {m : Mem T} {a : ℕ} {p : Ptr} (h : m.next a = p.getMarked) :
  m.Marked a
  := by
  rw [Marked, h]
  rfl

theorem Mem.succ_newNode (m : Mem T) (v : T) :
  (m.newNode v).succ = Function.update m.succ m.size 0
  := Function.comp_update Ptr.addr m.next m.size .null

theorem Mem.succ_storeNext (m : Mem T) (a : ℕ) (p : Ptr) :
  (m.storeNext a p).succ = Function.update m.succ a p.addr
  := Function.comp_update Ptr.addr m.next a p

theorem Mem.marked_newNode {m : Mem T} {v : T} {a : ℕ} (ha : a ≠ m.size) :
  (m.newNode v).Marked a ↔ m.Marked a
  := by
  simp only [Marked, newNode, Function.update_of_ne ha]

theorem Mem.not_marked_newNode {m : Mem T} {v : T} :
  ¬ (m.newNode v).Marked m.size
  := by
  simp [Marked, newNode, Ptr.null]

theorem Mem.marked_storeNext_of_ne {m : Mem T} {a b : ℕ} {p : Ptr} (hb : b ≠ a) :
  (m.storeNext a p).Marked b ↔ m.Marked b
  := by
  simp only [Marked, storeNext, Function.update_of_ne hb]

theorem Mem.marked_storeNext {m : Mem T} {a : ℕ} {p : Ptr} :
  (m.storeNext a p).Marked a ↔ p.mark = true
  := by
  simp only [Marked, storeNext, Function.update_self]

/-- The pointer can be followed: it is not marked and points to a node. -/
def Mem.Accessible (m : Mem T) (p : Ptr) : Prop :=
  p.mark = false ∧ 0 < p.addr ∧ p.addr < m.size

instance (m : Mem T) (p : Ptr) : Decidable (m.Accessible p) := inferInstanceAs (Decidable (_ ∧ _))

/-- The pointer through which a thread reads or writes a field of a node in its next
step. -/
def Pc.access (tail : Ptr) : Pc T → Option Ptr
  | .findFirst _ _ pre => some pre
  | .findTest _ _ _ cur => if cur = .null then none else some cur.getPointer
  | .findNext _ _ _ cur | .cleanLoad _ _ _ cur => some cur.getPointer
  | .cleanCas _ _ pre _ _ => some pre
  | .addTest _ _ _ cur => if cur = .null then none else some cur.getPointer
  | .addStore _ newNode _ _ => some newNode
  | .addCas _ _ pre _ => some pre
  | .removeTest _ _ cur => if cur = .null then none else some cur.getPointer
  | .removeLoad _ _ cur | .removeMark _ _ cur _ => some cur.getPointer
  | .removeSwing _ pre _ _ => some pre
  | .containsTest _ cur =>
      if cur = .null ∨ cur.getPointer = tail then none else some cur.getPointer
  | .containsNext _ cur => some cur
  | .containsTail _ pCur => if pCur = .null ∨ pCur = tail then none else some pCur
  | .containsMark _ pCur => some pCur
  | _ => none

/-- The next step of the thread reads or writes a field through a marked pointer, as in
`pre->next` after `find` has walked over a marked link. -/
def Pc.AccessesMarked (tail : Ptr) (pc : Pc T) : Prop := (pc.access tail).any Ptr.mark = true

instance (tail : Ptr) (pc : Pc T) : Decidable (pc.AccessesMarked tail) :=
  inferInstanceAs (Decidable (_ = _))

/-! ### The operations -/

/-- The end of `find`: a marked `cur` is to be cut out first. -/
def Pc.found (caller : Caller) (value : T) (pre cur : Ptr) : Pc T :=
  if cur ≠ .null ∧ cur.mark = true then .cleanLoad caller value pre cur
  else
    match caller with
    | .add newNode => .addTest value newNode pre cur
    | .remove => .removeTest value pre cur

variable [LinearOrder T]

/-- What a thread does in one step when its pointers can be followed. -/
def act (m : Mem T) (l : Thread T) : Option (Outcome (Mem T) (Thread T) (Event T)) :=
  match l.pc with
  | .idle =>
      match l.todo with
      | [] => none
      | .add value :: todo => some { mem := m, loc := ⟨todo, .addNew value⟩ }
      | .remove value :: todo => some { mem := m, loc := ⟨todo, .findHead .remove value⟩ }
      | .contains value :: todo => some { mem := m, loc := ⟨todo, .containsHead value⟩ }
  | .addNew value =>
      some { mem := m.newNode value, loc := l.goto (.findHead (.add ⟨m.size, false⟩) value) }
  | .findHead caller value => some { mem := m, loc := l.goto (.findFirst caller value m.head) }
  | .findFirst caller value pre =>
      some { mem := m, loc := l.goto (.findTest caller value pre (m.next pre.addr)) }
  | .findTest caller value pre cur =>
      if cur = .null ∨ value ≤ m.value cur.addr then
        some { mem := m, loc := l.goto (.found caller value pre cur) }
      else some { mem := m, loc := l.goto (.findNext caller value pre cur) }
  | .findNext caller value _ cur =>
      some { mem := m, loc := l.goto (.findTest caller value cur (m.next cur.addr)) }
  | .cleanLoad caller value pre cur =>
      some { mem := m, loc := l.goto (.cleanCas caller value pre cur (m.next cur.addr)) }
  | .cleanCas caller value pre cur nextCur =>
      if m.next pre.addr = cur then
        some { mem := m.storeNext pre.addr nextCur,
               loc := l.goto (.found caller value pre nextCur) }
      else some { mem := m, loc := l.goto (.findHead caller value) }
  | .addTest value newNode pre cur =>
      if cur ≠ .null ∧ m.value cur.addr = value ∧ cur.mark = false then
        some { mem := m, loc := l.goto (.addDelete value newNode) }
      else some { mem := m, loc := l.goto (.addStore value newNode pre cur) }
  | .addDelete value newNode =>
      some { mem := m.delete newNode.addr, loc := l.goto .idle,
             events := [.returned (.add value) false] }
  | .addStore value newNode pre cur =>
      some { mem := m.storeNext newNode.addr cur, loc := l.goto (.addCas value newNode pre cur) }
  | .addCas value newNode pre cur =>
      if m.next pre.addr = cur then
        some { mem := m.storeNext pre.addr newNode, loc := l.goto .idle,
               events := [.returned (.add value) true] }
      else some { mem := m, loc := l.goto (.findHead (.add newNode) value) }
  | .removeTest value pre cur =>
      if cur = .null ∨ m.value cur.addr ≠ value then
        some { mem := m, loc := l.goto .idle, events := [.returned (.remove value) false] }
      else some { mem := m, loc := l.goto (.removeLoad value pre cur) }
  | .removeLoad value pre cur =>
      some { mem := m, loc := l.goto (.removeMark value pre cur (m.next cur.addr)) }
  | .removeMark value pre cur nextCur =>
      if m.next cur.addr = nextCur then
        some { mem := m.storeNext cur.addr nextCur.getMarked,
               loc := l.goto (.removeSwing value pre cur nextCur) }
      else some { mem := m, loc := l.goto (.findHead .remove value) }
  | .removeSwing value pre cur nextCur =>
      if m.next pre.addr = cur then
        some { mem := m.storeNext pre.addr nextCur, loc := l.goto (.removeDelete value cur) }
      else
        some { mem := m, loc := l.goto .idle, events := [.returned (.remove value) true] }
  | .removeDelete value cur =>
      some { mem := m.delete cur.addr, loc := l.goto .idle,
             events := [.returned (.remove value) true] }
  | .containsHead value => some { mem := m, loc := l.goto (.containsTest value m.head) }
  | .containsTest value cur =>
      if cur ≠ .null ∧ cur.getPointer ≠ m.tail ∧ m.value cur.addr < value then
        some { mem := m, loc := l.goto (.containsNext value cur) }
      else some { mem := m, loc := l.goto (.containsTail value cur.getPointer) }
  | .containsNext value cur =>
      some { mem := m, loc := l.goto (.containsTest value (m.next cur.addr)) }
  | .containsTail value pCur =>
      if pCur ≠ .null ∧ pCur ≠ m.tail ∧ m.value pCur.addr = value then
        some { mem := m, loc := l.goto (.containsMark value pCur) }
      else
        some { mem := m, loc := l.goto .idle, events := [.returned (.contains value) false] }
  | .containsMark value pCur =>
      some { mem := m, loc := l.goto .idle,
             events := [.returned (.contains value) !(m.next pCur.addr).mark] }

/-- One step of a thread that can follow the pointer it comes to. -/
def step (m : Mem T) (l : Thread T) : Option (Outcome (Mem T) (Thread T) (Event T)) :=
  if ∀ p ∈ l.pc.access m.tail, m.Accessible p then act m l else none

/-- `LockFreeList()`: the two sentinels. -/
def Mem.new [Inhabited T] : Mem T where
  value _ := default
  next a := if a = 1 then ⟨2, false⟩ else .null
  deleted _ := 0
  size := 3
  head := ⟨1, false⟩
  tail := ⟨2, false⟩

omit [LinearOrder T] in
theorem Mem.not_marked_new [Inhabited T] (a : ℕ) :
  ¬ (Mem.new : Mem T).Marked a
  := by
  simp only [Marked, new]
  split_ifs <;> simp [Ptr.null]

/-- The list used by the threads `ι`, each with any calls to make. -/
def list (ι : Type*) [DecidableEq ι] (T : Type*) [LinearOrder T] [Inhabited T] :
    Machine (Global ι (Mem T) (Thread T)) (ι × Unit) (ι × Event T) :=
  threads (fun m l => m = Mem.new ∧ ∀ i, (l i).pc = .idle) (fun _ m l _ => step m l)

/-! ### What a step can do -/

section Moves

variable (m : Mem T) (l : Thread T)

/-- The steps of a thread by the point of its code, one constructor for each branch. -/
inductive Moves : Pc T → Outcome (Mem T) (Thread T) (Event T) → Prop where
  | beginAdd {v : T} {todo : List (Call T)} (htodo : l.todo = .add v :: todo) :
      Moves .idle { mem := m, loc := ⟨todo, .addNew v⟩ }
  | beginRemove {v : T} {todo : List (Call T)} (htodo : l.todo = .remove v :: todo) :
      Moves .idle { mem := m, loc := ⟨todo, .findHead .remove v⟩ }
  | beginContains {v : T} {todo : List (Call T)} (htodo : l.todo = .contains v :: todo) :
      Moves .idle { mem := m, loc := ⟨todo, .containsHead v⟩ }
  | addNew {v : T} :
      Moves (.addNew v)
        { mem := m.newNode v, loc := l.goto (.findHead (.add ⟨m.size, false⟩) v) }
  | findHead {k : Caller} {v : T} :
      Moves (.findHead k v) { mem := m, loc := l.goto (.findFirst k v m.head) }
  | findFirst {k : Caller} {v : T} {pre : Ptr} :
      Moves (.findFirst k v pre)
        { mem := m, loc := l.goto (.findTest k v pre (m.next pre.addr)) }
  | findStop {k : Caller} {v : T} {pre cur : Ptr} (hstop : cur = .null ∨ v ≤ m.value cur.addr) :
      Moves (.findTest k v pre cur) { mem := m, loc := l.goto (.found k v pre cur) }
  | findOn {k : Caller} {v : T} {pre cur : Ptr} (hcur : cur ≠ .null)
      (hlt : m.value cur.addr < v) :
      Moves (.findTest k v pre cur) { mem := m, loc := l.goto (.findNext k v pre cur) }
  | findNext {k : Caller} {v : T} {pre cur : Ptr} :
      Moves (.findNext k v pre cur)
        { mem := m, loc := l.goto (.findTest k v cur (m.next cur.addr)) }
  | cleanLoad {k : Caller} {v : T} {pre cur : Ptr} :
      Moves (.cleanLoad k v pre cur)
        { mem := m, loc := l.goto (.cleanCas k v pre cur (m.next cur.addr)) }
  | cleaned {k : Caller} {v : T} {pre cur nextCur : Ptr} (hcas : m.next pre.addr = cur) :
      Moves (.cleanCas k v pre cur nextCur)
        { mem := m.storeNext pre.addr nextCur, loc := l.goto (.found k v pre nextCur) }
  | cleanFails {k : Caller} {v : T} {pre cur nextCur : Ptr} (hcas : m.next pre.addr ≠ cur) :
      Moves (.cleanCas k v pre cur nextCur) { mem := m, loc := l.goto (.findHead k v) }
  | addPresent {v : T} {newNode pre cur : Ptr} (hcur : cur ≠ .null)
      (hvalue : m.value cur.addr = v) (hmark : cur.mark = false) :
      Moves (.addTest v newNode pre cur) { mem := m, loc := l.goto (.addDelete v newNode) }
  | addAbsent {v : T} {newNode pre cur : Ptr}
      (habsent : cur ≠ .null → m.value cur.addr = v → cur.mark = true) :
      Moves (.addTest v newNode pre cur) { mem := m, loc := l.goto (.addStore v newNode pre cur) }
  | addDelete {v : T} {newNode : Ptr} :
      Moves (.addDelete v newNode)
        { mem := m.delete newNode.addr, loc := l.goto .idle,
          events := [.returned (.add v) false] }
  | addStore {v : T} {newNode pre cur : Ptr} :
      Moves (.addStore v newNode pre cur)
        { mem := m.storeNext newNode.addr cur, loc := l.goto (.addCas v newNode pre cur) }
  | added {v : T} {newNode pre cur : Ptr} (hcas : m.next pre.addr = cur) :
      Moves (.addCas v newNode pre cur)
        { mem := m.storeNext pre.addr newNode, loc := l.goto .idle,
          events := [.returned (.add v) true] }
  | addFails {v : T} {newNode pre cur : Ptr} (hcas : m.next pre.addr ≠ cur) :
      Moves (.addCas v newNode pre cur) { mem := m, loc := l.goto (.findHead (.add newNode) v) }
  | removeAbsent {v : T} {pre cur : Ptr} (habsent : cur = .null ∨ m.value cur.addr ≠ v) :
      Moves (.removeTest v pre cur)
        { mem := m, loc := l.goto .idle, events := [.returned (.remove v) false] }
  | removePresent {v : T} {pre cur : Ptr} (hcur : cur ≠ .null) (hvalue : m.value cur.addr = v) :
      Moves (.removeTest v pre cur) { mem := m, loc := l.goto (.removeLoad v pre cur) }
  | removeLoad {v : T} {pre cur : Ptr} :
      Moves (.removeLoad v pre cur)
        { mem := m, loc := l.goto (.removeMark v pre cur (m.next cur.addr)) }
  | marked {v : T} {pre cur nextCur : Ptr} (hcas : m.next cur.addr = nextCur) :
      Moves (.removeMark v pre cur nextCur)
        { mem := m.storeNext cur.addr nextCur.getMarked,
          loc := l.goto (.removeSwing v pre cur nextCur) }
  | markFails {v : T} {pre cur nextCur : Ptr} (hcas : m.next cur.addr ≠ nextCur) :
      Moves (.removeMark v pre cur nextCur) { mem := m, loc := l.goto (.findHead .remove v) }
  | swung {v : T} {pre cur nextCur : Ptr} (hcas : m.next pre.addr = cur) :
      Moves (.removeSwing v pre cur nextCur)
        { mem := m.storeNext pre.addr nextCur, loc := l.goto (.removeDelete v cur) }
  | swingFails {v : T} {pre cur nextCur : Ptr} (hcas : m.next pre.addr ≠ cur) :
      Moves (.removeSwing v pre cur nextCur)
        { mem := m, loc := l.goto .idle, events := [.returned (.remove v) true] }
  | removeDelete {v : T} {cur : Ptr} :
      Moves (.removeDelete v cur)
        { mem := m.delete cur.addr, loc := l.goto .idle, events := [.returned (.remove v) true] }
  | containsHead {v : T} :
      Moves (.containsHead v) { mem := m, loc := l.goto (.containsTest v m.head) }
  | containsOn {v : T} {cur : Ptr} (hcur : cur ≠ .null) (htail : cur.getPointer ≠ m.tail)
      (hlt : m.value cur.addr < v) :
      Moves (.containsTest v cur) { mem := m, loc := l.goto (.containsNext v cur) }
  | containsStop {v : T} {cur : Ptr}
      (hstop : cur = .null ∨ cur.getPointer = m.tail ∨ v ≤ m.value cur.addr) :
      Moves (.containsTest v cur) { mem := m, loc := l.goto (.containsTail v cur.getPointer) }
  | containsNext {v : T} {cur : Ptr} :
      Moves (.containsNext v cur)
        { mem := m, loc := l.goto (.containsTest v (m.next cur.addr)) }
  | containsPresent {v : T} {pCur : Ptr} (hcur : pCur ≠ .null) (htail : pCur ≠ m.tail)
      (hvalue : m.value pCur.addr = v) :
      Moves (.containsTail v pCur) { mem := m, loc := l.goto (.containsMark v pCur) }
  | containsAbsent {v : T} {pCur : Ptr}
      (habsent : pCur = .null ∨ pCur = m.tail ∨ m.value pCur.addr ≠ v) :
      Moves (.containsTail v pCur)
        { mem := m, loc := l.goto .idle, events := [.returned (.contains v) false] }
  | containsMark {v : T} {pCur : Ptr} :
      Moves (.containsMark v pCur)
        { mem := m, loc := l.goto .idle,
          events := [.returned (.contains v) !(m.next pCur.addr).mark] }

end Moves

theorem act_moves {m : Mem T} {l : Thread T} {o : Outcome (Mem T) (Thread T) (Event T)}
    (h : act m l = some o) :
  Moves m l l.pc o
  := by
  cases hpc : l.pc with
  | idle =>
      rcases htodo : l.todo with _ | ⟨_ | _ | _, todo⟩ <;>
        simp only [act, hpc, htodo, Option.some.injEq, reduceCtorEq] at h <;> subst h
      · apply Moves.beginAdd htodo
      · apply Moves.beginRemove htodo
      · apply Moves.beginContains htodo
  | findTest k v pre cur =>
      simp only [act, hpc] at h
      split_ifs at h with hstop <;> cases h
      · apply Moves.findStop hstop
      · rw [not_or, not_le] at hstop
        apply Moves.findOn hstop.1 hstop.2
  | cleanCas k v pre cur nextCur =>
      simp only [act, hpc] at h
      split_ifs at h with hcas <;> cases h
      · apply Moves.cleaned hcas
      · apply Moves.cleanFails hcas
  | addTest v newNode pre cur =>
      simp only [act, hpc] at h
      split_ifs at h with hpresent <;> cases h
      · apply Moves.addPresent hpresent.1 hpresent.2.1 hpresent.2.2
      · apply Moves.addAbsent
        intro hcur hvalue
        simpa [hcur, hvalue] using hpresent
  | addCas v newNode pre cur =>
      simp only [act, hpc] at h
      split_ifs at h with hcas <;> cases h
      · apply Moves.added hcas
      · apply Moves.addFails hcas
  | removeTest v pre cur =>
      simp only [act, hpc] at h
      split_ifs at h with habsent <;> cases h
      · apply Moves.removeAbsent habsent
      · rw [not_or, not_not] at habsent
        apply Moves.removePresent habsent.1 habsent.2
  | removeMark v pre cur nextCur =>
      simp only [act, hpc] at h
      split_ifs at h with hcas <;> cases h
      · apply Moves.marked hcas
      · apply Moves.markFails hcas
  | removeSwing v pre cur nextCur =>
      simp only [act, hpc] at h
      split_ifs at h with hcas <;> cases h
      · apply Moves.swung hcas
      · apply Moves.swingFails hcas
  | containsTest v cur =>
      simp only [act, hpc] at h
      split_ifs at h with hon <;> cases h
      · apply Moves.containsOn hon.1 hon.2.1 hon.2.2
      · apply Moves.containsStop
        rw [not_and_or, not_and_or, not_not, not_not, not_lt] at hon
        apply hon
  | containsTail v pCur =>
      simp only [act, hpc] at h
      split_ifs at h with hpresent <;> cases h
      · apply Moves.containsPresent hpresent.1 hpresent.2.1 hpresent.2.2
      · apply Moves.containsAbsent
        rw [not_and_or, not_and_or, not_not, not_not] at hpresent
        apply hpresent
  | addNew | findHead | findFirst | findNext | cleanLoad | addDelete | addStore | removeLoad
  | removeDelete | containsHead | containsNext | containsMark =>
      simp only [act, hpc, Option.some.injEq] at h
      subst h
      constructor

/-- A step follows pointers that can be followed. -/
theorem step_moves {m : Mem T} {l : Thread T} {o : Outcome (Mem T) (Thread T) (Event T)}
    (h : step m l = some o) :
  (∀ p ∈ l.pc.access m.tail, m.Accessible p) ∧ Moves m l l.pc o
  := by
  simp only [step, Option.ite_none_right_eq_some] at h
  use h.1
  apply act_moves h.2

theorem not_accessesMarked_of_step {m : Mem T} {l : Thread T}
    {o : Outcome (Mem T) (Thread T) (Event T)} (h : step m l = some o) :
  ¬ l.pc.AccessesMarked m.tail
  := by
  intro hmarked
  obtain ⟨haccess, -⟩ := step_moves h
  obtain ⟨p, hp, hmark⟩ := (Option.any_eq_true ..).mp hmarked
  rw [(haccess p hp).1] at hmark
  cases hmark

end LockFreeList
