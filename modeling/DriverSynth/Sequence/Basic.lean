import DriverSynth.Link
import DriverSynth.Fuzz

/-! # Call sequences

A sequence is a list of calls, each binding its parameters either to a slot decoded from the
fuzz input or to the result of an earlier call. Beside the calls it keeps the fuzz slots, the
graph edges it uses, the traits of its functions, whether it needs `unsafe`, and for every call
how its result has been used so far (`Usage`).

Each call carries a stamp, the identity of the step that appended it. Two sequences share a
prefix of some length exactly when their calls at the end of that prefix carry the same stamp at
the same position: a sequence derived from another by appending keeps the other's calls, and
with them their stamps.
-/

namespace DriverSynth

/-- Where a parameter's value comes from. -/
inductive Source where
  /-- A slot of the fuzz input. -/
  | slot (index : Nat) (mode : Access)
  /-- The result of an earlier call, passed along a graph edge. -/
  | result (call : Nat) (mode : Access) (edge : Option Nat)
deriving Repr, DecidableEq, Inhabited

/-- One call of a sequence. -/
structure Call where
  fn : Nat
  args : List Source
  producesValue : Bool
  stamp : Nat
deriving Repr, DecidableEq, Inhabited

/-- The last way a call's result was used. -/
inductive Hold where
  | unused
  | moved
  | exclusive
  | shared
deriving Repr, DecidableEq, Inhabited

namespace Hold

/-- Every hold, in numeric order. -/
def all : List Hold := [.unused, .moved, .exclusive, .shared]

/-- The number of a hold. -/
def number : Hold → Nat
  | .unused => 0
  | .moved => 1
  | .exclusive => 2
  | .shared => 3

/-- The name of a hold. -/
def name : Hold → String
  | .unused => "unused"
  | .moved => "moved"
  | .exclusive => "exclusively_borrowed"
  | .shared => "shared_borrowed"

/-- The name of a hold number; `"unknown"` for a number of none. -/
def nameOfNumber (n : Nat) : String :=
  match all.find? (·.number == n) with
  | some h => h.name
  | none => "unknown"

end Hold

/-- How a call's result has been used: the last kind of use, the shared borrows and all uses so
far, and whether it was ever borrowed exclusively. -/
structure Usage where
  hold : Hold := .unused
  sharedCount : Nat := 0
  useCount : Nat := 0
  needsMut : Bool := false
deriving Repr, DecidableEq, Inhabited

/-- Records one more use of a result in the given mode; a copy leaves its hold alone. -/
def Usage.use (u : Usage) (mode : Access) : Usage :=
  let u := { u with useCount := u.useCount + 1 }
  match mode with
  | .move => { u with hold := .moved }
  | .shared => { u with hold := .shared, sharedCount := u.sharedCount + 1 }
  | .exclusive => { u with hold := .exclusive, needsMut := true }
  | _ => u

/-- A parameter decoded from the fuzz input. -/
structure Slot where
  ty : Ty
  kind : FuzzKind
  minBytes : UInt64
  mutable : Bool
deriving Repr, Inhabited

/-- A call sequence with its slots, used edges, traits and usage of results. -/
structure Sequence where
  calls : Array Call := #[]
  slots : Array Slot := #[]
  edges : List Nat := []
  usage : Array Usage := #[]
  traits : List String := []
  isUnsafe : Bool := false
deriving Repr, Inhabited

/-- Inserts into a sorted list without repeats. -/
def insertOrdered {α : Type} [LT α] [DecidableRel (α := α) (· < ·)] [DecidableEq α]
    (x : α) : List α → List α
  | [] => [x]
  | y :: rest => if x < y then x :: y :: rest else if x = y then y :: rest
    else y :: insertOrdered x rest

namespace Sequence

/-- The number of calls. -/
def size (s : Sequence) : Nat := s.calls.size

/-- The function of the last call. -/
def lastFn? (s : Sequence) : Option Nat := s.calls.back?.map (·.fn)

/-- The functions called, ascending, each once. -/
def covered (s : Sequence) : List Nat :=
  s.calls.foldl (fun acc c => insertOrdered c.fn acc) []

/-- Whether a function is called. -/
def containsFn (s : Sequence) (fn : Nat) : Bool := s.calls.any (·.fn == fn)

/-- Whether the first `len` calls of two sequences are the same calls. -/
def sharesPrefix (a b : Sequence) (len : Nat) : Bool :=
  len == 0 ||
    (len ≤ a.size && len ≤ b.size &&
      ((a.calls.getD (len - 1) default).stamp == (b.calls.getD (len - 1) default).stamp))

/-- The number of slots of variable length. -/
def varCount (s : Sequence) : Nat := s.slots.toList.countP (·.kind == .variable)

/-- For each call, whether it makes a value that nothing uses. -/
def deadCalls (s : Sequence) : List Bool :=
  (List.range s.size).map fun i =>
    (s.calls.getD i default).producesValue && (s.usage.getD i default).useCount == 0

/-- Whether a call before the last one makes a value that nothing uses. -/
def isDead (s : Sequence) : Bool := 1 < s.size && (s.deadCalls.dropLast.any id)

/-- Whether a sequence is worth handing to a fuzzer: it reads fuzz input, and every value made
before its last call is used. -/
def isValidDriver (s : Sequence) : Bool := !s.slots.isEmpty && !s.isDead

/-- Whether the result of a call is moved away. -/
def isMoved (s : Sequence) (i : Nat) : Bool := (s.usage.getD i default).hold == .moved

/-- Adds a slot; its index is the old number of slots. -/
def addSlot (s : Sequence) (slot : Slot) : Sequence := { s with slots := s.slots.push slot }

/-- Records a use of the result of call `i`. -/
def use (s : Sequence) (i : Nat) (mode : Access) : Sequence :=
  { s with usage := s.usage.modify i (·.use mode) }

/-- Records that an edge is used. -/
def coverEdge (s : Sequence) (edge : Nat) : Sequence := { s with edges := insertOrdered edge s.edges }

/-- Records that the sequence needs `unsafe`. -/
def markUnsafe (s : Sequence) : Sequence := { s with isUnsafe := true }

/-- Records a trait that a function of the sequence implements. -/
def addTrait (s : Sequence) (t : String) : Sequence := { s with traits := insertOrdered t s.traits }

/-- Appends a call, whose result is not used yet. -/
def append (s : Sequence) (call : Call) : Sequence :=
  { s with calls := s.calls.push call, usage := s.usage.push {} }

/-- Appends `part` to `s`: its slots after those of `s`, its calls after those of `s` with their
indices moved along and the given stamp, its usage, edges, traits and `unsafe` mark. -/
def appendPart (stamp : Nat) (s part : Sequence) : Sequence :=
  let callOffset := s.size
  let slotOffset := s.slots.size
  let shift : Source → Source
    | .slot i m => .slot (i + slotOffset) m
    | .result i m e => .result (i + callOffset) m e
  let moved := part.calls.map fun c => { c with args := c.args.map shift, stamp := stamp }
  let s : Sequence :=
    { s with
      slots := s.slots ++ part.slots
      calls := s.calls ++ moved
      usage := s.usage ++ part.usage }
  let s := part.edges.foldl coverEdge s
  let s := part.traits.foldl addTrait s
  if part.isUnsafe then s.markUnsafe else s

/-- The sequence of several in order: the first keeps its calls, the others follow it. -/
def merge (stamp : Nat) : List Sequence → Sequence
  | [] => {}
  | first :: rest => rest.foldl (appendPart stamp) first

end Sequence

end DriverSynth
