/-! # JSON documents

A document is a JSON value as the interchange formats of this library read and write it. A number
keeps the kind its text gave it: an integer without a sign below `2^64` is a `nat`, a negative
integer from `-2^63` on is an `int`, and every other number is a `float`. The members of an
object are kept sorted by key with each key once, so an object written from a document lists its
keys in order.

The formats read and write texts through a JSON text library, which every one of them takes as a
parameter (`JsonCodec`). What they need of it is that parsing a written document gives it back
(`JsonCodec.ReadsBack`), for the documents they write (`Doc.Canonical`).
-/

namespace DriverSynth

/-- A JSON value. -/
inductive Doc where
  | null
  | bool (value : Bool)
  | nat (value : Nat)
  | int (value : Int)
  | float (value : Float)
  | str (value : String)
  | arr (items : List Doc)
  | obj (fields : List (String × Doc))
deriving Inhabited

namespace Doc

/-- Puts a member into members sorted by key; a member of the same key gives way to it. -/
def insertField (key : String) (value : Doc) : List (String × Doc) → List (String × Doc)
  | [] => [(key, value)]
  | (k, v) :: rest =>
    if key < k then (key, value) :: (k, v) :: rest
    else if key = k then (key, value) :: rest
    else (k, v) :: insertField key value rest

/-- The object of the given members, sorted by key; of two members of one key the later stays. -/
def record (fields : List (String × Doc)) : Doc :=
  .obj (fields.foldl (fun acc field => insertField field.1 field.2 acc) [])

/-- A list of texts as an array of strings. -/
def strs (items : List String) : Doc := .arr (items.map .str)

/-- A list of counts as an array of numbers. -/
def nats (items : List Nat) : Doc := .arr (items.map .nat)

/-- An optional document, `null` when absent. -/
def opt : Option Doc → Doc
  | some d => d
  | none => .null

/-- The documents that the formats write: counts below `2^64` and no other numbers, and objects
with keys strictly ascending. -/
inductive Canonical : Doc → Prop
  | null : Canonical .null
  | bool (b : Bool) : Canonical (.bool b)
  | nat {n : Nat} (small : n < Nat.pow 2 64) : Canonical (.nat n)
  | str (s : String) : Canonical (.str s)
  | arr {items : List Doc} (each : ∀ d ∈ items, Canonical d) : Canonical (.arr items)
  | obj {fields : List (String × Doc)} (sorted : fields.Pairwise (·.1 < ·.1))
      (each : ∀ f ∈ fields, Canonical f.2) : Canonical (.obj fields)

end Doc

/-- A JSON text library: a parser, which fails on a text that is no JSON, and a writer, compact
without a width and indented by the width otherwise. -/
structure JsonCodec where
  parse : String → Option Doc
  dump : Option Nat → Doc → String

/-- Parsing what the library writes with a width gives back every canonical document. -/
def JsonCodec.ReadsBack (json : JsonCodec) (width : Option Nat) : Prop :=
  ∀ d : Doc, d.Canonical → json.parse (json.dump width d) = some d

end DriverSynth
