/-! # Errors

Every failure of the library is a `Fault`, a cause with the data that explains it. A fault has a
numeric code, shared by causes of one family, and a message; a document that cannot be read has
no message of its own, since the wording of such a failure is not part of any format.

A status is a code with a message, as the library reports it: `"OK"` for code 0, otherwise the
name of the code and, when there is one, a colon and the message.
-/

namespace DriverSynth

/-- The families of failure, each with a numeric code. -/
inductive ErrorCode where
  | ok
  | duplicateFunction
  | invalidSignature
  | ioError
  | parseError
  | invalidConfig
  | configMismatch
deriving Repr, DecidableEq

namespace ErrorCode

/-- Every code, in numeric order. -/
def all : List ErrorCode :=
  [.ok, .duplicateFunction, .invalidSignature, .ioError, .parseError, .invalidConfig,
    .configMismatch]

/-- The number of a code. -/
def number : ErrorCode → Nat
  | .ok => 0
  | .duplicateFunction => 100
  | .invalidSignature => 102
  | .ioError => 300
  | .parseError => 301
  | .invalidConfig => 400
  | .configMismatch => 401

/-- The name of a code. -/
def name : ErrorCode → String
  | .ok => "OK"
  | .duplicateFunction => "DuplicateFunction"
  | .invalidSignature => "InvalidSignature"
  | .ioError => "IoError"
  | .parseError => "ParseError"
  | .invalidConfig => "InvalidConfig"
  | .configMismatch => "ConfigMismatch"

/-- The code of a number, if it is one. -/
def ofNumber? (n : Nat) : Option ErrorCode := all.find? (·.number == n)

/-- The name of a number: the name of its code, `"UnknownError"` for any other number. -/
def nameOfNumber (n : Nat) : String :=
  match ofNumber? n with
  | some code => code.name
  | none => "UnknownError"

end ErrorCode

/-- The text of a status given by code number and message. -/
def statusText (code : Nat) (message : String) : String :=
  if code = 0 then "OK"
  else if message.isEmpty then ErrorCode.nameOfNumber code
  else ErrorCode.nameOfNumber code ++ ": " ++ message

/-- The deepest nesting of types that a type document may have. -/
def maxTypeDepth : Nat := 64

/-- Why an operation of the library failed. -/
inductive Fault where
  /-- A catalog already has a function of this name. -/
  | duplicateFunction (name : String)
  /-- A function without a name was offered to a catalog. -/
  | emptyFunctionName
  /-- A file could not be opened. -/
  | cannotOpen (path : String)
  /-- Writing to an open file failed. -/
  | writeFailed (path : String)
  /-- A text is no JSON document, or a document lacks the shape a reader asked for. -/
  | unreadable
  /-- A type document nests deeper than `maxTypeDepth`. -/
  | typeTooDeep
  /-- A type document names a kind of type that does not exist. -/
  | unknownTypeKind (kind : String)
  /-- A function document names a visibility that does not exist. -/
  | unknownVisibility (name : String)
  /-- A function document names a kind of function that does not exist. -/
  | unknownFunctionKind (name : String)
  /-- A budget of a tuning table is negative or has a fraction. -/
  | negativeBudget (field : String)
  /-- A seed chain has a frequency below one; `index` counts the chains accepted before it. -/
  | nonPositiveFrequency (index : Nat) (frequency : Int)
  /-- No seed chain names only functions of the catalog. -/
  | seedsOutsideCatalog (count : Nat)
deriving Repr, DecidableEq

namespace Fault

/-- The family of a fault. -/
def code : Fault → ErrorCode
  | .duplicateFunction _ => .duplicateFunction
  | .emptyFunctionName => .invalidSignature
  | .cannotOpen _ | .writeFailed _ => .ioError
  | .unreadable | .typeTooDeep | .unknownTypeKind _ | .unknownVisibility _
  | .unknownFunctionKind _ => .parseError
  | .negativeBudget _ | .nonPositiveFrequency _ _ => .invalidConfig
  | .seedsOutsideCatalog _ => .configMismatch

/-- The message of a fault, where the library words one. -/
def message? : Fault → Option String
  | .duplicateFunction name => some s!"duplicate function '{name}'"
  | .emptyFunctionName => some "function name is empty"
  | .cannotOpen path => some s!"cannot open '{path}'"
  | .writeFailed path => some s!"write to '{path}' failed"
  | .unreadable => none
  | .typeTooDeep => some s!"type nesting deeper than {maxTypeDepth} levels"
  | .unknownTypeKind kind => some s!"unknown type kind '{kind}'"
  | .unknownVisibility name => some s!"unknown visibility '{name}'"
  | .unknownFunctionKind name => some s!"unknown function kind '{name}'"
  | .negativeBudget field => some s!"'{field}' must be a non-negative integer"
  | .nonPositiveFrequency index frequency =>
    some s!"seed chain {index} has non-positive frequency {frequency}"
  | .seedsOutsideCatalog count =>
    some s!"all {count} seed chains name functions outside the catalog"

end Fault

end DriverSynth
