import DriverSynth.Doc.Basic
import DriverSynth.Decimal.Shortest

/-! # Writing documents

Two layouts: `compact`, with no blank at all, and `indented`, which puts each member of a
non-empty array or object on its own line, indented by a fixed width per level, with `": "`
between key and value; an empty array or object stays `[]` or `{}`.

Strings are quoted with the short escapes for quote, backslash, backspace, form feed, newline,
carriage return and tab; any other character below `0x20` is written `\u00xx` in lower-case hex,
and every other character as it is. Numbers with a fraction use the shortest positional text.
-/

namespace DriverSynth

namespace Doc

/-- The hex digit of a value below sixteen, in lower case. -/
def hexDigit (n : Nat) : Char :=
  if n < 10 then Char.ofNat (48 + n) else Char.ofNat (87 + n)

/-- Appends one character of a string's body, escaped as the format asks. -/
def escapeChar (out : String) (c : Char) : String :=
  match c with
  | '"' => out ++ "\\\""
  | '\\' => out ++ "\\\\"
  | '\x08' => out ++ "\\b"
  | '\x0c' => out ++ "\\f"
  | '\n' => out ++ "\\n"
  | '\r' => out ++ "\\r"
  | '\t' => out ++ "\\t"
  | c =>
    if c.toNat < 0x20 then
      ((out ++ "\\u00").push (hexDigit (c.toNat / 16))).push (hexDigit (c.toNat % 16))
    else out.push c

/-- Appends a quoted string. -/
def writeString (out : String) (s : String) : String :=
  (s.foldl escapeChar (out.push '"')).push '"'

/-- The text of a number without a fraction or of one with. -/
def numberText : Doc → String
  | .nat n => toString n
  | .int i => toString i
  | .float x => Decimal.shortest x
  | _ => ""

mutual

/-- Appends the compact text of a document. -/
def writeCompact (out : String) : Doc → String
  | .null => out ++ "null"
  | .bool b => out ++ (if b then "true" else "false")
  | .nat n => out ++ numberText (.nat n)
  | .int i => out ++ numberText (.int i)
  | .float x => out ++ numberText (.float x)
  | .str s => writeString out s
  | .arr items => (writeCompactItems (out.push '[') true items).push ']'
  | .obj fields => (writeCompactFields (out.push '{') true fields).push '}'

/-- Appends array items, comma-separated. -/
def writeCompactItems (out : String) (first : Bool) : List Doc → String
  | [] => out
  | d :: rest =>
    writeCompactItems (writeCompact (if first then out else out.push ',') d) false rest

/-- Appends object members, comma-separated. -/
def writeCompactFields (out : String) (first : Bool) : List (String × Doc) → String
  | [] => out
  | (k, v) :: rest =>
    let out := writeString (if first then out else out.push ',') k
    writeCompactFields (writeCompact (out.push ':') v) false rest

end

/-- The compact text of a document. -/
def compact (d : Doc) : String := writeCompact "" d

/-- Appends `count` blanks. -/
def pad (out : String) (count : Nat) : String :=
  (List.replicate count ' ').foldl String.push out

mutual

/-- Appends the indented text of a document that stands at `depth` levels of nesting. -/
def writeIndented (width depth : Nat) (out : String) : Doc → String
  | .arr [] => out ++ "[]"
  | .obj [] => out ++ "\x7b\x7d"
  | .arr items =>
    let out := writeIndentedItems width depth (out ++ "[\n") true items
    (pad (out.push '\n') (width * depth)).push ']'
  | .obj fields =>
    let out := writeIndentedFields width depth (out ++ "\x7b\n") true fields
    (pad (out.push '\n') (width * depth)).push '}'
  | d => writeCompact out d

/-- Appends array items of an array at `depth`, one a line. -/
def writeIndentedItems (width depth : Nat) (out : String) (first : Bool) : List Doc → String
  | [] => out
  | d :: rest =>
    let out := pad (if first then out else out ++ ",\n") (width * (depth + 1))
    writeIndentedItems width depth (writeIndented width (depth + 1) out d) false rest

/-- Appends object members of an object at `depth`, one a line. -/
def writeIndentedFields (width depth : Nat) (out : String) (first : Bool) :
    List (String × Doc) → String
  | [] => out
  | (k, v) :: rest =>
    let out := pad (if first then out else out ++ ",\n") (width * (depth + 1))
    let out := writeString out k ++ ": "
    writeIndentedFields width depth (writeIndented width (depth + 1) out v) false rest

end

/-- The indented text of a document, `width` blanks a level. -/
def indented (width : Nat) (d : Doc) : String := writeIndented width 0 "" d

end Doc

end DriverSynth
