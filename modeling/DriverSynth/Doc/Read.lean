import DriverSynth.Doc.Basic
import DriverSynth.Doc.Write

/-! # Reading documents

The reader accepts exactly the JSON texts of RFC 8259, after at most one byte-order mark: blanks
are space, tab, newline and carriage return, and a `\u` escape of a surrogate half must be a high
half directly followed by a low one. An integer that fits 64 bits is a `nat` or an `int`, any other
number a `float`, and one too large for a double is refused. Of two members of one key, the later
stays. With the two writers, the reader is the JSON text library the tools run with
(`JsonCodec.standard`).
-/

namespace DriverSynth

namespace Doc

/-- Drops the blanks at the front. -/
def skipBlank : List Char → List Char
  | c :: rest => if c = ' ' ∨ c = '\t' ∨ c = '\n' ∨ c = '\r' then skipBlank rest else c :: rest
  | [] => []

/-- The value of a hex digit. -/
def hexValue? (c : Char) : Option Nat :=
  if '0' ≤ c ∧ c ≤ '9' then some (c.toNat - 48)
  else if 'a' ≤ c ∧ c ≤ 'f' then some (c.toNat - 87)
  else if 'A' ≤ c ∧ c ≤ 'F' then some (c.toNat - 55)
  else none

/-- The value of four hex digits. -/
def hex4? (a b c d : Char) : Option Nat := do
  let a ← hexValue? a
  let b ← hexValue? b
  let c ← hexValue? c
  let d ← hexValue? d
  pure (((a * 16 + b) * 16 + c) * 16 + d)

/-- The character of a short escape, written after the backslash. -/
def shortEscape? : Char → Option Char
  | '"' => some '"'
  | '\\' => some '\\'
  | '/' => some '/'
  | 'b' => some '\x08'
  | 'f' => some '\x0c'
  | 'n' => some '\n'
  | 'r' => some '\r'
  | 't' => some '\t'
  | _ => none

/-- Reads the body of a string after its opening quote, up to and past the closing quote. -/
def readString (acc : String) : List Char → Option (String × List Char)
  | [] => none
  | '"' :: rest => some (acc, rest)
  | '\\' :: 'u' :: a :: b :: c :: d :: rest =>
    match hex4? a b c d with
    | none => none
    | some u =>
      if 0xD800 ≤ u ∧ u < 0xDC00 then
        match rest with
        | '\\' :: 'u' :: a' :: b' :: c' :: d' :: rest' =>
          match hex4? a' b' c' d' with
          | some v =>
            if 0xDC00 ≤ v ∧ v < 0xE000 then
              readString (acc.push (Char.ofNat (0x10000 + (u - 0xD800) * 0x400 + (v - 0xDC00)))) rest'
            else none
          | none => none
        | _ => none
      else if 0xDC00 ≤ u ∧ u < 0xE000 then none
      else readString (acc.push (Char.ofNat u)) rest
  | '\\' :: e :: rest =>
    match shortEscape? e with
    | some c => readString (acc.push c) rest
    | none => none
  | c :: rest => if c.toNat < 0x20 then none else readString (acc.push c) rest

/-- The number that a string of decimal digits spells. -/
def digitsValue (digits : List Char) : Nat :=
  digits.foldl (fun n c => n * 10 + (c.toNat - 48)) 0

/-- The double nearest to `mantissa · 10^exponent`, or nothing when it is beyond the doubles. -/
def scaledFloat? (mantissa : Nat) (exponent : Int) : Option Float :=
  if mantissa = 0 then some 0.0
  else
    let magnitude := exponent + (toString mantissa).length
    if 310 < magnitude then none
    else if magnitude < -330 then some 0.0
    else
      let x := if 0 ≤ exponent then Float.ofScientific mantissa false exponent.toNat
        else Float.ofScientific mantissa true (-exponent).toNat
      if x.isInf then none else some x

/-- Reads a number: an optional minus, an integer part, an optional fraction and exponent. -/
def readNumber (cs : List Char) : Option (Doc × List Char) :=
  let (negative, cs) := match cs with
    | '-' :: rest => (true, rest)
    | _ => (false, cs)
  let whole := cs.takeWhile Char.isDigit
  let rest := cs.dropWhile Char.isDigit
  if whole.isEmpty ∨ (whole.head? = some '0' ∧ 1 < whole.length) then
    -- a leading zero ends the integer part
    match cs with
    | '0' :: _ => finish negative ['0'] cs.tail
    | _ => none
  else finish negative whole rest
where
  /-- Reads fraction and exponent after the integer part `whole`. -/
  finish (negative : Bool) (whole : List Char) (rest : List Char) : Option (Doc × List Char) :=
    let (fraction, rest, hasFraction) := match rest with
      | '.' :: more => (more.takeWhile Char.isDigit, more.dropWhile Char.isDigit, true)
      | _ => ([], rest, false)
    if hasFraction ∧ fraction.isEmpty then none
    else
      let (exponent, rest, hasExponent) : Option Int × List Char × Bool := match rest with
        | c :: more =>
          if c = 'e' ∨ c = 'E' then
            let (sign, more) := match more with
              | '-' :: m => (-1, m)
              | '+' :: m => (1, m)
              | m => ((1 : Int), m)
            let digits := more.takeWhile Char.isDigit
            if digits.isEmpty then (none, more, true)
            else (some (sign * (digitsValue digits : Int)), more.dropWhile Char.isDigit, true)
          else (some 0, rest, false)
        | [] => (some 0, rest, false)
      match exponent with
      | none => none
      | some exponent =>
        if ¬ hasFraction ∧ ¬ hasExponent then
          let n := digitsValue whole
          if negative then
            if n ≤ Nat.pow 2 63 then some (.int (-(n : Int)), rest)
            else (scaledFloat? n 0).map fun x => (.float (-x), rest)
          else if n < Nat.pow 2 64 then some (.nat n, rest)
          else (scaledFloat? n 0).map fun x => (.float x, rest)
        else
          let mantissa := digitsValue (whole ++ fraction)
          (scaledFloat? mantissa (exponent - fraction.length)).map fun x =>
            (.float (if negative then -x else x), rest)

mutual

/-- Reads one value after optional blanks; `fuel` bounds the work and is never the limit when it
exceeds the length of the text. -/
def readValue : Nat → List Char → Option (Doc × List Char)
  | 0, _ => none
  | fuel + 1, cs =>
    match skipBlank cs with
    | '{' :: rest =>
      match skipBlank rest with
      | '}' :: rest => some (.obj [], rest)
      | rest => readFields fuel [] rest
    | '[' :: rest =>
      match skipBlank rest with
      | ']' :: rest => some (.arr [], rest)
      | rest => readItems fuel [] rest
    | '"' :: rest => (readString "" rest).map fun (s, rest) => (.str s, rest)
    | 't' :: 'r' :: 'u' :: 'e' :: rest => some (.bool true, rest)
    | 'f' :: 'a' :: 'l' :: 's' :: 'e' :: rest => some (.bool false, rest)
    | 'n' :: 'u' :: 'l' :: 'l' :: rest => some (.null, rest)
    | cs => readNumber cs

/-- Reads array items from the first one on, and the closing bracket. -/
def readItems : Nat → List Doc → List Char → Option (Doc × List Char)
  | 0, _, _ => none
  | fuel + 1, acc, cs =>
    match readValue fuel cs with
    | none => none
    | some (d, rest) =>
      match skipBlank rest with
      | ',' :: rest => readItems fuel (d :: acc) rest
      | ']' :: rest => some (.arr (d :: acc).reverse, rest)
      | _ => none

/-- Reads object members from the first one on, and the closing brace. -/
def readFields : Nat → List (String × Doc) → List Char → Option (Doc × List Char)
  | 0, _, _ => none
  | fuel + 1, acc, cs =>
    match skipBlank cs with
    | '"' :: rest =>
      match readString "" rest with
      | none => none
      | some (key, rest) =>
        match skipBlank rest with
        | ':' :: rest =>
          match readValue fuel rest with
          | none => none
          | some (d, rest) =>
            match skipBlank rest with
            | ',' :: rest => readFields fuel (insertField key d acc) rest
            | '}' :: rest => some (.obj (insertField key d acc), rest)
            | _ => none
        | _ => none
    | _ => none

end

/-- Reads a whole text as one document. -/
def read? (text : String) : Option Doc :=
  let cs := match text.toList with
    | '\uFEFF' :: rest => rest
    | cs => cs
  match readValue (cs.length + 1) cs with
  | some (d, rest) => if skipBlank rest = [] then some d else none
  | none => none

end Doc

/-- This reader and the two writers as a JSON text library. -/
def JsonCodec.standard : JsonCodec where
  parse := Doc.read?
  dump
    | some width, d => d.indented width
    | none, d => d.compact

end DriverSynth
