/-! # Shortest decimal text of a double

A finite double is `m · 2^q`. The reals that round to it form an interval around it, whose ends
belong to it when `m` is even. Its shortest text is a decimal inside that interval with as few
significant digits as possible; when two decimals of that length lie inside, the nearer one is
taken, and of two equally near the one with an even last digit.

The text is positional: never an exponent, no trailing zero after the point, and no point at all
for an integral value, so `1.0` is written `1` and `0.1 + 0.2` is written `0.30000000000000004`.
-/

namespace DriverSynth.Decimal

/-- A finite double taken apart: sign, integral significand and binary exponent. -/
structure Binary where
  negative : Bool
  significand : Nat
  exponent : Int
  /-- The next smaller double is nearer than the next larger one. -/
  narrowBelow : Bool

/-- The parts of a double, read off its bits. -/
def Binary.ofFloat (x : Float) : Binary :=
  let bits : Nat := x.toBits.toNat
  let fraction : Nat := bits % Nat.pow 2 52
  let biased : Nat := bits / Nat.pow 2 52 % Nat.pow 2 11
  let negative := decide (bits / Nat.pow 2 63 = 1)
  if biased = 0 then ⟨negative, fraction, -1074, false⟩
  else
    ⟨negative, fraction + Nat.pow 2 52, Int.ofNat biased - 1075,
      decide (fraction = 0 ∧ 1 < biased)⟩

/-- Compares `a · 10^e` with `b · 2^f`, exactly. -/
def compareScaled (a : Nat) (e : Int) (b : Nat) (f : Int) : Ordering :=
  compare (a * Nat.pow 10 e.toNat * Nat.pow 2 (-f).toNat)
    (b * Nat.pow 2 f.toNat * Nat.pow 10 (-e).toNat)

/-- The number of decimal digits of a positive number. -/
def digitCount (n : Nat) : Nat := (toString n).length

/-- The exponent `E` with `10^E ≤ num / den < 10^(E+1)`, for a positive fraction. -/
def decimalExponent (num den : Nat) : Int :=
  if den ≤ num then (digitCount (num / den) : Int) - 1
  else
    match (List.range 400).find? (fun k => den ≤ num * Nat.pow 10 (k + 1)) with
    | some k => -((k : Int) + 1)
    | none => -400

/-- Whether `k · 10^e` lies in the interval of reals that round to the double. -/
def Binary.admits (b : Binary) (k : Nat) (e : Int) : Bool :=
  let unit := b.exponent - 2
  let low := 4 * b.significand - (if b.narrowBelow then 1 else 2)
  let high := 4 * b.significand + 2
  let inclusive := b.significand % 2 == 0
  let aboveLow := match compareScaled k e low unit with
    | .gt => true
    | .eq => inclusive
    | .lt => false
  let belowHigh := match compareScaled k e high unit with
    | .lt => true
    | .eq => inclusive
    | .gt => false
  aboveLow && belowHigh

/-- The decimal of `digits` significant digits that stands for the double, if one does. -/
def Binary.candidate (b : Binary) (top : Int) (digits : Nat) : Option (Nat × Int) :=
  let e := top - digits + 1
  let num := b.significand * Nat.pow 2 b.exponent.toNat * Nat.pow 10 (-e).toNat
  let den := Nat.pow 2 (-b.exponent).toNat * Nat.pow 10 e.toNat
  let below := num / den
  let above := below + 1
  match b.admits below e, b.admits above e with
  | true, true =>
    -- the nearer neighbour; an exact tie goes to the even one
    match compare (2 * num) ((2 * below + 1) * den) with
    | .lt => some (below, e)
    | .gt => some (above, e)
    | .eq => some (if below % 2 == 0 then below else above, e)
  | true, false => some (below, e)
  | false, true => some (above, e)
  | false, false => none

/-- The fewest significant digits that read back, as an integer `k` and exponent `e` of `k · 10^e`. -/
def Binary.shortest (b : Binary) : Nat × Int :=
  let num := b.significand * Nat.pow 2 b.exponent.toNat
  let den := Nat.pow 2 (-b.exponent).toNat
  let top := decimalExponent num den
  match (List.range 17).findSome? (fun i => b.candidate top (i + 1)) with
  | some found => found
  | none => (num / den, 0)

/-- Drops the zeros at the end of a digit string. -/
def trimZeros (digits : List Char) : List Char :=
  (digits.reverse.dropWhile (· == '0')).reverse

/-- Writes `k · 10^e` positionally. -/
def positional (k : Nat) (e : Int) : String :=
  if 0 ≤ e then toString k ++ String.ofList (List.replicate e.toNat '0')
  else
    let places := (-e).toNat
    let digits := (toString k).toList
    let padded := List.replicate (places + 1 - digits.length) '0' ++ digits
    let whole := padded.take (padded.length - places)
    let fraction := trimZeros (padded.drop (padded.length - places))
    if fraction.isEmpty then String.ofList whole
    else String.ofList whole ++ "." ++ String.ofList fraction

/-- The shortest positional text of a double that reads back as the same double. -/
def shortest (x : Float) : String :=
  if x.isNaN then "nan"
  else
    let b := Binary.ofFloat x
    let sign := if b.negative then "-" else ""
    if x.isInf then sign ++ "inf"
    else if b.significand = 0 then sign ++ "0"
    else
      let (k, e) := b.shortest
      sign ++ positional k e

end DriverSynth.Decimal
