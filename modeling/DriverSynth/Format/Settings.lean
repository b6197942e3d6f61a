import DriverSynth.Search.Replay
import DriverSynth.Ty.Doc

/-! # Tuning and seed documents

A tuning document may have `default`, a tuning applied to the fallback, and `libraries`, a
tuning per library name; each library's tuning starts from the fallback. A tuning object may set
`random_walk_steps` and `target_function_coverage`; a negative or fractional number there is
refused, and so is anything that is not a number.

A seed document has `chains`, each with `functions` (names) and optionally `frequency` (1 by
default); a frequency below 1 is refused, naming how many chains were accepted before it.
-/

namespace DriverSynth

namespace Tuning

/-- Reads one budget of a tuning object into `current`, if the object sets it. -/
def readBudget (d : Doc) (key : String) (current : UInt64) : Except Fault UInt64 :=
  if !d.has key then pure current
  else do
    let v ← Ty.shaped (d.member key)
    if v.isNumber && !v.isNat then throw (.negativeBudget key)
    Ty.shaped v.toWord

/-- Applies a tuning object to a tuning. -/
def apply (d : Doc) (t : Tuning) : Except Fault Tuning := do
  let walkSteps ← readBudget d "random_walk_steps" t.walkSteps
  let targetCoverage ← readBudget d "target_function_coverage" t.targetCoverage
  pure { walkSteps, targetCoverage }

end Tuning

namespace TuningTable

/-- Reads a tuning table from the text of its document; it starts empty. -/
def parse (json : JsonCodec) (text : String) : Except Fault TuningTable := do
  let some d := json.parse text | throw .unreadable
  let table : TuningTable := {}
  let table ← if d.has "default" then do
      let fallback ← Tuning.apply (← Ty.shaped (d.member "default")) {}
      pure { table with fallback }
    else pure table
  if d.has "libraries" then
    (← Ty.shaped (d.member "libraries")).entries.foldlM (fun table (name, l) => do
      let tuning ← Tuning.apply l table.fallback
      pure (table.set name tuning)) table
  else pure table

end TuningTable

namespace SeedChain

/-- Reads seed chains from the text of their document. -/
def parseAll (json : JsonCodec) (text : String) : Except Fault (List SeedChain) := do
  let some d := json.parse text | throw .unreadable
  let chains ← Ty.shaped (d.member "chains")
  chains.items.foldlM (fun acc c => do
    let functions ← Ty.shaped (c.member "functions" >>= Doc.toStrs)
    let frequency ← Ty.shaped (c.memberOr "frequency" 1 Doc.toInt64)
    if frequency < 1 then throw (.nonPositiveFrequency acc.length frequency.toInt)
    pure (acc ++ [{ functions := functions, frequency := frequency }])) []

end SeedChain

end DriverSynth
