import DriverSynth.Sequence.Budget
import DriverSynth.Catalog
import DriverSynth.Doc.Basic

/-! # Sequence documents

A sequence is exported with its calls (function name and, per parameter, the source, index and
access mode), its slots (type, kind, bytes, mutability), its byte budget, the names of the
functions it calls, and its edges, traits and `unsafe` mark. A list of sequences is exported as
the indented document of an object whose `sequences` member holds them.
-/

namespace DriverSynth

namespace Sequence

/-- The document of a parameter's source. -/
def sourceDoc : Source → Doc
  | .slot i m => .record [("source", .str "fuzzable"), ("index", .nat i), ("mode", .str m.name)]
  | .result i m _ => .record [("source", .str "call"), ("index", .nat i), ("mode", .str m.name)]

/-- The document of a sequence, naming functions by the catalog. -/
def toDoc (c : Catalog) (s : Sequence) : Doc :=
  let budget := Budget.of s
  .record [
    ("calls", .arr (s.calls.toList.map fun call =>
      .record [("function", .str (c.sig call.fn).name), ("params", .arr (call.args.map sourceDoc))])),
    ("fuzzables", .arr (s.slots.toList.map fun slot =>
      .record [("type", .str slot.ty.render), ("kind", .str slot.kind.name),
        ("min_bytes", .nat slot.minBytes.toNat), ("mutable", .bool slot.mutable)])),
    ("fixed_length", .nat budget.fixedLength.toNat),
    ("dynamic_slot", Doc.opt (budget.dynamicSlot.map .nat)),
    ("functions", Doc.strs (s.covered.map fun f => (c.sig f).name)),
    ("edges", Doc.nats s.edges),
    ("traits", Doc.strs s.traits),
    ("unsafe", .bool s.isUnsafe)]

/-- The text of a list of sequences, indented by two. -/
def serializeAll (json : JsonCodec) (c : Catalog) (seqs : List Sequence) : String :=
  json.dump (some 2) (Doc.record [("sequences", .arr (seqs.map (toDoc c)))])

end Sequence

end DriverSynth
