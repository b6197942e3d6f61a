import DriverSynth.Catalog
import DriverSynth.Ty.Doc

/-! # Catalog documents

A catalog document is an object with `functions`, an array of function objects, and optionally
`start` and `end`, the names of the start and end functions (`Conventions.fromNames`). Reading
sets the conventions first and then adds the functions in order, answering the first refusal; a
function's members are read in the order of the `Signature` fields, and a single name stands for
a list of one. Writing gives every member, `null` for an absent output or trait, indented with
keys sorted. Texts go through a JSON text library (`JsonCodec`).
-/

namespace DriverSynth

namespace Signature

/-- Reads a function object. -/
def ofDoc (d : Doc) : Except Fault Signature := do
  let name ← Ty.shaped (d.member "name" >>= Doc.toStr)
  let params ← (← Ty.shaped (d.member "params")).items.mapM Ty.ofDoc
  let output ← match d.get? "output" with
    | none | some .null => pure none
    | some o => some <$> Ty.ofDoc o
  let generics ← if d.has "generics" then Ty.shaped (d.member "generics" >>= Doc.toStrs)
    else pure []
  let bindings ← if d.has "substitutions" then
      (← Ty.shaped (d.member "substitutions")).entries.foldlM (fun acc (g, t) => do
        let t ← Ty.ofDoc t
        pure (Bindings.insert g t acc)) ([] : Bindings)
    else pure []
  let visibilityName ← Ty.shaped (d.memberOr "visibility" "public" Doc.toStr)
  let visibility ← match Visibility.ofName? visibilityName with
    | some v => pure v
    | none => throw (.unknownVisibility visibilityName)
  let traitPath ← match d.get? "trait" with
    | none | some .null => pure none
    | some t => some <$> Ty.shaped t.toStr
  let isUnsafe ← Ty.shaped (d.memberOr "unsafe" false Doc.toBool)
  let kindName ← Ty.shaped (d.memberOr "kind" "plain" Doc.toStr)
  let kind ← match FnKind.ofName? kindName with
    | some k => pure k
    | none => throw (.unknownFunctionKind kindName)
  pure { name, params, output, generics, bindings, visibility, traitPath, isUnsafe, kind }

/-- The function object of a signature. -/
def toDoc (sig : Signature) : Doc :=
  .record [("name", .str sig.name), ("params", .arr (Ty.toDocs sig.params)),
    ("output", Doc.opt (sig.output.map Ty.toDoc)), ("generics", Doc.strs sig.generics),
    ("substitutions", .record (sig.bindings.map fun (g, t) => (g, t.toDoc))),
    ("visibility", .str sig.visibility.name), ("trait", Doc.opt (sig.traitPath.map .str)),
    ("unsafe", .bool sig.isUnsafe), ("kind", .str sig.kind.name)]

end Signature

namespace Catalog

/-- The names listed under a key, if the document has it. -/
def namesAt (d : Doc) (key : String) : Except Fault (List String) :=
  if d.has key then do
    let v ← Ty.shaped (d.member key)
    v.items.mapM fun n => Ty.shaped n.toStr
  else pure []

/-- Reads a function object and adds its signature. -/
def addDoc (c : Catalog) (f : Doc) : Except Fault Catalog := do
  let sig ← Signature.ofDoc f
  let (_, c) ← c.add sig
  pure c

/-- Reads a catalog from the text of its document. -/
def parse (json : JsonCodec) (text : String) : Except Fault Catalog := do
  let some d := json.parse text | throw .unreadable
  let starts ← namesAt d "start"
  let ends ← namesAt d "end"
  let c := ({} : Catalog).setConventions (.fromNames starts ends)
  let functions ← Ty.shaped (d.member "functions")
  functions.items.foldlM addDoc c

/-- The document of a catalog. -/
def toDoc (c : Catalog) : Doc :=
  let ids := List.range c.size
  .record [("functions", .arr (ids.map fun id => (c.sig id).toDoc)),
    ("start", Doc.strs ((ids.filter c.isStart).map fun id => (c.sig id).name)),
    ("end", Doc.strs ((ids.filter c.isEnd).map fun id => (c.sig id).name))]

/-- The text of a catalog's document, indented by two. -/
def serialize (json : JsonCodec) (c : Catalog) : String := json.dump (some 2) c.toDoc

end Catalog

end DriverSynth
