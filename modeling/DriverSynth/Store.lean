import DriverSynth.Format.Catalog

/-! # Files

A store is a file system as a value: directories, files with their contents, the null device and
the full device, which refuses every write of at least `Store.writeChunk` bytes. A path is resolved
from the root one name at a time, as a Unix system does: empty names and `.` stay, `..` goes up
(the root is its own parent), and every name before the last must be a directory. A directory
reads as empty and refuses writes; a new name in an existing directory creates a file. A path is
read up to its first NUL; the empty path and a relative one name nothing.
-/

namespace DriverSynth

/-- What a path names. -/
inductive Node where
  | directory
  | file (contents : String)
  | nullDevice
  | fullDevice
deriving Repr, DecidableEq, Inhabited

/-- A file system: paths and what they name. -/
structure Store where
  nodes : List (String × Node)
deriving Repr, Inhabited

namespace Store

/-- The smallest write that a file stream hands straight to the file instead of its buffer. -/
def writeChunk : Nat := 1024

/-- A system with a root, `/tmp`, and `/dev` holding its null and full devices. -/
def system : Store :=
  ⟨[("/", .directory), ("/tmp", .directory), ("/dev", .directory), ("/dev/null", .nullDevice),
    ("/dev/full", .fullDevice)]⟩

/-- What a path names, if anything. -/
def node? (st : Store) (path : String) : Option Node := (st.nodes.find? (·.1 == path)).map (·.2)

/-- The directory that holds a plain path; the root holds itself. -/
def parent (path : String) : String :=
  match (path.toList.reverse.dropWhile (· != '/')) with
  | [] => ""
  | [_] => "/"
  | _ :: rest => String.ofList rest.reverse

/-- The plain path of a name inside a directory. -/
def child (dir name : String) : String := if dir == "/" then "/" ++ name else dir ++ "/" ++ name

/-- Where a path leads. -/
inductive Target where
  /-- A node that exists, under its plain path. -/
  | existing (plain : String) (node : Node)
  /-- A new name inside a directory that exists, as a plain path. -/
  | fresh (plain : String)
  /-- Nothing: the walk met a missing name or a node that is not a directory before its end. -/
  | nowhere
deriving Repr, DecidableEq, Inhabited

/-- Walks the names of a path from a directory, given by its plain path. -/
def walk (st : Store) (dir : String) : List String → Target
  | [] => .existing dir .directory
  | name :: rest =>
    if name == "" || name == "." then st.walk dir rest
    else if name == ".." then st.walk (parent dir) rest
    else
      let plain := child dir name
      match st.node? plain, rest with
      | some node, [] => .existing plain node
      | none, [] => .fresh plain
      | some .directory, _ => st.walk plain rest
      | _, _ :: _ => .nowhere

/-- The part of a path that the system reads: everything before its first NUL character. -/
def systemText (path : String) : String := String.ofList (path.toList.takeWhile (· != Char.ofNat 0))

/-- Where a path leads from the root. -/
def locate (st : Store) (path : String) : Target :=
  let text := systemText path
  if text.startsWith "/" then st.walk "/" (text.splitOn "/") else .nowhere

/-- The contents of a file. -/
def read (st : Store) (path : String) : Except Fault String :=
  match st.locate path with
  | .existing _ (.file contents) => .ok contents
  | .existing _ _ => .ok ""
  | .fresh _ | .nowhere => .error (.cannotOpen path)

/-- Writes a file whole, replacing what it held. -/
def write (st : Store) (path : String) (contents : String) : Except Fault Store :=
  match st.locate path with
  | .existing _ .directory | .nowhere => .error (.cannotOpen path)
  | .existing _ .nullDevice => .ok st
  | .existing _ .fullDevice =>
    if writeChunk ≤ contents.utf8ByteSize then .error (.writeFailed path) else .ok st
  | .existing plain (.file _) =>
    .ok ⟨st.nodes.map fun (p, n) => if p == plain then (p, .file contents) else (p, n)⟩
  | .fresh plain => .ok ⟨st.nodes ++ [(plain, .file contents)]⟩

/-- Reads a catalog from a file. -/
def loadCatalog (json : JsonCodec) (st : Store) (path : String) : Except Fault Catalog := do
  Catalog.parse json (← st.read path)

/-- Writes a catalog's document to a file. -/
def saveCatalog (json : JsonCodec) (st : Store) (c : Catalog) (path : String) :
    Except Fault Store :=
  st.write path (c.serialize json)

end Store

end DriverSynth
