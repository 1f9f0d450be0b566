import Cassetta.Core.Cabinet
import Cassetta.Storage.Laying
import Cassetta.Storage.Listing

/-!
# Objects

The calls of `FilesystemBackend` that keep bytes under a key: `put`, `get`, `delete`, `list`,
`exists`, `get_creation_time` and `get_size`. They share the data directory with the bundles, so
a tree may hold files of both kinds. A file carries the moment it was last written at, which the
system keeps and `put` does not set itself.
-/

namespace Cassetta

open FileTree

/-! ## Data -/

/-- The data directory, and the `st_mtime` of its files. -/
structure Objects where
  tree : DataTree
  mtime : List String → Nat

/-- The exceptions of an object call. -/
inductive ObjectError where
  | fileNotFound (key : String)
  | osError (errno : Errno)
  deriving DecidableEq, Repr

/-- The text of an exception that is raised with one. -/
def ObjectError.message : ObjectError → Option String
  | .fileNotFound key => some ("File not found: " ++ key)
  | .osError _ => none

/-- An object call; a call that writes comes with the moment it does so at. -/
inductive ObjectCall where
  | put (now : Nat) (key : String) (data : Bytes)
  | get (key : String)
  | delete (key : String)
  | list (pre : String)
  | exists_ (key : String)
  | getCreationTime (key : String)
  | getSize (key : String)
  deriving DecidableEq, Repr

/-- What a call returns or raises. -/
inductive ObjectAnswer where
  | done
  | data (bytes : Bytes)
  | keys (names : List String)
  | held (yes : Bool)
  | moment (t : Nat)
  | size (n : Nat)
  | raised (e : ObjectError)
  deriving DecidableEq, Repr

namespace Objects

variable (b : Backend) (o : Objects)

/-- `put`. -/
def put (now : Nat) (key : String) (data : Bytes) : ObjectAnswer × Objects :=
  let path := b.resolve key
  match o.tree.mkdirParents path.dropLast with
  | (.error e, t) => (.raised (.osError e), { o with tree := t })
  | (.ok (), t) => match t.write path (.raw data) with
    | .error e => (.raised (.osError e), { o with tree := t })
    | .ok t' => (.done, ⟨t', Function.update o.mtime (normalize path) now⟩)

/-- What a call does with the file behind a key, which it first looks for with `is_file`. -/
def withFile (key : String) (use : Blob → ObjectAnswer) : ObjectAnswer :=
  match o.tree.readFile (b.resolve key) with
  | some c => use c
  | none => .raised (.fileNotFound key)

/-- `get`. -/
def get (key : String) : ObjectAnswer := o.withFile b key fun c => .data (b.bytesOf c)

/-- `delete`. -/
def delete (key : String) : ObjectAnswer × Objects :=
  match o.tree.readFile (b.resolve key) with
  | some _ => (.done, { o with tree := o.tree.remove (normalize (b.resolve key)) })
  | none => (.raised (.fileNotFound key), o)

/-- What `list` makes of an entry of the tree. -/
def listedKey (pre : String) (e : List String × Node Blob) : Option String :=
  match e.2 with
  | .dir => none
  | .file _ =>
    if normalize b.dataRoot <+: e.1 then
      let relative := b.relPosix (spell e.1)
      if pre ≠ "" ∧ ¬startsWith relative pre then none else some relative
    else none

/-- `list`. The walk comes to every file below the data directory. -/
def list (pre : String) : ObjectAnswer :=
  if ¬o.tree.isDir b.dataRoot then .keys []
  else .keys ((o.tree.entries.filterMap (listedKey b pre)).insertionSort (· ≤ ·))

/-- `exists`. -/
def exists_ (key : String) : ObjectAnswer := .held (o.tree.isFile (b.resolve key))

/-- `get_creation_time`. -/
def getCreationTime (key : String) : ObjectAnswer :=
  o.withFile b key fun _ => .moment (o.mtime (normalize (b.resolve key)))

/-- `get_size`. -/
def getSize (key : String) : ObjectAnswer :=
  o.withFile b key fun c => .size (b.bytesOf c).length

/-- One call. -/
def answer : ObjectCall → ObjectAnswer × Objects
  | .put now key data => o.put b now key data
  | .get key => (o.get b key, o)
  | .delete key => o.delete b key
  | .list pre => (o.list b pre, o)
  | .exists_ key => (o.exists_ b key, o)
  | .getCreationTime key => (o.getCreationTime b key, o)
  | .getSize key => (o.getSize b key, o)

/-- The state after one call. -/
def step (o : Objects) (call : ObjectCall) : Objects := (o.answer b call).2

/-- The answers of a run of calls. -/
def answers : Objects → List ObjectCall → List ObjectAnswer
  | _, [] => []
  | o, call :: rest => (o.answer b call).1 :: answers (o.step b call) rest

end Objects

/-! ## Keys -/

/-- A key that names a place below the data directory: not empty, relative, with no step up. On the
disk the place is there to name where each component is of at most 255 bytes and without NUL. -/
structure ObjectKey (key : String) : Prop where
  downward : Downward key
  somewhere : below key ≠ []

/-- The key of an object is spelled out below the data root. -/
theorem ObjectKey.resolve {b : Backend} {key : String} (h : ObjectKey key) :
    b.resolve key = spell (b.dataLoc ++ below key) := by
  rw [Backend.resolve, h.downward.joinPath, spell_append, ← b.dataRoot_eq]

/-- The places of keys have names a directory can hold. -/
theorem ObjectKey.names {key : String} (h : ObjectKey key) : ∀ k ∈ below key, FileName k := by
  intro k hk
  apply proper_steps key
  rw [h.downward.spelled]
  exact List.mem_map_of_mem hk

/-- Whether the keys of a call name places. -/
def ObjectCall.Plain : ObjectCall → Prop
  | .put _ key _ | .get key | .delete key | .exists_ key | .getCreationTime key | .getSize key =>
    ObjectKey key
  | .list _ => True

end Cassetta
