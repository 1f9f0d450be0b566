import Mathlib
import Cassetta.Core.FileOps
import Cassetta.Storage.Path

/-!
# The filesystem storage backend

The bundle operations of `FilesystemBackend` and `FilesystemBundleWriter`. A bundle is a
directory; it is committed once `meta.json` has been renamed into place. A file holds either
bytes a client sent or the manifest some commit wrote; the manifest carries the number of the
commit that wrote it, which no operation reads and which tells apart two bundles committed at
one path one after the other. Moments are microseconds since the epoch.
-/

namespace Cassetta

open FileTree

/-! ## Data -/

abbrev Bytes := List UInt8

/-- `int(t)` for a moment read as seconds. -/
def wholeSeconds (t : Nat) : Nat := t / 1000000

/-- A span given in whole seconds. -/
def secondsToMicros (s : Nat) : Nat := s * 1000000

/-- Seconds are added up. -/
theorem secondsToMicros_add (a b : Nat) :
    secondsToMicros (a + b) = secondsToMicros a + secondsToMicros b := Nat.add_mul _ _ _

/-- One entry of a manifest's `files`. -/
structure FileRecord where
  name : String
  size : Int
  mime : String
  deriving DecidableEq, Repr

/-- The manifest kept in `meta.json`. -/
structure BundleMeta where
  schemaVersion : Nat := 1
  bundleId : Nat
  sender : Option String
  createdAt : Nat
  contentType : String
  fileCount : Nat
  files : List FileRecord
  deriving DecidableEq, Repr

/-- The names a manifest lists. -/
def BundleMeta.names (m : BundleMeta) : List String := m.files.map (·.name)

/-- `sum(int(f.get("size", 0)) for f in files)`. -/
def BundleMeta.totalSize (m : BundleMeta) : Int := (m.files.map (·.size)).sum

/-- The content of a file: client bytes, or the manifest written by a numbered commit. -/
inductive Blob where
  | raw (bytes : Bytes)
  | manifest (meta_ : BundleMeta) (serial : Nat)
  deriving DecidableEq, Repr

abbrev DataTree := Tree String Blob

/-- What open_bundle_write ran into. -/
inductive ConflictKind where
  | shadowParent
  | shadowChild
  deriving DecidableEq, Repr

/-- The exceptions of a storage call. -/
inductive StorageError where
  /-- `FileNotFoundError`. -/
  | fileNotFound
  /-- `BundlePathConflictError(conflicting_path, kind)`. -/
  | bundlePathConflict (conflictingPath : String) (kind : ConflictKind)
  /-- `ValueError`. -/
  | valueError (reason : String)
  /-- Any other `OSError`. -/
  | osError (errno : Errno)
  deriving DecidableEq, Repr

/-- An `OSError` as Python raises it. -/
def StorageError.ofErrno : Errno → StorageError
  | .noEntry => .fileNotFound
  | e => .osError e

/-- The storage root, and `json` on manifests. -/
structure Backend where
  root : List String
  dumps : BundleMeta → Bytes
  loads : Bytes → Option BundleMeta

/-- A bundle writer: its directory, and what it has written under each name so far. The
source keeps only the length of each file. -/
structure Writer where
  bundleDir : List (Step String)
  written : List (String × Bytes)
  deriving DecidableEq, Repr

/-- The target of `write_file`. -/
def Writer.target (w : Writer) (name : String) : List (Step String) := joinPath w.bundleDir name

/-- The location a writer's bundle lives at. -/
def Writer.loc (w : Writer) : List String := normalize w.bundleDir

/-- A commit that went through. -/
structure Commit where
  loc : List String
  manifest : BundleMeta
  written : List (String × Bytes)
  deriving DecidableEq, Repr

/-- The disk with the writers that are open on it. Commits are numbered from 0 in order;
their list only grows. -/
structure Disk where
  tree : DataTree
  mtime : List String → Nat
  writers : Nat → Option Writer
  nextWriter : Nat
  commits : List Commit

/-- A disk with one directory, the storage root. -/
def Disk.init (t : DataTree) : Disk := ⟨t, fun _ => 0, fun _ => none, 0, []⟩

/-- The names inside a directory. -/
def dirNames (t : DataTree) (loc : List String) : List String := (t.children loc).map Prod.fst

/-- Put a changed tree in place; a directory is touched when its listing changes. -/
def Disk.setTree (d : Disk) (now : Nat) (t : DataTree) : Disk :=
  { d with
    tree := t
    mtime := fun loc =>
      if (dirNames t loc).toFinset = (dirNames d.tree loc).toFinset ∧
        t.dirAt loc = d.tree.dirAt loc then d.mtime loc else now }

/-- The tree is replaced. -/
@[simp] theorem Disk.setTree_tree (d : Disk) (now : Nat) (t : DataTree) :
    (d.setTree now t).tree = t := rfl
/-- The open writes are kept. -/
@[simp] theorem Disk.setTree_writers (d : Disk) (now : Nat) (t : DataTree) :
    (d.setTree now t).writers = d.writers := rfl
@[simp] private theorem Disk.setTree_nextWriter (d : Disk) (now : Nat) (t : DataTree) :
    (d.setTree now t).nextWriter = d.nextWriter := rfl
@[simp] private theorem Disk.setTree_commits (d : Disk) (now : Nat) (t : DataTree) :
    (d.setTree now t).commits = d.commits := rfl

/-- `_BUNDLE_MANIFEST_TMP`. -/
def bundleManifestTmp : String := ".meta.json.tmp"

/-! ## Paths -/

namespace Backend

variable (b : Backend)

/-- `_data_root`. -/
def dataRoot : List (Step String) := spell (b.root ++ ["data"])

/-- `_resolve`. -/
def resolve (key : String) : List (Step String) := joinPath b.dataRoot key

/-- Where a key leads, read lexically. -/
def location (key : String) : List String := normalize (b.resolve key)

/-- `path.relative_to(data_root).as_posix()`. -/
def relPosix (path : List (Step String)) : String :=
  let name : Step String → String
    | .into k => k
    | .up => ".."
  match (path.drop b.dataRoot.length).map name with
  | [] => "."
  | parts => "/".intercalate parts

/-! ## Collision detection -/

/-- `_looks_like_bundle_dir`: committed, or holding files and no directories. -/
def looksLikeBundleDir (t : DataTree) (candidate : List (Step String)) : Bool :=
  t.isDir candidate &&
    (t.isFile (candidate ++ [.into bundleManifest]) ||
      ((t.children (normalize candidate)).all (fun c => c.2 ≠ .dir) &&
        !(t.children (normalize candidate)).isEmpty))

/-- `_find_descendant_bundle`. The walk visits entries in the order the tree lists them. -/
def findDescendantBundle (t : DataTree) (root : List (Step String)) :
    Option (List (Step String)) :=
  let base := normalize root
  t.entries.findSome? fun e =>
    if base <+: e.1 ∧ base ≠ e.1 then
      let entry := root ++ spell (e.1.drop base.length)
      match e.2 with
      | .dir => if looksLikeBundleDir t entry then some entry else none
      | .file _ => if e.1.dropLast = base then none else some entry.dropLast
    else none

/-- `_collision_kind`. -/
def collisionKind (t : DataTree) (bundleDir : List (Step String)) : ConflictKind :=
  if t.isDir bundleDir ∧ t.children (normalize bundleDir) ≠ [] then .shadowParent
  else .shadowChild

/-- `namespace_depth`, from the components below the data root. -/
def namespaceDepth (rel : List (Step String)) : Nat :=
  if rel.head? = some (.into "inbox") then 2 else 1

/-- The ancestors of a bundle directory below its namespace root, deepest first. -/
def checkedAncestors (bundleDir : List (Step String)) : List (List (Step String)) :=
  let rel := bundleDir.drop b.dataRoot.length
  let depth := namespaceDepth rel
  ((List.range (rel.length - (depth + 1))).map fun i =>
    bundleDir.take (b.dataRoot.length + depth + 1 + i)).reverse

/-- `_check_bundle_path_collision`: the conflict it raises, if any. -/
def checkBundlePathCollision (t : DataTree) (bundleDir : List (Step String)) :
    Option StorageError :=
  if ¬b.dataRoot <+: bundleDir then none
  else
    let rel := bundleDir.drop b.dataRoot.length
    if rel.length ≤ namespaceDepth rel then none
    else match (b.checkedAncestors bundleDir).find? (looksLikeBundleDir t) with
      | some ancestor => some (.bundlePathConflict (b.relPosix ancestor) .shadowChild)
      | none =>
        if t.isDir bundleDir then
          (findDescendantBundle t bundleDir).map fun descendant =>
            .bundlePathConflict (b.relPosix descendant) .shadowParent
        else none

/-! ## Bundle operations -/

/-- `open_bundle_write`: the handle of the new writer. -/
def openBundleWrite (now : Nat) (path : String) (d : Disk) : Except StorageError Nat × Disk :=
  let bundleDir := b.resolve path
  match b.checkBundlePathCollision d.tree bundleDir with
  | some err => (.error err, d)
  | none =>
    match d.tree.mkdirParents bundleDir.dropLast with
    | (.error e, t) => (.error (.ofErrno e), d.setTree now t)
    | (.ok (), t) =>
      match t.mkdir bundleDir with
      | .error .exist =>
        (.error (.bundlePathConflict path (collisionKind t bundleDir)), d.setTree now t)
      | .error e => (.error (.ofErrno e), d.setTree now t)
      | .ok t' =>
        (.ok d.nextWriter,
          { d.setTree now t' with
            writers := Function.update d.writers d.nextWriter (some ⟨bundleDir, []⟩)
            nextWriter := d.nextWriter + 1 })

/-- The manifest file of a bundle directory. -/
def metaPath (bundleDir : List (Step String)) : List (Step String) :=
  bundleDir ++ [.into bundleManifest]

/-- The file a manifest is written to first. -/
def tmpPath (bundleDir : List (Step String)) : List (Step String) :=
  bundleDir ++ [.into bundleManifestTmp]

/-- `json.loads` of a file's content. -/
def loadMeta : Blob → Option BundleMeta
  | .raw bytes => b.loads bytes
  | .manifest m _ => some m

/-- The bytes of a file. -/
def bytesOf : Blob → Bytes
  | .raw bytes => bytes
  | .manifest m _ => b.dumps m

/-- `read_bundle_meta`, where it answers: what is missing, no JSON text or no object is a
`FileNotFoundError`. Contents at which it raises something else are left to `execReading`. -/
def readBundleMeta (t : DataTree) (path : String) : Option BundleMeta :=
  (t.readFile (metaPath (b.resolve path))).bind b.loadMeta

/-- `open_bundle_file_read`: the content behind the handle. -/
def openBundleFileRead (t : DataTree) (path name : String) : Option Bytes :=
  if t.isFile (metaPath (b.resolve path)) then
    (t.readFile (joinPath (b.resolve path) name)).map b.bytesOf
  else none

/-- `delete_bundle`. -/
def deleteBundle (now : Nat) (path : String) (d : Disk) : Except StorageError Unit × Disk :=
  if d.tree.isDir (b.resolve path) then
    match d.tree.rmtree (b.resolve path) with
    | (.ok (), t) => (.ok (), d.setTree now t)
    | (.error e, t) => (.error (.ofErrno e), d.setTree now t)
  else (.error .fileNotFound, d)

/-- `BundleRef`. -/
structure BundleRef where
  path : String
  hasMeta : Bool
  mtime : Nat
  deriving DecidableEq, Repr

/-- The names of the files directly in a directory. -/
def fileNames (t : DataTree) (loc : List String) : List String :=
  (t.children loc).filterMap fun e =>
    match e.2 with
    | .file _ => some e.1
    | .dir => none

/-- `os.walk` below a directory, cut off at every directory that holds a file. -/
def walkBundles (d : Disk) (includeOrphans : Bool) :
    Nat → List (Step String) → List BundleRef
  | 0, _ => []
  | fuel + 1, dir =>
    (d.tree.children (normalize dir)).flatMap fun c =>
      match c.2 with
      | .file _ => []
      | .dir =>
        let sub := dir ++ [.into c.1]
        let files := fileNames d.tree (normalize sub)
        let ref (hasMeta : Bool) : BundleRef := ⟨b.relPosix sub, hasMeta, d.mtime (normalize sub)⟩
        if bundleManifest ∈ files then [ref true]
        else if files ≠ [] then (if includeOrphans then [ref false] else [])
        else walkBundles d includeOrphans fuel sub

/-- `list_bundles`: the prefix root itself is never a bundle. Below a root outside the data
directory the first entry met is a `ValueError` of `relative_to`. -/
def listBundles (d : Disk) (pre : String) (includeOrphans : Bool) :
    Except StorageError (List BundleRef) :=
  let base := if pre = "" then b.dataRoot else joinPath b.dataRoot pre
  if ¬d.tree.isDir base then .ok []
  else if ¬b.dataRoot <+: base ∧ d.tree.children (normalize base) ≠ [] then
    .error (.valueError "is not in the subpath of")
  else
    let depth := (d.tree.entries.map fun e => e.1.length).sum
    .ok
      ((b.walkBundles d includeOrphans (depth + 1) base).insertionSort (fun r s => r.path ≤ s.path))

/-! ## Writers -/

/-- The tree after `write_file` has made the target's parents and opened it. -/
def writeTarget (t : DataTree) (target : List (Step String)) (data : Bytes) :
    Except StorageError Unit × DataTree :=
  match t.mkdirParents target.dropLast with
  | (.error e, t') => (.error (.ofErrno e), t')
  | (.ok (), t') => match t'.write target (.raw data) with
    | .error e => (.error (.ofErrno e), t')
    | .ok t'' => (.ok (), t'')

/-- `write_file`, for an open writer. -/
def writeFile (now : Nat) (handle : Nat) (name : String) (data : Bytes) (d : Disk) :
    Except StorageError Nat × Disk :=
  match d.writers handle with
  | none => (.error (.valueError "closed"), d)
  | some w =>
    if name = "" then (.error (.valueError "Bundle file name must not be empty"), d)
    else if name ∈ w.written.map Prod.fst then
      (.error (.valueError ("Duplicate file name in bundle: " ++ name)), d)
    else match writeTarget d.tree (w.target name) data with
      | (.error e, t) => (.error e, d.setTree now t)
      | (.ok (), t) =>
        (.ok data.length,
          { d.setTree now t with
            writers := Function.update d.writers handle
              (some { w with written := w.written ++ [(name, data)] }) })

/-- The checks `commit` makes before it touches the disk. -/
def commitCheck (w : Writer) (m : BundleMeta) : Except StorageError Unit :=
  if m.files = [] then .error (.valueError "Bundle must contain at least one file")
  else if ¬m.names.Nodup then .error (.valueError "Duplicate file names in bundle")
  else if m.names.toFinset ≠ (w.written.map Prod.fst).toFinset then
    .error (.valueError "Bundle file set mismatch")
  else if m.files.all (fun f => w.written.any fun e =>
      e.1 = f.name ∧ (e.2.length : Int) = f.size) then .ok ()
  else .error (.valueError "Bundle size mismatch")

/-- `commit`, for an open writer: the manifest is written beside the files and renamed into
place. On success the writer is done. -/
def commit (now : Nat) (handle : Nat) (m : BundleMeta) (d : Disk) :
    Except StorageError Unit × Disk :=
  match d.writers handle with
  | none => (.error (.valueError "closed"), d)
  | some w =>
    match commitCheck w m with
    | .error e => (.error e, d)
    | .ok () =>
      match d.tree.write (tmpPath w.bundleDir) (.manifest m d.commits.length) with
      | .error e => (.error (.ofErrno e), d)
      | .ok t =>
        match t.rename (tmpPath w.bundleDir) (metaPath w.bundleDir) with
        | .error e => (.error (.ofErrno e), d.setTree now t)
        | .ok t' =>
          (.ok (),
            { (d.setTree now t).setTree now t' with
              writers := Function.update d.writers handle none
              commits := d.commits ++ [⟨w.loc, m, w.written⟩] })

/-- `abort`: remove the directory, whatever goes wrong; the writer is done. -/
def abort (now : Nat) (handle : Nat) (d : Disk) : Disk :=
  match d.writers handle with
  | none => d
  | some w =>
    { d.setTree now (d.tree.rmtree w.bundleDir).2 with
      writers := Function.update d.writers handle none }

end Backend

/-! ## A small server -/

/-- A backend whose storage root is `/srv`; no client file here is a JSON text. -/
def srvBackend : Backend := ⟨["srv"], fun _ => [], fun _ => none⟩

/-- The disk a fresh server starts on. -/
def srvTree : DataTree := Tree.empty.insert ["srv"] .dir

end Cassetta
