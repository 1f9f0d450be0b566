import Mathlib
import Cassetta.Core.Folder
import Cassetta.Core.Json
import Cassetta.Storage.Backend

/-!
# Sidecars that hold arbitrary bytes

`_parse` and what is built on it, from the bytes of the files up. Each stage fails with an
exception of its own, and only `ValueError` and `OSError` are caught; what Python and the system
around the claims directory do is a parameter.
-/

namespace Cassetta

/-- A claim as `_parse` returns it; the elements of `files_fetched` are whatever was in the file. -/
structure Sidecar where
  jti : PyStr
  bundlePath : PyStr
  bundleId : PyStr
  recipient : PyStr
  createdAt : PyStr
  filesFetched : List Json

/-- The exceptions that come up, `FileNotFoundError` apart. -/
inductive SidecarError where
  | valueError
  | osError
  | keyError
  | typeError
  | recursionError
  deriving DecidableEq, Repr

/-- What the interpreter and the rest of the system do; `σ` is the state of all but the claims
directory. -/
structure Host (σ : Type) where
  /-- The containers that may be open at once in `json.loads`. -/
  depth : Nat
  /-- `repr` of what is no string; none is a `RecursionError`. -/
  repr : Json → Option PyStr
  /-- `_iso_to_epoch`; none is a `ValueError`. -/
  isoToEpoch : PyStr → Option ℚ
  /-- The name of the lock of a path; none when the path cannot be encoded. -/
  lockName : PyStr → Option PyStr
  /-- The entry of the claims directory that a name leads to, none when it leads elsewhere. -/
  entry : PyStr → Option PyStr
  /-- Reading and unlinking a path that leads elsewhere. -/
  strayRead : PyStr → σ → Except SidecarError (Option Bytes)
  strayUnlink : PyStr → σ → Except SidecarError σ
  /-- The names of a manifest that `commit` has written, none when there is no bundle. -/
  readBundleMeta : PyStr → σ → Except SidecarError (Option (List PyStr))
  /-- `delete_bundle`; its exceptions are only logged. -/
  deleteBundle : PyStr → σ → σ

/-- The claims directory and the rest. -/
structure ClaimsWorld (σ : Type) where
  dir : Folder PyStr Bytes
  rest : σ

namespace Sidecar

variable {σ : Type} (h : Host σ)

/-! ## One file -/

/-- `str(v)`. -/
def str : Json → Except SidecarError PyStr
  | .str s => .ok s
  | v => match h.repr v with
    | some s => .ok s
    | none => .error .recursionError

/-- `str(data[key])`. -/
def field (data : List (PyStr × Json)) (key : String) : Except SidecarError PyStr :=
  match Json.getMember data key with
  | none => .error .keyError
  | some v => str h v

/-- `list(v)`. -/
def items : Json → Except SidecarError (List Json)
  | .arr items => .ok items
  | .str s => .ok (s.map fun c => .str [c])
  | .obj members => .ok (members.map fun m => .str m.1)
  | _ => .error .typeError

/-- `list(data.get("files_fetched", []))`. -/
def filesOf (data : List (PyStr × Json)) : Except SidecarError (List Json) :=
  match Json.getMember data "files_fetched" with
  | none => .ok []
  | some v => items v

/-- The record of an object of the right version. -/
def ofObject (data : List (PyStr × Json)) : Except SidecarError Sidecar := do
  let jti ← field h data "jti"
  let bundlePath ← field h data "bundle_path"
  let bundleId ← field h data "bundle_id"
  let recipient ← field h data "recipient"
  let createdAt ← field h data "created_at"
  let filesFetched ← filesOf data
  return { jti, bundlePath, bundleId, recipient, createdAt, filesFetched }

/-- `version == 1`. -/
def versionOk (data : List (PyStr × Json)) : Bool :=
  (Json.getMember data "schema_version").any Json.isOne

/-- `_parse`. -/
def parse (body : Bytes) : Except SidecarError Sidecar :=
  match String.fromUTF8? body.toByteArray with
  | none => .error .valueError
  | some text => match Json.loads h.depth text with
    | .error .valueError => .error .valueError
    | .error .recursionError => .error .recursionError
    | .ok (.obj data) =>
      if versionOk data then ofObject h data
      else match h.repr ((Json.getMember data "schema_version").getD .null) with
        | some _ => .error .valueError
        | none => .error .recursionError
    | .ok _ => .error .valueError

/-! ## The directory -/

/-- The names that `iter_all` does not pass over. -/
def isSidecarName (name : PyStr) : Bool :=
  (PyStr.ofString ".json").isSuffixOf name && !(PyStr.ofString ".json.tmp").isSuffixOf name

/-- The loop of `iter_all`: what it yields, and the exception that ends it. -/
def iterOver (dir : Folder PyStr Bytes) : List PyStr → List Sidecar × Option SidecarError
  | [] => ([], none)
  | name :: rest =>
    if isSidecarName name then
      match dir.read name with
      | none => iterOver dir rest
      | some body => match parse h body with
        | .ok claim => (claim :: (iterOver dir rest).1, (iterOver dir rest).2)
        | .error .valueError => iterOver dir rest
        | .error .osError => iterOver dir rest
        | .error e => ([], some e)
    else iterOver dir rest

/-- `iter_all`. -/
def iterAll (dir : Folder PyStr Bytes) : List Sidecar × Option SidecarError :=
  iterOver h dir dir.names

/-- The loop of `iter_active_by_bundle_path`. -/
def activeOf (now : ℚ) (ttl : ℤ) (claims : List Sidecar) : List (PyStr × PyStr) :=
  claims.foldl (fun active claim =>
    match h.isoToEpoch claim.createdAt with
    | none => active
    | some created =>
      if (ttl : ℚ) ≤ now - created then active
      else Json.setMember active claim.bundlePath claim.jti) []

/-- `iter_active_by_bundle_path`, which an inbox listing asks for the bundles to hide. -/
def iterActive (now : ℚ) (ttl : ℤ) (dir : Folder PyStr Bytes) :
    Except SidecarError (List (PyStr × PyStr)) :=
  match iterAll h dir with
  | (claims, none) => .ok (activeOf h now ttl claims)
  | (_, some e) => .error e

/-- `_path`. -/
def path (jti : PyStr) : PyStr := jti ++ PyStr.ofString ".json"

/-- `get`. -/
def get (jti : PyStr) (w : ClaimsWorld σ) : Except SidecarError (Option Sidecar) :=
  let body : Except SidecarError (Option Bytes) := match h.entry (path jti) with
    | some name => .ok (w.dir.read name)
    | none => h.strayRead (path jti) w.rest
  match body with
  | .error e => .error e
  | .ok none => .ok none
  | .ok (some body) => (parse h body).map some

/-- Unlinking a sidecar; one that is not there is left alone. -/
def unlink (jti : PyStr) (w : ClaimsWorld σ) : Except SidecarError Unit × ClaimsWorld σ :=
  match h.entry (path jti) with
  | some name => (.ok (), { w with dir := w.dir.unlink name })
  | none => match h.strayUnlink (path jti) w.rest with
    | .ok rest => (.ok (), { w with rest })
    | .error e => (.error e, w)

/-- `delete`. -/
def delete (jti : PyStr) (w : ClaimsWorld σ) : Except SidecarError Unit × ClaimsWorld σ :=
  match get h jti w with
  | .error .valueError => unlink h jti w
  | .error e => (.error e, w)
  | .ok none => unlink h jti w
  | .ok (some claim) => match h.lockName claim.bundlePath with
    | none => (.error .valueError, w)
    | some lock => unlink h jti { w with dir := w.dir.unlink lock }

/-! ## The sweep -/

/-- `set(v)` takes the elements. -/
def hashable : Json → Bool
  | .arr _ | .obj _ => false
  | _ => true

/-- `sorted` takes the elements of a set: all text, all numbers, or only `None`. -/
def sortable (fetched : List Json) : Bool :=
  fetched.all (fun v => match v with | .str _ => true | _ => false) ||
    fetched.all (fun v => match v with | .num _ | .bool _ => true | _ => false) ||
    fetched.all fun v => match v with | .null => true | _ => false

/-- A name is one of the fetched. -/
def hasFetched (fetched : List Json) (name : PyStr) : Bool :=
  fetched.any fun v => match v with | .str s => s = name | _ => false

/-- The body of the loop of `sweep_claims`. -/
def sweepOne (now : ℚ) (ttl : ℤ) (claim : Sidecar) (w : ClaimsWorld σ) :
    Except SidecarError Unit × ClaimsWorld σ :=
  match h.isoToEpoch claim.createdAt with
  | none => delete h claim.jti w
  | some created =>
    if now - created < ttl then (.ok (), w)
    else match h.readBundleMeta claim.bundlePath w.rest with
      | .error _ => (.ok (), w)
      | .ok none => delete h claim.jti w
      | .ok (some names) =>
        if ¬claim.filesFetched.all hashable then (.error .typeError, w)
        else if names ≠ [] ∧ names.all (hasFetched claim.filesFetched) ∧
            (PyStr.ofString "inbox/").isPrefixOf claim.bundlePath then
          delete h claim.jti { w with rest := h.deleteBundle claim.bundlePath w.rest }
        else match delete h claim.jti w with
          | (.ok (), w') =>
            -- the names are sorted for the log
            if sortable claim.filesFetched then (.ok (), w') else (.error .typeError, w')
          | r => r

/-- The loop of `sweep_claims`; an exception ends it. -/
def sweepEach (now : ℚ) (ttl : ℤ) :
    List Sidecar → ClaimsWorld σ → Except SidecarError Unit × ClaimsWorld σ
  | [], w => (.ok (), w)
  | claim :: rest, w => match sweepOne h now ttl claim w with
    | (.ok (), w') => sweepEach now ttl rest w'
    | r => r

/-- `sweep_claims`; a listing that raises is logged, and nothing is swept. -/
def sweepClaims (now : ℚ) (ttl : ℤ) (w : ClaimsWorld σ) :
    Except SidecarError Unit × ClaimsWorld σ :=
  match iterAll h w.dir with
  | (claims, none) => sweepEach h now ttl claims w
  | (_, some _) => (.ok (), w)

end Sidecar

end Cassetta
