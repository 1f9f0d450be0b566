import Cassetta.Surface.Common

/-!
# The store over REST

`GET`, `PUT` and `DELETE /files/...`.
-/

namespace Cassetta.Files

variable (cfg : Config)

/-- The end of `upload_file`. -/
structure Uploaded where
  path : String
  size : Nat
  existed : Bool
  deriving DecidableEq, Repr

/-- `RESERVED_PREFIXES`. -/
def reservedPrefixes : List String := ["inbox/", "store/"]

/-- `upload_file`. A path conflict goes up and is answered with 409. -/
def uploadFile (identity : Identity) (path : String) (body : Body) : Handler Uploaded := do
  validateOr cfg.allowedPathChars path badPath
  match reservedPrefixes.find? (startsWith path) with
  | some pre => throw (.http 400 ("Reserved path prefix: " ++ pre))
  | none => do
    enforce identity (.files path) .write httpForbidden
    let parts := body.fileParts path
    if parts = [] then throw (.http 400 "No files found in multipart request")
    else match evaluateUpload cfg parts with
      | .error r => throw (.limits r)
      | .ok () => do
        let existed ← match ← readBundleMeta (storePath path) with
          | .ok _ => pure true
          | .error .fileNotFound => pure false
          | .error e => throw (.storage e)
        if existed then deleteQuiet (storePath path) else pure ()
        let bundleId ← newId
        let _ ← writeBundle cfg (storePath path) parts none "application/octet-stream" bundleId
        pure ⟨path, (parts.map (·.data.length)).sum, existed⟩

/-- `list_files`. -/
def listFiles (identity : Identity) (pre : String) : Handler (List ListingEntry) := do
  enforce identity (.files "*") .list httpForbidden
  let refs ← listBundles (storeScanPrefix pre) false
  listingEntries cfg "store/" (refs.map (·.path))

/-- `peek_store_file`. -/
def peekStoreFile (identity : Identity) (path : String) : Handler BundleMeta := do
  validateOr defaultAllowedChars path badPath
  enforce identity (.files path) .peek httpForbidden
  peekFreshOr cfg (storePath path) (httpNotFound path)

/-- `download_file` of the store. -/
def downloadFile (identity : Identity) (path : String) : Handler Envelope := do
  validateOr defaultAllowedChars path badPath
  enforce identity (.files path) .read httpForbidden
  let m ← readFreshOr cfg (storePath path) (httpNotFound path)
  match evaluateDownload cfg.limits m.totalSize with
  | .reference => do
    let env ← buildReferencePayloadForStore cfg (storePath path) m identity.label
    pure (.reference env)
  | .inline => do
    let payloads ← collectBundleFiles (storePath path) m.files
    pure (buildInlineEnvelope m payloads)

/-- What `GET /files/...` answers with. -/
inductive Got where
  | peeked (m : BundleMeta)
  | file (env : Envelope)

/-- `GET /files/...`. The route of a peek is registered first, so that it takes every path
that ends in `/peek`. -/
def getFile (identity : Identity) (path : String) : Handler Got :=
  if endsWith path "/peek" then do
    let m ← peekStoreFile cfg identity (String.ofList (path.toList.take (path.length - 5)))
    pure (.peeked m)
  else do
    let env ← downloadFile cfg identity path
    pure (.file env)

/-- `delete_file`. -/
def deleteFile (identity : Identity) (path : String) : Handler Unit := do
  validateOr defaultAllowedChars path badPath
  enforce identity (.files path) .delete httpForbidden
  deleteOr (storePath path) (httpNotFound path)

/-! ## Behind their routes, for what follows `/files/` in the decoded path of a URL -/

/-- `PUT /files/{path:path}`. -/
def routedUpload (identity : Identity) (rest : String) (body : Body) : Handler Uploaded :=
  routed (pathParam rest) fun path => uploadFile cfg identity path body

/-- `GET /files/{path:path}`; a newline at the end is no part of `/peek` either. -/
def routedGet (identity : Identity) (rest : String) : Handler Got :=
  routed (pathParam rest) fun path => getFile cfg identity path

/-- `DELETE /files/{path:path}`. -/
def routedDelete (identity : Identity) (rest : String) : Handler Unit :=
  routed (pathParam rest) fun path => deleteFile identity path

end Cassetta.Files
