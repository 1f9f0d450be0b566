import Cassetta.Core.Base64
import Cassetta.Core.Percent
import Cassetta.Surface.Wire

/-!
# What the surfaces share

The access check, the reads and deletes with their two ways of taking a missing bundle, the
bundle writer loop, the listing loop, and the two envelopes of a read. Log lines and the
metrics that go through `safe_emit` are left out: neither can fail nor be read back.
-/

namespace Cassetta

/-! ## Paths -/

/-- `f"store/{path}"`. -/
def storePath (path : String) : String := "store" ++ "/" ++ path

/-- `f"inbox/{agent}/{path}"`. -/
def inboxPath (agent path : String) : String := "inbox" ++ "/" ++ agent ++ "/" ++ path

/-- `"store/" + prefix.lstrip("/")`. -/
def storeScanPrefix (pre : String) : String := "store" ++ "/" ++ lstripSlash pre

/-- A path check that answers with the surface's own error. -/
def validateOr (allowed : Char → Bool) (path : String) (refusal : PathValidationError → Exc) :
    Handler Unit :=
  match validatePath allowed path with
  | .ok () => pure ()
  | .error e => throw (refusal e)

/-- `HTTPException(400, detail=str(e))`. -/
def badPath (e : PathValidationError) : Exc := .http 400 e.message

/-- `ValueError(f"Invalid path: {e}")`. -/
def invalidPath (e : PathValidationError) : Exc := .value ("Invalid path: " ++ e.message)

/-- `HTTPException(404, detail=f"File not found: {path}")`. -/
def httpNotFound (path : String) : Exc := .http 404 ("File not found: " ++ path)

/-- `ValueError(f"File not found: {path}")`. -/
def valueNotFound (path : String) : Exc := .value ("File not found: " ++ path)

/-! ## Access -/

/-- `_enforce`. -/
def enforce (identity : Identity) (resource : Resource) (action : Action) (denied : Exc) :
    Handler Unit := do
  let answer ← check identity resource action
  let allowed ← orCollaborator answer
  if allowed then pure () else throw denied

/-- `HTTPException(403, detail="Forbidden")`. -/
def httpForbidden : Exc := .http 403 "Forbidden"

/-- `ValueError("Forbidden")`. -/
def valueForbidden : Exc := .value "Forbidden"

/-! ## Reading and deleting -/

/-- `read_bundle_meta`, a missing bundle being the surface's own error. -/
def readMetaOr (path : String) (missing : Exc) : Handler BundleMeta := do
  match ← readBundleMeta path with
  | .ok m => pure m
  | .error .fileNotFound => throw missing
  | .error e => throw (.storage e)

/-- `delete_bundle`, a missing bundle being the surface's own error. -/
def deleteOr (path : String) (missing : Exc) : Handler Unit := do
  match ← deleteBundle path with
  | .ok () => pure ()
  | .error .fileNotFound => throw missing
  | .error e => throw (.storage e)

/-- `delete_bundle`, a missing bundle being fine. -/
def deleteQuiet (path : String) : Handler Unit := do
  match ← deleteBundle path with
  | .ok () => pure ()
  | .error .fileNotFound => pure ()
  | .error e => throw (.storage e)

/-- `_is_expired_by_meta`. -/
def isExpiredByMeta (cfg : Config) (createdAt : Nat) : Handler Bool :=
  if cfg.defaultTtl = 0 then pure false
  else do
    let t ← now
    pure (decide (createdAt + secondsToMicros cfg.defaultTtl < t))

/-- `_compute_remaining_ttl`. -/
def computeRemainingTtl (cfg : Config) (createdAt : Nat) : Handler (Option Nat) :=
  if cfg.defaultTtl = 0 then pure none
  else do
    let t ← now
    pure (some (wholeSeconds (createdAt + secondsToMicros cfg.defaultTtl - t)))

/-- The read at the head of every get and explicit pick: a bundle past its time is deleted
and then missing. -/
def readFreshOr (cfg : Config) (path : String) (missing : Exc) : Handler BundleMeta := do
  let m ← readMetaOr path missing
  let expired ← isExpiredByMeta cfg m.createdAt
  if expired then do
    deleteQuiet path
    throw missing
  else pure m

/-- The read at the head of a peek: a bundle past its time is missing. -/
def peekFreshOr (cfg : Config) (path : String) (missing : Exc) : Handler BundleMeta := do
  let m ← readMetaOr path missing
  let expired ← isExpiredByMeta cfg m.createdAt
  if expired then throw missing else pure m

/-- `_collect_bundle_files`. -/
def collectBundleFiles (path : String) : List FileRecord → Handler (List (String × Bytes))
  | [] => pure []
  | f :: rest => do
    let r ← openBundleFileRead path f.name
    let data ← orRaise r
    let others ← collectBundleFiles path rest
    pure ((f.name, data) :: others)

/-! ## Writing -/

/-- One file a client sends. -/
structure FilePart where
  name : String
  data : Bytes
  mime : Option String := none
  deriving DecidableEq, Repr

/-- The body of a REST write: raw, or the items of a form. -/
inductive Body where
  | raw (data : Bytes)
  | multipart (parts : List FilePart)
  deriving DecidableEq, Repr

/-- The files of a body; a part without a file name is no file, and an empty content type is
none. -/
def Body.fileParts (path : String) : Body → List FilePart
  | .raw data => [⟨lastSegment path, data, none⟩]
  | .multipart parts =>
    (parts.filter (·.name ≠ "")).map fun p => { p with mime := p.mime.filter (· ≠ "") }

/-- The `files` argument of an MCP write, a JSON text. -/
inductive FilesArg where
  | empty
  | malformed
  | entries (files : List (String × String))
  deriving DecidableEq, Repr

/-- Which of `content` and `files` an MCP write goes by, and the files it makes of it. -/
def mcpFileParts (path content : String) (files : FilesArg) : Except Exc (List FilePart) :=
  match files with
  | .empty =>
    if content = "" then .error (.value "Provide either 'content' or 'files'")
    else .ok [⟨lastSegment path, Percent.utf8 content, none⟩]
  | .malformed =>
    if content = "" then .error (.value "malformed files")
    else .error (.value "Provide either 'content' or 'files', not both")
  | .entries l =>
    if content = "" then .ok (l.map fun e => ⟨e.1, Percent.utf8 e.2, none⟩)
    else .error (.value "Provide either 'content' or 'files', not both")

/-- The manifest the limits policy sees. -/
def uploadManifest (files : List FilePart) : UploadManifest :=
  ⟨files.length, files.map fun f => ⟨f.name, f.data.length, f.mime⟩⟩

/-- `_evaluate_or_raise` and `_evaluate_upload_or_raise`: anything but inline is refused. -/
def evaluateUpload (cfg : Config) (files : List FilePart) : Except LimitsRejection Unit :=
  match checkManifestAgainstLimits (uploadManifest files) cfg.limits with
  | .error r => .error r
  | .ok .inline => .ok ()
  | .ok .batch =>
    .error ⟨.batchRequired, .maxInlineSize, cfg.limits.maxInlineSize,
      (uploadManifest files).totalSize⟩

/-- The writes of a bundle, with the records that go into its manifest. -/
def writeFiles (cfg : Config) (handle : Nat) : List FilePart → Handler (List FileRecord)
  | [] => pure []
  | f :: rest => do
    let _ ← writeFile handle f.name f.data
    let records ← writeFiles cfg handle rest
    pure (⟨f.name, f.data.length, cfg.pickMime f.name f.mime⟩ :: records)

/-- `_write_bundle`, `_write_store_bundle` and `_write_inbox_bundle`: whatever fails after
the writer is open aborts it. -/
def writeBundle (cfg : Config) (path : String) (files : List FilePart) (sender : Option String)
    (contentType : String) (bundleId : Id) : Handler BundleMeta := do
  let r ← openBundleWrite path
  let handle ← orRaise r
  tryCatch (do
    let records ← writeFiles cfg handle files
    let createdAt ← now
    let m : BundleMeta :=
      { bundleId, sender, createdAt, contentType, fileCount := records.length, files := records }
    commit handle m
    pure m)
    fun e => do
      abort handle
      throw e

/-! ## Listings -/

/-- One entry of a listing. -/
structure ListingEntry where
  path : String
  bundle : BundleMeta
  remainingTtl : Option Nat
  deriving DecidableEq, Repr

/-- The loop of a listing: unreadable and expired bundles are left out, and the namespace is
cut off the paths. -/
def listingEntries (cfg : Config) (base : String) : List String → Handler (List ListingEntry)
  | [] => pure []
  | path :: rest => do
    match ← readBundleMeta path with
    | .error .fileNotFound => listingEntries cfg base rest
    | .error e => throw (.storage e)
    | .ok m => do
      let expired ← isExpiredByMeta cfg m.createdAt
      if expired then listingEntries cfg base rest
      else do
        let remaining ← computeRemainingTtl cfg m.createdAt
        let others ← listingEntries cfg base rest
        pure (⟨removePrefix path base, m, remaining⟩ :: others)

/-- `entries.sort(key=created_at, reverse=True)`. -/
def newestFirst (entries : List ListingEntry) : List ListingEntry :=
  entries.insertionSort fun a c => c.bundle.createdAt ≤ a.bundle.createdAt

/-- The loop of a pick of the latest bundle, with the newest one so far. -/
def newestBundle (cfg : Config) : Option (String × BundleMeta) → List String →
    Handler (Option (String × BundleMeta))
  | best, [] => pure best
  | best, path :: rest => do
    match ← readBundleMeta path with
    | .error .fileNotFound => newestBundle cfg best rest
    | .error e => throw (.storage e)
    | .ok m => do
      let expired ← isExpiredByMeta cfg m.createdAt
      if expired then newestBundle cfg best rest
      else match best with
        | some (_, m₀) =>
          if m₀.createdAt < m.createdAt then newestBundle cfg (some (path, m)) rest
          else newestBundle cfg best rest
        | none => newestBundle cfg (some (path, m)) rest

/-! ## Envelopes -/

/-- The content of an inline file as it crosses a JSON channel. -/
inductive InlineContent where
  | utf8 (text : String)
  | base64 (text : Bytes)
  deriving DecidableEq

/-- One file of a reference envelope. -/
structure ReferenceFile where
  name : String
  size : Int
  mime : String
  url : String
  deriving DecidableEq, Repr

/-- `ReferenceEnvelope`. -/
structure ReferenceEnvelope where
  bundle : BundleMeta
  files : List ReferenceFile
  downloadToken : Token
  expiresAt : Nat
  deriving DecidableEq, Repr

/-- What a read returns. -/
inductive Envelope where
  | inline (bundle : BundleMeta) (files : List (String × InlineContent))
  | reference (env : ReferenceEnvelope)

/-- The manifest an envelope carries. -/
def Envelope.manifest : Envelope → BundleMeta
  | .inline m _ => m
  | .reference env => env.bundle

/-- `build_inline_envelope`. -/
def buildInlineEnvelope (m : BundleMeta) (payloads : List (String × Bytes)) : Envelope :=
  .inline m (payloads.map fun p =>
    (p.1, match String.fromUTF8? p.2.toByteArray with
      | some text => .utf8 text
      | none => .base64 (Base64.encode p.2)))

/-- `build_download_url`. -/
def buildDownloadUrl (cfg : Config) (bundlePath name : String) : String :=
  rstripSlash cfg.publicBaseUrl ++ "/download/" ++ Percent.quote bundlePath ++ "/" ++
    Percent.quote name

/-- `build_reference_envelope_with_path`. -/
def buildReferenceEnvelopeWithPath (cfg : Config) (m : BundleMeta) (bundlePath : String)
    (token : Token) (expiresAt : Nat) : ReferenceEnvelope where
  bundle := m
  files := m.files.map fun f =>
    ⟨f.name, f.size, if f.mime = "" then "application/octet-stream" else f.mime,
      buildDownloadUrl cfg bundlePath f.name⟩
  downloadToken := token
  expiresAt := expiresAt

/-- `_extract_jti`. -/
def extractJti : Token → Id
  | .signed claims _ => claims.jti.getD 0
  | .malformed => 0

/-- The part both builders share: sign a download token for a bundle. -/
def mintDownload (cfg : Config) (bundlePath : String) (m : BundleMeta) (recipient : String) :
    Handler (Token × Nat) := do
  let t ← now
  let iat := wholeSeconds t
  let fresh ← newId
  let claims := buildClaims bundlePath m recipient cfg.limits.downloadClaimTtl iat
  pure (sign claims cfg.jwtPrimaryKey fresh, iat + cfg.limits.downloadClaimTtl)

/-- `build_reference_payload_for_store`. -/
def buildReferencePayloadForStore (cfg : Config) (bundlePath : String) (m : BundleMeta)
    (recipient : String) : Handler ReferenceEnvelope := do
  let (token, expiresAt) ← mintDownload cfg bundlePath m recipient
  pure (buildReferenceEnvelopeWithPath cfg m bundlePath token expiresAt)

/-- `build_reference_payload_for_inbox`: with `writeClaim` the sidecar is on disk before the
token is returned. -/
def buildReferencePayloadForInbox (cfg : Config) (bundlePath : String) (m : BundleMeta)
    (recipient : String) (writeClaim : Bool) : ClaimHandler ReferenceEnvelope := do
  let (token, expiresAt) ← plain (mintDownload cfg bundlePath m recipient)
  if writeClaim then do
    let createdAt ← plain now
    match ← issueClaim ⟨extractJti token, bundlePath, m.bundleId, recipient, createdAt, []⟩ with
    | .ok () => pure (buildReferenceEnvelopeWithPath cfg m bundlePath token expiresAt)
    | .error _ => throw .bundleClaimed
  else pure (buildReferenceEnvelopeWithPath cfg m bundlePath token expiresAt)

end Cassetta
