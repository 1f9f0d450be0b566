import Cassetta.Surface.Common

/-!
# The two-phase send

Phase one is `prepare_send_init`, behind both `POST /uploads` and the MCP tool. Phase two is
the tar upload, which goes on for as long as the client keeps sending, or the inline send.
The entries a tar stream yields are given; parsing them is the library's.
-/

namespace Cassetta

/-! ## Strings -/

/-- `":" in s`. -/
def hasColon (s : String) : Bool := s.toList.contains ':'

/-- The text of a manifest refusal's reason. -/
def ManifestReason.label : ManifestReason → String
  | .empty => "empty"
  | .absolute => "absolute"
  | .traversal => "traversal"
  | .invalidChar => "invalid_char"
  | .reservedName => "reserved_name"
  | .duplicate => "duplicate"
  | .prefixCollision _ => "prefix_collision"

/-! ## Phase one -/

/-- `SendManifest`. -/
structure SendManifest where
  files : List ManifestFile
  fileCount : Option Int := none
  deriving DecidableEq, Repr

/-- `SendInitResult`. -/
structure SendInitResult where
  bundleId : Id
  mode : UploadMode
  token : Token
  expiresAt : Nat
  uploadUrl : Option String
  deriving DecidableEq, Repr

/-- `_manifest_from_input`. -/
def manifestFromInput (raw : SendManifest) : Option UploadManifest :=
  if raw.fileCount.getD raw.files.length = raw.files.length then
    some ⟨raw.files.length, raw.files⟩
  else none

/-- `_enrich_manifest_mimes`. -/
def enrichManifestMimes (cfg : Config) (m : UploadManifest) : List FileRecord :=
  m.files.map fun f => ⟨f.name, f.size, cfg.pickMime f.name f.mime⟩

/-- `_recipient_of`. -/
def recipientOf (target : String) : String :=
  rstripSlash (removePrefix (rstripSlash target) "inbox/")

/-- Step 1: parse and validate the manifest. -/
def parseManifest (raw : SendManifest) : Except Exc UploadManifest :=
  match manifestFromInput raw with
  | none => .error (.manifest "malformed" "")
  | some m =>
    match validateManifest (m.files.map (·.name)) with
    | .error (reason, name) => .error (.manifest reason.label name)
    | .ok () => .ok m

/-- Step 3: the recipient behind `to`. -/
def resolveRecipient (to_ : String) (senderLabel : Option String) : Handler String := do
  let answer ← resolveAlias to_ senderLabel
  match ← orCollaborator answer with
  | none => if hasColon to_ then throw (.unknownRecipient to_) else pure to_
  | some resolved =>
    let targets := match senderLabel with
      | some label =>
        if 1 < resolved.inboxTargets.length then
          resolved.inboxTargets.filter fun t => !endsWith (rstripSlash t) label
        else resolved.inboxTargets
      | none => resolved.inboxTargets
    match targets with
    | [] => throw .lookup
    | target :: _ => pure (recipientOf target)

/-- `prepare_send_init`. -/
def prepareSendInit (cfg : Config) (to_ path : String) (raw : SendManifest) (identity : Identity)
    (senderLabel : Option String) (allowInline : Bool) : Handler SendInitResult := do
  match parseManifest raw with
  | .error e => throw e
  | .ok manifest => do
    validateOr cfg.allowedPathChars path fun _ => .manifest "invalid_char" path
    let recipient ← resolveRecipient to_ senderLabel
    enforce identity (.inbox recipient) .write .accessDenied
    match checkManifestAgainstLimits manifest cfg.limits with
    | .error r => throw (.limits r)
    | .ok policyMode => do
      let mode := if allowInline then policyMode else .batch
      let bundleId ← newId
      let t ← now
      let fresh ← newId
      let iat := wholeSeconds t
      let ttl := cfg.limits.uploadTokenTtl
      let claims := uploadClaims (inboxPath recipient path) bundleId
        (match senderLabel with
          | some label => if label = "" then identity.label else label
          | none => identity.label)
        recipient mode (enrichManifestMimes cfg manifest) ttl iat
      pure
        { bundleId, mode
          token := sign claims cfg.jwtPrimaryKey fresh
          expiresAt := iat + ttl
          uploadUrl := match mode with
            | .inline => none
            | .batch => some (rstripSlash cfg.publicBaseUrl ++ "/upload/" ++
                Percent.quote (inboxPath recipient path)) }

/-- `create_upload_session`, its errors as HTTP ones. -/
def createUploadSession (cfg : Config) (identity : Identity) (to_ path : String)
    (raw : SendManifest) : Handler SendInitResult :=
  tryCatch (prepareSendInit cfg to_ path raw identity (some identity.label) false) fun e =>
    match e with
    | .manifest reason name => throw (.upload 422 "invalid_manifest" reason (some name))
    | .unknownRecipient name =>
      throw (.upload 404 "unknown_recipient" "unknown_recipient" (some name))
    | .accessDenied => throw httpForbidden
    | e => throw e

/-! ## Tokens -/

/-- The `reason` an endpoint gives for a token it refuses. -/
def TokenError.reason : TokenError → String
  | .expired => "expired"
  | .notYetValid => "immature"
  | .invalidSignature => "bad_signature"
  | .missingClaim _ => "missing_claim"
  | .revoked _ => "revoked"
  | .decode => "invalid"

/-- The name of a required claim. -/
def RequiredClaim.name : RequiredClaim → String
  | .exp => "exp"
  | .nbf => "nbf"
  | .iat => "iat"
  | .jti => "jti"

/-- The claim a refusal names. -/
def TokenError.claim : TokenError → Option String
  | .missingClaim c => some c.name
  | _ => none

/-- Verify a token with the keys in force. -/
def verifyToken (token : Token) (refusal : TokenError → Exc) : Handler Claims := do
  let (primary, secondary) ← verifyKeys
  let t ← now
  match verify t token primary secondary with
  | .ok claims => pure claims
  | .error e => throw (refusal e)

/-! ## Phase two: the tar upload -/

namespace Upload

/-- One entry the tar parser yields. -/
structure TarEntry where
  name : String
  isReg : Bool
  size : Int
  data : Bytes
  deriving DecidableEq, Repr

/-- How a tar stream ends. -/
inductive TarEnd where
  | complete
  | tarError
  | broken
  deriving DecidableEq, Repr

/-- An upload that is under way. -/
structure Task where
  handle : Nat
  manifestFiles : List FileRecord
  bundleId : Id
  sender : Option String
  seen : List String := []
  bytesTotal : Nat := 0
  deriving DecidableEq, Repr

/-- `DEFAULT_PER_FILE_MAX`. -/
def defaultPerFileMax : Nat := 100 * 1024 * 1024

/-- `_map_jwt_error`. -/
def mapJwtError (e : TokenError) : Exc := .upload 401 "unauthenticated" e.reason e.claim

/-- The text of a conflict's kind. -/
def conflictKind : ConflictKind → String
  | .shadowParent => "shadow_parent"
  | .shadowChild => "shadow_child"

/-- `upload_bundle`, up to the open writer. The token's path has to be the decoded route
parameter. -/
def begin (token : Option Token) (bundlePath : String) : Handler Task := do
  match token with
  | none => throw (.upload 401 "unauthenticated" "missing_bearer" none)
  | some token => do
    let claims ← verifyToken token mapJwtError
    if claims.mode ≠ some .batch then throw (.upload 422 "unauthenticated" "wrong_mode" none)
    else if Percent.unquote bundlePath ≠ claims.bundlePath.getD "" then
      throw (.upload 401 "unauthenticated" "bundle_path_mismatch" none)
    else match claims.bundleId with
      | none => throw .lookup
      | some bundleId => do
        match ← openBundleWrite (claims.bundlePath.getD "") with
        | .ok handle => pure ⟨handle, claims.manifest.getD [], bundleId, claims.sender, [], 0⟩
        | .error (.bundlePathConflict _ kind) =>
          throw (.upload 409 "bundle_path_conflict" (conflictKind kind) none)
        | .error (.osError .exist) => throw (.upload 409 "bundle_path_conflict" "occupied" none)
        | .error e => throw (.storage e)

/-- `_ManifestViolation`, as it is answered. -/
def violation (reason name : String) : Exc := .upload 400 "manifest_violation" reason (some name)

/-- `by_name[name]`; the last entry of a name counts. -/
def byName (files : List FileRecord) (name : String) : Option FileRecord :=
  files.reverse.find? (·.name = name)

/-- Whatever fails aborts the writer. -/
def orAbort {α : Type} (handle : Nat) (x : Handler α) : Handler α :=
  tryCatch x fun e => do
    abort handle
    throw e

/-- One turn of the loop of `_stream_tar_into_writer`. -/
def entry (cfg : Config) (task : Task) (info : TarEntry) : Handler Task :=
  orAbort task.handle (
    if ¬info.isReg then throw (violation "non_regular_entry" info.name)
    else match byName task.manifestFiles info.name with
      | none => throw (violation "extra_file" info.name)
      | some f =>
        if info.size ≠ f.size then throw (violation "wrong_size" info.name)
        else if cfg.limits.perFileMax.getD defaultPerFileMax < info.size then
          throw (.limits ⟨.capExceeded, .perFileMax,
            some (cfg.limits.perFileMax.getD defaultPerFileMax), info.size⟩)
        else if (info.data.length : Int) ≠ f.size then throw (violation "wrong_size" info.name)
        else do
          let _ ← writeFile task.handle info.name info.data
          pure { task with
            seen := task.seen ++ [info.name]
            bytesTotal := task.bytesTotal + info.data.length })

/-- `"bundle" if len(files) > 1 else "file"`. -/
def contentTypeOf (files : List FileRecord) : String :=
    if 1 < files.length then "bundle" else "file"

/-- The end of `upload_bundle`. -/
def finish (task : Task) (end_ : TarEnd) : Handler Unit :=
  orAbort task.handle (
    match end_ with
    | .tarError => throw (.upload 400 "tar_parse_error" "tar_parse_error" none)
    | .broken => throw .lookup
    | .complete =>
      match ((task.manifestFiles.map (·.name)).filter (· ∉ task.seen)).insertionSort (· ≤ ·) with
      | first :: _ => throw (violation "missing_file" first)
      | [] => do
        let createdAt ← now
        commit task.handle
          { bundleId := task.bundleId
            sender := task.sender
            createdAt
            contentType := contentTypeOf task.manifestFiles
            fileCount := task.manifestFiles.length
            files := task.manifestFiles })

/-- The loop of `_stream_tar_into_writer`. -/
def streamTar (cfg : Config) : Task → List TarEntry → Handler Task
  | task, [] => pure task
  | task, info :: rest => do
    let task' ← entry cfg task info
    streamTar cfg task' rest

/-- `upload_bundle` as a whole, when nothing comes in between. -/
def uploadBundle (cfg : Config) (token : Option Token) (bundlePath : String)
    (infos : List TarEntry) (end_ : TarEnd) : Handler Unit := do
  let task ← begin token bundlePath
  let task' ← streamTar cfg task infos
  finish task' end_

end Upload

/-! ## Phase two: the inline send -/

inductive InlineEncoding where
  | utf8
  | base64
  deriving DecidableEq, Repr

/-- `SendInlineFile`. -/
structure SendInlineFile where
  name : String
  content : String
  encoding : InlineEncoding
  deriving DecidableEq, Repr

/-- `_decode_inline_content`. -/
def decodeInlineContent (content : String) : InlineEncoding → Option Bytes
  | .utf8 => some (Percent.utf8 content)
  | .base64 => Base64.decode (Percent.utf8 content)

/-- A `manifest_violation` of an inline send. -/
def inlineViolation (reason name : String) : Exc :=
  .valueNamed ("manifest_violation: reason=" ++ reason) name

/-- Decode the files of an inline send and check them against the manifest; the latest one
of a name stands first. -/
def decodeInlineFiles (manifest : List FileRecord) :
    List (String × Bytes) → List SendInlineFile → Except Exc (List (String × Bytes))
  | done, [] => .ok done
  | done, f :: rest =>
    match Upload.byName manifest f.name with
    | none => .error (inlineViolation "extra_file" f.name)
    | some declared =>
      match decodeInlineContent f.content f.encoding with
      | none => .error (inlineViolation "missing_or_bad_encoding" f.name)
      | some data =>
        if (data.length : Int) ≠ declared.size then .error (inlineViolation "wrong_size" f.name)
        else decodeInlineFiles manifest ((f.name, data) :: done) rest

/-- The writes of an inline send, in the order of the manifest. -/
def writeInlineFiles (handle : Nat) (decoded : List (String × Bytes)) :
    List FileRecord → Handler Unit
  | [] => pure ()
  | f :: rest =>
    match decoded.find? (·.1 = f.name) with
    | none => throw .lookup
    | some (_, data) => do
      let _ ← writeFile handle f.name data
      writeInlineFiles handle decoded rest

/-- `_cassetta_send_inline`. -/
def cassettaSendInline (token : Token) (files : List SendInlineFile) : Handler Id := do
  let claims ← verifyToken token fun e => .value ("unauthenticated: reason=" ++ e.reason)
  if claims.mode ≠ some .inline then throw (.value "unauthenticated: reason=wrong_mode")
  else
    let manifest := claims.manifest.getD []
    match decodeInlineFiles manifest [] files with
    | .error e => throw e
    | .ok decoded =>
      match ((manifest.map (·.name)).filter (· ∉ decoded.map Prod.fst)).insertionSort (· ≤ ·) with
      | first :: _ => throw (inlineViolation "missing_file" first)
      | [] =>
        match claims.bundlePath, claims.bundleId with
        | some bundlePath, some bundleId => do
          match ← openBundleWrite bundlePath with
          | .error (.bundlePathConflict _ kind) =>
            throw (.value ("bundle_path_conflict: kind=" ++ Upload.conflictKind kind))
          | .error (.osError .exist) => throw (.value "bundle_path_conflict: kind=occupied")
          | .error e => throw (.storage e)
          | .ok handle =>
            Upload.orAbort handle (do
              writeInlineFiles handle decoded manifest
              let createdAt ← now
              commit handle
                { bundleId
                  sender := claims.sender
                  createdAt
                  contentType := Upload.contentTypeOf manifest
                  fileCount := manifest.length
                  files := manifest }
              pure bundleId)
        | _, _ => throw .lookup

end Cassetta
