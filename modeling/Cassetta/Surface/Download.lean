import Cassetta.Surface.Send

/-!
# The download endpoint

`GET /download/{bundle_path}/{name}` answers with a stream: the handler opens the file, and
the body generator reads it a chunk at a time for as long as the client listens. What the
stream does for the claim happens only when the generator has read the end of the file.
-/

namespace Cassetta.Download

/-- What the endpoint reads of a request. -/
structure Request where
  bearer : Option Token
  rawPath : String
  sender : Option String
  deriving DecidableEq, Repr

/-- An answer that is being streamed: what is still behind the handle, and what has gone out. -/
structure Stream where
  jti : Id
  bundlePath : String
  bundleId : Id
  name : String
  manifestFiles : List FileRecord
  isInbox : Bool
  mime : String
  contentLength : Int
  unread : Bytes
  sent : Bytes := []
  deriving DecidableEq, Repr

/-- `_unauth`. -/
def unauth (reason : String) (claim : Option String := none) : Exc :=
  .download 401 "unauthenticated" reason claim

/-- `_forbidden`. -/
def forbidden (reason : String) : Exc := .download 403 "forbidden" reason none

/-- `_not_found`. -/
def notFound (reason : String) : Exc := .download 404 "not_found" reason none

/-- `_map_jwt_error`. -/
def mapJwtError (e : TokenError) : Exc := unauth e.reason e.claim

/-- `_split_raw_path`: cut off the query, split at the last slash, decode both parts. -/
def splitRawPath (raw : String) : Except Exc (String × String) :=
  let path := raw.toList.takeWhile (· ≠ '?')
  let route := "/download/".toList
  if ¬route.isPrefixOf path then .error (notFound "bundle_gone")
  else
    let remainder := path.drop route.length
    if '/' ∉ remainder then .error (notFound "bundle_gone")
    else
      let name := (remainder.reverse.takeWhile (· ≠ '/')).reverse
      let bundle := remainder.take (remainder.length - name.length - 1)
      .ok (Percent.unquote (String.ofList bundle), Percent.unquote (String.ofList name))

/-- `_resolve_identity_label`; an empty header is none. -/
def resolveIdentityLabel (cfg : Config) (sender : Option String) : Option String :=
  if cfg.devMode then some "*" else sender.filter (· ≠ "")

/-- `entry.get("mime") or "application/octet-stream"`. -/
def contentType (f : FileRecord) : String :=
  if f.mime = "" then "application/octet-stream" else f.mime

/-- `download_file`; the type and the length are in the head of the answer. -/
def downloadFile (cfg : Config) (req : Request) : Handler Stream := do
  match req.bearer with
  | none => throw (unauth "missing_bearer")
  | some token => do
    let claims ← verifyToken token mapJwtError
    match claims.bundlePath, claims.bundleId, claims.recipient, claims.fileNames with
    | none, _, _, _ => throw (unauth "missing_claim" (some "bundle_path"))
    | some _, none, _, _ => throw (unauth "missing_claim" (some "bundle_id"))
    | some _, some _, none, _ => throw (unauth "missing_claim" (some "recipient"))
    | some _, some _, some _, none => throw (unauth "missing_claim" (some "file_names"))
    | some bundlePath, some bundleId, some recipient, some fileNames =>
      match splitRawPath req.rawPath with
      | .error e => throw e
      | .ok (path, name) =>
        if path ≠ bundlePath then throw (unauth "bundle_path_mismatch")
        else if name ∉ fileNames then throw (unauth "name_not_in_claim")
        else match resolveIdentityLabel cfg req.sender with
          | none => throw (unauth "identity_missing")
          | some label =>
            if label ≠ "*" ∧ label ≠ recipient then throw (forbidden "identity_mismatch")
            else do
              let m ← readMetaOr bundlePath (notFound "bundle_gone")
              match m.files.find? (·.name = name) with
              | none => throw (notFound "name_not_in_manifest")
              | some f => do
                match ← openBundleFileRead bundlePath name with
                | .error .fileNotFound => throw (notFound "bundle_gone")
                | .error e => throw (.storage e)
                | .ok data => do
                  sendHead [contentType f]
                  pure
                    { jti := claims.jti.getD 0
                      bundlePath, bundleId, name
                      manifestFiles := m.files
                      isInbox := startsWith bundlePath "inbox/"
                      mime := contentType f
                      contentLength := f.size
                      unread := data }

/-- `GET /download/{full_path:path}`; the handler does not read the parameter. -/
def getDownload (cfg : Config) (req : Request) : Handler Stream :=
  routed (routeParam "/download/" (String.ofList (req.rawPath.toList.takeWhile (· ≠ '?'))))
    fun _ => downloadFile cfg req

/-! ## The body -/

/-- `chunk_size`. -/
def chunkSize : Nat := 64 * 1024

/-- One `handle.read(chunk_size)` that is not at the end, and the `yield`. -/
def Stream.advance (st : Stream) : Stream :=
  { st with
    sent := st.sent ++ st.unread.take chunkSize
    unread := st.unread.drop chunkSize }

/-- Nothing of the content is lost or repeated on the way out. -/
theorem Stream.advance_content (st : Stream) :
    st.advance.sent ++ st.advance.unread = st.sent ++ st.unread := by
  simp [Stream.advance]

/-- `_post_stream_claim_accounting`. -/
def postStreamClaimAccounting (jti : Id) (bundlePath name : String)
    (manifestFiles : List FileRecord) : ClaimHandler Unit := do
  match ← getClaim jti with
  | none => pure ()
  | some _ => do
    match ← markFetched jti name with
    | .error _ => pure ()
    | .ok updated =>
      if manifestFiles.all (fun f => f.name ∈ updated.filesFetched) then do
        plain (deleteQuiet bundlePath)
        deleteClaim jti
      else pure ()

/-- The end of `_body_generator`, after the handle is closed. -/
def Stream.finish (st : Stream) : ClaimHandler Unit :=
  if st.isInbox then postStreamClaimAccounting st.jti st.bundlePath st.name st.manifestFiles
  else pure ()

end Cassetta.Download
