import Cassetta.Surface.Common

/-!
# Inboxes over REST

Listing, peek, get, pick and delete of `/inbox/{agent}/...`. Neither the agent nor the path
is validated.
-/

namespace Cassetta.Inbox

/-- The body of a 410. -/
structure Gone where
  error : String
  reason : String
  replacement : String
  deriving DecidableEq, Repr

/-- `send_to_inbox_removed`. -/
def sendToInboxRemoved (_agent _path : String) : Handler Gone :=
  pure ⟨"gone", "replaced_by_two_phase_upload", "POST /upload/\x7bbundle_path\x7d"⟩

variable (cfg : Config)

/-- `iter_active_by_bundle_path`, its keys. -/
def hiddenPaths : ClaimHandler (List String) := do
  let t ← plain now
  let claims ← iterClaims
  pure ((claims.filter fun c =>
    t < c.createdAt + secondsToMicros cfg.limits.downloadClaimTtl).map (·.bundlePath))

/-- The listing both surfaces make of an inbox: claimed bundles are hidden. -/
def listing (agent pre : String) : ClaimHandler (List ListingEntry) := do
  let hidden ← hiddenPaths cfg
  let refs ← plain (listBundles (inboxPath agent pre) false)
  let entries ← plain (listingEntries cfg (inboxPath agent "")
    ((refs.map (·.path)).filter (· ∉ hidden)))
  pure (newestFirst entries)

/-- `list_inbox`. -/
def listInbox (identity : Identity) (agent pre : String) : ClaimHandler (List ListingEntry) := do
  plain (enforce identity (.inbox agent) .list httpForbidden)
  listing cfg agent pre

/-- `peek_inbox_file`. -/
def peekInboxFile (identity : Identity) (agent path : String) : Handler BundleMeta := do
  enforce identity (.inbox agent) .peek httpForbidden
  let m ← peekFreshOr cfg (inboxPath agent path) (httpNotFound path)
  sendHead [m.sender.getD ""]
  pure m

/-- `get_inbox_file`. -/
def getInboxFile (identity : Identity) (agent path : String) : ClaimHandler Envelope := do
  plain (enforce identity (.inbox agent) .read httpForbidden)
  let m ← plain (readFreshOr cfg (inboxPath agent path) (httpNotFound path))
  match evaluateDownload cfg.limits m.totalSize with
  | .reference => do
    let env ← buildReferencePayloadForInbox cfg (inboxPath agent path) m agent false
    plain (sendHead [m.sender.getD ""])
    pure (.reference env)
  | .inline => do
    let payloads ← plain (collectBundleFiles (inboxPath agent path) m.files)
    plain (sendHead [m.sender.getD ""])
    pure (buildInlineEnvelope m payloads)

/-- Find the bundle to pick: the newest one, or the one at the path. -/
def resolvePick (agent path : String) (noFiles missing : Exc) : Handler (String × BundleMeta) :=
  if path = "latest" then do
    let refs ← listBundles (inboxPath agent "") false
    match ← newestBundle cfg none (refs.map (·.path)) with
    | some found => pure found
    | none => throw noFiles
  else do
    let m ← readFreshOr cfg (inboxPath agent path) missing
    pure (inboxPath agent path, m)

/-- The rest of a pick: hand out a claimed token, or read everything and delete. -/
def consume (agent : String) (bundlePath : String) (m : BundleMeta) (missing : Exc) :
    ClaimHandler Envelope :=
  match evaluateDownload cfg.limits m.totalSize with
  | .reference => do
    let env ← tryCatch (buildReferencePayloadForInbox cfg bundlePath m agent true) fun e =>
      if e = .bundleClaimed then throw missing else throw e
    pure (.reference env)
  | .inline => do
    let payloads ← plain (collectBundleFiles bundlePath m.files)
    plain (deleteQuiet bundlePath)
    pure (buildInlineEnvelope m payloads)

/-- `pick_inbox_file`; with the envelope goes the path in `X-Cassetta-Path`. -/
def pickInboxFile (identity : Identity) (agent path : String) :
    ClaimHandler (Envelope × String) := do
  plain (enforce identity (.inbox agent) .pick httpForbidden)
  let (bundlePath, m) ← plain (resolvePick cfg agent path (.http 404 "No files in inbox")
    (httpNotFound path))
  let env ← consume cfg agent bundlePath m (httpNotFound path)
  pure (env, removePrefix bundlePath (inboxPath agent ""))

/-- `pick_inbox_file` behind its route. What the head of its answer holds is encoded when the bundle
has been handed out. -/
def postPick (identity : Identity) (agent rest : String) : ClaimHandler Envelope :=
  routed (innerParam rest) fun path => do
    let (env, listed) ← pickInboxFile cfg identity agent path
    plain (sendHead [env.manifest.sender.getD "", listed])
    pure env

/-- `delete_inbox_file`. -/
def deleteInboxFile (identity : Identity) (agent path : String) : Handler Unit := do
  enforce identity (.inbox agent) .delete httpForbidden
  deleteOr (inboxPath agent path) (httpNotFound path)

end Cassetta.Inbox
