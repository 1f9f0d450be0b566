import Cassetta.Surface.Broadcast
import Cassetta.Surface.Inbox
import Cassetta.Surface.Send

/-!
# The MCP tools

The tools call the same storage as the REST routes. Their metrics do not go through
`safe_emit`, so a provider that raises reaches the caller.
-/

namespace Cassetta.Mcp

variable (cfg : Config)

/-- Who calls: the identity and the sender label the middleware has set. -/
structure Caller where
  identity : Option Identity
  senderLabel : Option String
  deriving DecidableEq, Repr

/-- `get_current_identity() or Identity(label="dev", extra={"dev": True})`. -/
def Caller.effective (c : Caller) : Identity := c.identity.getD devIdentity

/-- `_enforce`. -/
def enforceMcp (caller : Caller) (resource : Resource) (action : Action) : Handler Unit :=
  enforce caller.effective resource action valueForbidden

/-- A counter with an `action` tag. -/
def operation (name action : String) : Counter := ⟨name, 1, [("action", action)]⟩

/-- `_cassetta_send_init`. -/
def cassettaSendInit (caller : Caller) (to_ path : String) (manifest : SendManifest) :
    Handler SendInitResult :=
  tryCatch (prepareSendInit cfg to_ path manifest caller.effective caller.senderLabel true) fun e =>
    match e with
    | .limits r => throw (.valueLimits r)
    | e => throw e

/-- `_cassetta_put`. The bundle at the path is deleted before the new one is written. -/
def cassettaPut (caller : Caller) (path content : String) (files : FilesArg) : Handler Nat := do
  validateOr cfg.allowedPathChars path invalidPath
  if startsWith path "inbox/" ∨ startsWith path "store/" then
    throw (.valueNamed "Invalid path: Reserved path prefix in" path)
  else match mcpFileParts path content files with
    | .error e => throw e
    | .ok parts =>
      match evaluateUpload cfg parts with
      | .error r => throw (.valueLimits r)
      | .ok () => do
        enforceMcp caller (.files path) .write
        let bundleId ← newId
        deleteQuiet (storePath path)
        let _ ← writeBundle cfg (storePath path) parts none "application/octet-stream" bundleId
        increment (operation "cassetta.files.operations" "put")
        increment ⟨"cassetta.files.bytes", (uploadManifest parts).totalSize, [("action", "put")]⟩
        pure parts.length

/-- `_cassetta_get`. -/
def cassettaGet (caller : Caller) (path : String) : Handler Envelope := do
  validateOr cfg.allowedPathChars path invalidPath
  enforceMcp caller (.files path) .read
  let m ← readFreshOr cfg (storePath path) (valueNotFound path)
  increment (operation "cassetta.files.operations" "get")
  match evaluateDownload cfg.limits m.totalSize with
  | .reference => do
    let env ← buildReferencePayloadForStore cfg (storePath path) m caller.effective.label
    pure (.reference env)
  | .inline => do
    let payloads ← collectBundleFiles (storePath path) m.files
    increment ⟨"cassetta.files.bytes", m.totalSize, [("action", "get")]⟩
    pure (buildInlineEnvelope m payloads)

/-- `_cassetta_delete`. -/
def cassettaDelete (caller : Caller) (path : String) : Handler Unit := do
  validateOr cfg.allowedPathChars path invalidPath
  enforceMcp caller (.files path) .delete
  deleteOr (storePath path) (valueNotFound path)
  increment (operation "cassetta.files.operations" "delete")

/-- `_cassetta_list`. -/
def cassettaList (caller : Caller) (pre : String) : Handler (List ListingEntry) := do
  enforceMcp caller (.files "*") .list
  let refs ← listBundles (storeScanPrefix pre) false
  let entries ← listingEntries cfg "store/" (refs.map (·.path))
  if entries = [] then pure []
  else do
    increment (operation "cassetta.files.operations" "list")
    pure entries

/-- `agent or _sender_label.get() or ""`. -/
def Caller.target (c : Caller) (agent : String) : String :=
  if agent = "" then c.senderLabel.getD "" else agent

/-- `_cassetta_inbox`. -/
def cassettaInbox (caller : Caller) (agent pre : String) : ClaimHandler (List ListingEntry) := do
  if caller.target agent = "" then
    throw (.value "No agent specified and no sender identity available")
  else do
    plain (enforceMcp caller (.inbox (caller.target agent)) .list)
    let entries ← Inbox.listing cfg (caller.target agent) pre
    if entries = [] then pure []
    else do
      plain (increment (operation "cassetta.inbox.operations" "list"))
      pure entries

/-- The path check of a pick; `latest` is no path. -/
def validatePickPath (path : String) : Handler Unit :=
  if path = "latest" then pure () else validateOr cfg.allowedPathChars path invalidPath

/-- `_cassetta_pick`. -/
def cassettaPick (caller : Caller) (path : String) : ClaimHandler Envelope := do
  if caller.target "" = "" then throw (.value "No sender identity available for inbox access")
  else do
    plain (enforceMcp caller (.inbox (caller.target "")) .pick)
    plain (validatePickPath cfg path)
    let (bundlePath, m) ← plain (Inbox.resolvePick cfg (caller.target "") path
      (.value "No files in inbox") (valueNotFound path))
    let env ← Inbox.consume cfg (caller.target "") bundlePath m (valueNotFound path)
    plain (increment (operation "cassetta.inbox.operations" "pick"))
    pure env

/-- What `_cassetta_peek` makes of its argument: the bundle path, the resource and the
counter. -/
def peekTarget (path : String) : Except Exc (String × Resource × String) :=
  if startsWith path "inbox/" then
    let remainder := removePrefix path "inbox/"
    if ¬hasSlash remainder then .error (.value ("Invalid path: " ++ path))
    else
      let (agent, filePath) := splitFirst remainder
      match validatePath cfg.allowedPathChars filePath with
      | .error e => .error (invalidPath e)
      | .ok () => .ok (path, .inbox agent, "cassetta.inbox.operations")
  else if startsWith path "store/" then
    match validatePath cfg.allowedPathChars (removePrefix path "store/") with
    | .error e => .error (invalidPath e)
    | .ok () => .ok (path, .files (removePrefix path "store/"), "cassetta.files.operations")
  else match validatePath cfg.allowedPathChars path with
    | .error e => .error (invalidPath e)
    | .ok () => .ok (storePath path, .files path, "cassetta.files.operations")

/-- `_cassetta_peek`. -/
def cassettaPeek (caller : Caller) (path : String) : Handler BundleMeta := do
  match peekTarget cfg path with
  | .error e => throw e
  | .ok (bundlePath, resource, counter) => do
    enforceMcp caller resource .peek
    let m ← peekFreshOr cfg bundlePath (.value ("Not found: " ++ path))
    increment (operation counter "peek")
    pure m

/-- `_cassetta_broadcast`; the rate limit is only checked for a call that came over HTTP. -/
def cassettaBroadcast (caller : Caller) (overHttp : Bool) (path content : String)
    (files : FilesArg) : Handler BroadcastReport := do
  let admitted ← if overHttp then checkRateLimit else pure true
  if ¬admitted then do
    increment ⟨"cassetta.rate_limit.hits", 1, [("route", "broadcast"), ("reason", "rate")]⟩
    throw .rateLimitExceeded
  else do
    validateOr cfg.allowedPathChars path invalidPath
    match mcpFileParts path content files with
    | .error e => throw e
    | .ok parts =>
      match evaluateUpload cfg parts with
      | .error r => throw (.valueLimits r)
      | .ok () =>
        tryCatch (fanOut cfg caller.effective path parts caller.senderLabel) fun e =>
          match e with
          | .fanoutCapExceeded n => do
            increment ⟨"cassetta.rate_limit.hits", 1,
              [("route", "broadcast"), ("reason", "fanout_cap")]⟩
            throw (.fanoutCapExceeded n)
          | e => throw e

/-- `_cassetta_agents`. -/
def cassettaAgents (caller : Caller) : Handler (List String) := do
  let (agents, tag) ← Agents.visibleActive caller.effective
  increment ⟨"cassetta.agents.list", 1, [("result", tag)]⟩
  pure agents

end Cassetta.Mcp
