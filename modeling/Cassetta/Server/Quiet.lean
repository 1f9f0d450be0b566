import Cassetta.Core.Emission
import Cassetta.Server.Rules

/-!
# Handlers that count nothing

The metrics that go through `safe_emit` are left out of the surfaces, so that a call of the
provider in a program is one whose exception goes up. Here are the parts and the handlers that
make none.
-/

namespace Cassetta

open Prog

variable {cfg : Config} {α β : Type}

/-! ## Emissions -/

/-- A call of the metrics provider. -/
def Call.Emits : Call → Prop
  | .increment _ => True
  | _ => False

def AnyCall.Emits : AnyCall → Prop
  | .plain c => c.Emits
  | .claim _ => False

/-- A handler that counts nothing. -/
abbrev Handler.Quiet (x : Handler α) : Prop := OnlyE (fun c => ¬c.Emits) x

/-- A handler with the claim store that counts nothing. -/
abbrev ClaimHandler.Quiet (x : ClaimHandler α) : Prop := OnlyE (fun c => ¬c.Emits) x

/-- A quiet handler is quiet among those with the claim store. -/
theorem Handler.Quiet.plain {x : Handler α} (h : x.Quiet) :
    ClaimHandler.Quiet (Cassetta.plain x) := OnlyE.embedE h

/-- `safe_emit`, for a counter: what the provider raises goes no further. -/
def safeEmit (counter : Counter) : Handler Unit :=
  tryCatch (increment counter) fun _ => pure ()

/-- A guarded emission in front of a program decides nothing. -/
theorem instrumented_safeEmit (counter : Counter) {x y : Handler α}
    (h : Instrumented Call.Emits x.run y.run) :
    Instrumented Call.Emits x.run (safeEmit counter >>= fun _ => y).run := by
  have hcall : (safeEmit counter >>= fun _ => y).run =
      .call (.increment counter) fun r => (match (r : Except Unit Unit) with
        | .ok () => y.run
        | .error () => y.run) := by
    refine congrArg (Prog.call (Call.increment counter)) (funext fun r => ?_)
    change Except Unit Unit at r
    cases r <;> rfl
  rw [hcall]
  refine .emit trivial fun r => ?_
  split <;> exact h

/-! ## The shared parts -/

section Parts

/-- A call of no metrics provider counts nothing. -/
theorem quiet_ask {c : Call} (hc : ¬c.Emits) : Handler.Quiet (ask c) := onlyE_performE hc

private theorem quiet_now : Handler.Quiet now := quiet_ask not_false

/-- The rate limit counts nothing. -/
theorem quiet_checkRateLimit : Handler.Quiet checkRateLimit := quiet_ask not_false

private theorem quiet_askClaims (c : ClaimCall) : ClaimHandler.Quiet (askClaims c) :=
  onlyE_performE not_false

private theorem quiet_orRaise (r : Except StorageError α) : Handler.Quiet (orRaise r) := by
  cases r <;> trivial

private theorem quiet_orCollaborator (r : Except Unit α) : Handler.Quiet (orCollaborator r) := by
  cases r <;> trivial

/-- The path check counts nothing. -/
theorem quiet_validateOr (allowed : Char → Bool) (path : String)
    (refusal : PathValidationError → Exc) : (validateOr allowed path refusal).Quiet := by
  unfold validateOr
  split <;> trivial

/-- The access check counts nothing outside of `safe_emit`. -/
theorem quiet_enforce (identity : Identity) (resource : Resource) (action : Action)
    (denied : Exc) : (enforce identity resource action denied).Quiet := by
  refine OnlyE.bind (quiet_ask not_false) fun answer => ?_
  refine OnlyE.bind (quiet_orCollaborator _) fun allowed => ?_
  split <;> trivial

private theorem quiet_sendHead (values : List String) : (sendHead values).Quiet := by
  unfold sendHead
  split <;> trivial

private theorem quiet_readMetaOr (path : String) (missing : Exc) :
    (readMetaOr path missing).Quiet := by
  refine OnlyE.bind (quiet_ask not_false) fun r => ?_
  split <;> trivial

/-- A delete counts nothing, where a missing bundle is an error. -/
theorem quiet_deleteOr (path : String) (missing : Exc) : (deleteOr path missing).Quiet := by
  refine OnlyE.bind (quiet_ask not_false) fun r => ?_
  split <;> trivial

/-- A delete counts nothing, where a missing bundle is none. -/
theorem quiet_deleteQuiet (path : String) : (deleteQuiet path).Quiet := by
  refine OnlyE.bind (quiet_ask not_false) fun r => ?_
  split <;> trivial

private theorem quiet_isExpiredByMeta (createdAt : Nat) :
    (isExpiredByMeta cfg createdAt).Quiet := by
  unfold isExpiredByMeta
  split
  · trivial
  · exact OnlyE.bind (quiet_ask not_false) fun _ => trivial

private theorem quiet_computeRemainingTtl (createdAt : Nat) :
    (computeRemainingTtl cfg createdAt).Quiet := by
  unfold computeRemainingTtl
  split
  · trivial
  · exact OnlyE.bind (quiet_ask not_false) fun _ => trivial

/-- Reading a fresh manifest counts nothing. -/
theorem quiet_readFreshOr (path : String) (missing : Exc) :
    (readFreshOr cfg path missing).Quiet := by
  refine OnlyE.bind (quiet_readMetaOr _ _) fun m => ?_
  refine OnlyE.bind (quiet_isExpiredByMeta _) fun expired => ?_
  split
  · exact OnlyE.bind (quiet_deleteQuiet _) fun _ => trivial
  · trivial

/-- Peeking at a fresh manifest counts nothing. -/
theorem quiet_peekFreshOr (path : String) (missing : Exc) :
    (peekFreshOr cfg path missing).Quiet := by
  refine OnlyE.bind (quiet_readMetaOr _ _) fun m => ?_
  refine OnlyE.bind (quiet_isExpiredByMeta _) fun expired => ?_
  split <;> trivial

private theorem quiet_collectBundleFiles (path : String) (files : List FileRecord) :
    (collectBundleFiles path files).Quiet := by
  induction files with
  | nil => trivial
  | cons f rest ih =>
    refine OnlyE.bind (quiet_ask not_false) fun r => ?_
    refine OnlyE.bind (quiet_orRaise _) fun data => ?_
    exact OnlyE.bind ih fun _ => trivial

/-- Listing bundles counts nothing. -/
theorem quiet_listBundles (pre : String) (includeOrphans : Bool) :
    (listBundles pre includeOrphans).Quiet :=
  OnlyE.bind (quiet_ask not_false) fun _ => quiet_orRaise _

/-- Making the entries of a listing counts nothing. -/
theorem quiet_listingEntries (base : String) (paths : List String) :
    (listingEntries cfg base paths).Quiet := by
  induction paths with
  | nil => trivial
  | cons path rest ih =>
    refine OnlyE.bind (quiet_ask not_false) fun r => ?_
    split
    · exact ih
    · trivial
    refine OnlyE.bind (quiet_isExpiredByMeta _) fun expired => ?_
    split
    · exact ih
    refine OnlyE.bind (quiet_computeRemainingTtl _) fun remaining => ?_
    exact OnlyE.bind ih fun _ => trivial

private theorem quiet_newestBundle (best : Option (String × BundleMeta)) (paths : List String) :
    (newestBundle cfg best paths).Quiet := by
  induction paths generalizing best with
  | nil => trivial
  | cons path rest ih =>
    refine OnlyE.bind (quiet_ask not_false) fun r => ?_
    split
    · exact ih best
    · trivial
    refine OnlyE.bind (quiet_isExpiredByMeta _) fun expired => ?_
    split
    · exact ih best
    split
    · split
      · exact ih _
      · exact ih _
    · exact ih _

private theorem quiet_writeFile (handle : Nat) (name : String) (data : Bytes) :
    (writeFile handle name data).Quiet :=
  OnlyE.bind (quiet_ask not_false) fun _ => quiet_orRaise _

private theorem quiet_commit (handle : Nat) (m : BundleMeta) : (commit handle m).Quiet :=
  OnlyE.bind (quiet_ask not_false) fun _ => quiet_orRaise _

private theorem quiet_writeFiles (handle : Nat) (files : List FilePart) :
    (writeFiles cfg handle files).Quiet := by
  induction files with
  | nil => trivial
  | cons f rest ih =>
    refine OnlyE.bind (quiet_writeFile _ _ _) fun _ => ?_
    exact OnlyE.bind ih fun _ => trivial

private theorem quiet_orAbort {handle : Nat} {x : Handler α} (h : x.Quiet) :
    (Upload.orAbort handle x).Quiet :=
  OnlyE.tryCatch h fun _ => OnlyE.bind (quiet_ask not_false) fun _ => trivial

/-- Writing a bundle counts nothing. -/
theorem quiet_writeBundle (path : String) (files : List FilePart) (sender : Option String)
    (contentType : String) (bundleId : Id) :
    (writeBundle cfg path files sender contentType bundleId).Quiet := by
  refine OnlyE.bind (quiet_ask not_false) fun r => ?_
  refine OnlyE.bind (quiet_orRaise _) fun handle => quiet_orAbort ?_
  refine OnlyE.bind (quiet_writeFiles _ _) fun records => ?_
  refine OnlyE.bind (quiet_ask not_false) fun createdAt => ?_
  exact OnlyE.bind (quiet_commit _ _) fun _ => trivial

private theorem quiet_mintDownload (path : String) (m : BundleMeta) (recipient : String) :
    (mintDownload cfg path m recipient).Quiet := by
  refine OnlyE.bind (quiet_ask not_false) fun t => ?_
  exact OnlyE.bind (quiet_ask not_false) fun _ => trivial

private theorem quiet_buildReferencePayloadForStore (path : String) (m : BundleMeta)
    (recipient : String) :
    (buildReferencePayloadForStore cfg path m recipient).Quiet :=
  OnlyE.bind (quiet_mintDownload _ _ _) fun _ => trivial

private theorem quiet_buildReferencePayloadForInbox (path : String) (m : BundleMeta)
    (recipient : String)
    (writeClaim : Bool) :
    (buildReferencePayloadForInbox cfg path m recipient writeClaim).Quiet := by
  refine OnlyE.bind (quiet_mintDownload _ _ _).plain fun minted => ?_
  obtain ⟨token, expiresAt⟩ := minted
  dsimp only
  split
  · refine OnlyE.bind quiet_now.plain fun createdAt => ?_
    refine OnlyE.bind (quiet_askClaims _) fun r => ?_
    split <;> trivial
  · trivial

private theorem quiet_verifyToken (token : Token) (refusal : TokenError → Exc) :
    (verifyToken token refusal).Quiet := by
  refine OnlyE.bind (quiet_ask not_false) fun keys => ?_
  refine OnlyE.bind (quiet_ask not_false) fun t => ?_
  split <;> trivial

end Parts

/-! ## Broadcasts -/

private theorem quiet_deliverTo (path : String) (files : List FilePart) (sender : Option String)
    (targets : List String) : (deliverTo cfg path files sender targets).Quiet := by
  induction targets with
  | nil => trivial
  | cons target rest ih =>
    refine OnlyE.bind (quiet_deleteQuiet _) fun _ => ?_
    refine OnlyE.bind (quiet_ask not_false) fun bundleId => ?_
    exact OnlyE.bind (quiet_writeBundle _ _ _ _ _) fun _ => ih

private theorem quiet_broadcastTo (identity : Identity) (path : String) (files : List FilePart)
    (sender : Option String) (report : BroadcastReport) (labels : List String) :
    (broadcastTo cfg identity path files sender report labels).Quiet := by
  induction labels generalizing report with
  | nil => trivial
  | cons label rest ih =>
    refine OnlyE.bind (quiet_ask not_false) fun resolution => ?_
    split
    · exact ih _
    · exact ih _
    refine OnlyE.bind (quiet_ask not_false) fun allowed => ?_
    split
    · exact ih _
    · exact ih _
    refine OnlyE.bind (OnlyE.tryCatch (OnlyE.bind (quiet_deliverTo _ _ _ _) fun _ => ?_)
      fun _ => ?_) fun done => ih _
    · trivial
    · trivial

/-- The fan-out of a broadcast counts nothing. -/
theorem quiet_fanOut (identity : Identity) (path : String) (files : List FilePart)
    (sender : Option String) : (fanOut cfg identity path files sender).Quiet := by
  refine OnlyE.bind (quiet_ask not_false) fun keys => ?_
  refine OnlyE.bind ?_ fun _ => OnlyE.bind (quiet_ask not_false) fun answer => ?_
  · unfold checkFanoutCap
    split <;> trivial
  · split
    · trivial
    · exact quiet_broadcastTo _ _ _ _ _ _

/-- Listing the visible agents counts nothing. -/
theorem quiet_visibleActive (identity : Identity) : (Agents.visibleActive identity).Quiet := by
  refine OnlyE.bind (quiet_ask not_false) fun keys => ?_
  exact OnlyE.bind (quiet_ask not_false) fun _ => trivial

/-- `GET /agents` counts nothing. -/
theorem Agents.quiet_listAgents (identity : Identity) : (Agents.listAgents identity).Quiet :=
  OnlyE.bind (quiet_visibleActive identity) fun _ => trivial

/-- `POST /broadcast` counts nothing. -/
theorem Agents.quiet_postBroadcast (identity : Identity) (path : String) (body : Body) :
    (Agents.postBroadcast cfg identity path body).Quiet := by
  refine OnlyE.bind (OnlyE.bind (quiet_ask not_false) fun admitted => ?_) fun _ => trivial
  split
  · trivial
  refine OnlyE.bind (quiet_validateOr _ _ _) fun _ => ?_
  dsimp only
  split
  · trivial
  · exact quiet_fanOut _ _ _ _

/-! ## The store -/

namespace Files

/-- `PUT /files` counts nothing. -/
theorem quiet_uploadFile (identity : Identity) (path : String) (body : Body) :
    (uploadFile cfg identity path body).Quiet := by
  refine OnlyE.bind (quiet_validateOr _ _ _) fun _ => ?_
  split
  · trivial
  refine OnlyE.bind (quiet_enforce _ _ _ _) fun _ => ?_
  dsimp only
  split
  · trivial
  split
  · trivial
  have hwrite : ∀ {f : Id → BundleMeta → Uploaded}, Handler.Quiet (do
      let bundleId ← newId
      let m ← writeBundle cfg (storePath path) (body.fileParts path) none
        "application/octet-stream" bundleId
      pure (f bundleId m)) := fun {_} =>
    OnlyE.bind (quiet_ask not_false) fun _ => OnlyE.bind (quiet_writeBundle _ _ _ _ _) fun _ =>
      trivial
  refine OnlyE.bind (quiet_ask not_false) fun r => ?_
  split <;> refine OnlyE.bind trivial fun existed => ?_ <;> split
  all_goals first
    | exact OnlyE.bind (quiet_deleteQuiet _) fun _ => hwrite
    | exact hwrite

/-- The listing of the store counts nothing. -/
theorem quiet_listFiles (identity : Identity) (pre : String) :
    (listFiles cfg identity pre).Quiet := by
  refine OnlyE.bind (quiet_enforce _ _ _ _) fun _ => ?_
  exact OnlyE.bind (quiet_listBundles _ _) fun _ => quiet_listingEntries _ _

/-- `GET /files` counts nothing. -/
theorem quiet_getFile (identity : Identity) (path : String) :
    (getFile cfg identity path).Quiet := by
  unfold getFile
  split
  · refine OnlyE.bind (OnlyE.bind (quiet_validateOr _ _ _) fun _ => ?_) fun _ => trivial
    exact OnlyE.bind (quiet_enforce _ _ _ _) fun _ => quiet_peekFreshOr _ _
  · refine OnlyE.bind (OnlyE.bind (quiet_validateOr _ _ _) fun _ => ?_) fun _ => trivial
    refine OnlyE.bind (quiet_enforce _ _ _ _) fun _ => ?_
    refine OnlyE.bind (quiet_readFreshOr _ _) fun m => ?_
    split
    · exact OnlyE.bind (quiet_buildReferencePayloadForStore _ _ _) fun _ => trivial
    · exact OnlyE.bind (quiet_collectBundleFiles _ _) fun _ => trivial

/-- `DELETE /files` counts nothing. -/
theorem quiet_deleteFile (identity : Identity) (path : String) :
    (deleteFile identity path).Quiet := by
  refine OnlyE.bind (quiet_validateOr _ _ _) fun _ => ?_
  exact OnlyE.bind (quiet_enforce _ _ _ _) fun _ => quiet_deleteOr _ _

end Files

/-! ## Inboxes -/

namespace Inbox

/-- The listing that both surfaces make of an inbox counts nothing. -/
theorem quiet_listing (agent pre : String) : (listing cfg agent pre).Quiet := by
  refine OnlyE.bind (OnlyE.bind quiet_now.plain fun t => ?_) fun hidden => ?_
  · exact OnlyE.bind (quiet_askClaims _) fun _ => trivial
  refine OnlyE.bind (quiet_listBundles _ _).plain fun refs => ?_
  exact OnlyE.bind (quiet_listingEntries _ _).plain fun _ => trivial

/-- `PUT /inbox` counts nothing. -/
theorem quiet_sendToInboxRemoved (agent path : String) : (sendToInboxRemoved agent path).Quiet :=
  onlyE_pure _

/-- The listing of an inbox over REST counts nothing. -/
theorem quiet_listInbox (identity : Identity) (agent pre : String) :
    (listInbox cfg identity agent pre).Quiet :=
  OnlyE.bind (quiet_enforce _ _ _ _).plain fun _ => quiet_listing _ _

/-- A peek into an inbox counts nothing. -/
theorem quiet_peekInboxFile (identity : Identity) (agent path : String) :
    (peekInboxFile cfg identity agent path).Quiet := by
  refine OnlyE.bind (quiet_enforce _ _ _ _) fun _ => ?_
  refine OnlyE.bind (quiet_peekFreshOr _ _) fun m => ?_
  exact OnlyE.bind (quiet_sendHead _) fun _ => trivial

/-- `GET /inbox` counts nothing. -/
theorem quiet_getInboxFile (identity : Identity) (agent path : String) :
    (getInboxFile cfg identity agent path).Quiet := by
  refine OnlyE.bind (quiet_enforce _ _ _ _).plain fun _ => ?_
  refine OnlyE.bind (quiet_readFreshOr _ _).plain fun m => ?_
  split
  · refine OnlyE.bind (quiet_buildReferencePayloadForInbox _ _ _ _) fun _ => ?_
    exact OnlyE.bind (quiet_sendHead _).plain fun _ => trivial
  · refine OnlyE.bind (quiet_collectBundleFiles _ _).plain fun _ => ?_
    exact OnlyE.bind (quiet_sendHead _).plain fun _ => trivial

/-- Finding the bundle of a pick counts nothing. -/
theorem quiet_resolvePick (agent path : String) (noFiles missing : Exc) :
    (resolvePick cfg agent path noFiles missing).Quiet := by
  unfold resolvePick
  split
  · refine OnlyE.bind (quiet_listBundles _ _) fun refs => ?_
    refine OnlyE.bind (quiet_newestBundle _ _) fun found => ?_
    split <;> trivial
  · exact OnlyE.bind (quiet_readFreshOr _ _) fun _ => trivial

/-- Handing out a bundle counts nothing. -/
theorem quiet_consume (agent bundlePath : String) (m : BundleMeta) (missing : Exc) :
    (consume cfg agent bundlePath m missing).Quiet := by
  unfold consume
  split
  · refine OnlyE.bind (OnlyE.tryCatch (quiet_buildReferencePayloadForInbox _ _ _ _) fun e => ?_)
      fun _ => trivial
    split <;> trivial
  · refine OnlyE.bind (quiet_collectBundleFiles _ _).plain fun payloads => ?_
    exact OnlyE.bind (quiet_deleteQuiet _).plain fun _ => trivial

/-- A pick over REST counts nothing. -/
theorem quiet_pickInboxFile (identity : Identity) (agent path : String) :
    (pickInboxFile cfg identity agent path).Quiet := by
  refine OnlyE.bind (quiet_enforce _ _ _ _).plain fun _ => ?_
  refine OnlyE.bind (quiet_resolvePick _ _ _ _).plain fun found => ?_
  exact OnlyE.bind (quiet_consume _ _ _ _) fun _ => trivial

/-- `DELETE /inbox` counts nothing. -/
theorem quiet_deleteInboxFile (identity : Identity) (agent path : String) :
    (deleteInboxFile identity agent path).Quiet :=
  OnlyE.bind (quiet_enforce _ _ _ _) fun _ => quiet_deleteOr _ _

end Inbox

/-! ## Sends and downloads -/

private theorem quiet_prepareSendInit (to_ path : String) (raw : SendManifest) (identity : Identity)
    (senderLabel : Option String) (allowInline : Bool) :
    (prepareSendInit cfg to_ path raw identity senderLabel allowInline).Quiet := by
  unfold prepareSendInit
  split
  · trivial
  refine OnlyE.bind (quiet_validateOr _ _ _) fun _ => OnlyE.bind ?_ fun recipient => ?_
  · refine OnlyE.bind (quiet_ask not_false) fun answer => ?_
    refine OnlyE.bind (quiet_orCollaborator _) fun resolved => ?_
    split
    · split <;> trivial
    · dsimp only
      split <;> trivial
  refine OnlyE.bind (quiet_enforce _ _ _ _) fun _ => ?_
  split
  · trivial
  refine OnlyE.bind (quiet_ask not_false) fun bundleId => ?_
  refine OnlyE.bind (quiet_ask not_false) fun t => ?_
  exact OnlyE.bind (quiet_ask not_false) fun _ => trivial

/-- `POST /uploads` counts nothing. -/
theorem quiet_createUploadSession (identity : Identity) (to_ path : String) (raw : SendManifest) :
    (createUploadSession cfg identity to_ path raw).Quiet := by
  refine OnlyE.tryCatch (quiet_prepareSendInit _ _ _ _ _ _) fun e => ?_
  split <;> trivial

/-- `cassetta_send_init` counts nothing. -/
theorem Mcp.quiet_cassettaSendInit (caller : Mcp.Caller) (to_ path : String)
    (manifest : SendManifest) : (Mcp.cassettaSendInit cfg caller to_ path manifest).Quiet := by
  refine OnlyE.tryCatch (quiet_prepareSendInit _ _ _ _ _ _) fun e => ?_
  split <;> trivial

namespace Upload

private theorem quiet_begin (token : Option Token) (bundlePath : String) :
    (begin token bundlePath).Quiet := by
  unfold begin
  split
  · trivial
  refine OnlyE.bind (quiet_verifyToken _ _) fun claims => ?_
  split
  · trivial
  split
  · trivial
  split
  · trivial
  refine OnlyE.bind (quiet_ask not_false) fun r => ?_
  split <;> trivial

private theorem quiet_entry (task : Task) (info : TarEntry) : (entry cfg task info).Quiet := by
  refine quiet_orAbort ?_
  split
  · trivial
  split
  · trivial
  split
  · trivial
  split
  · trivial
  split
  · trivial
  exact OnlyE.bind (quiet_writeFile _ _ _) fun _ => trivial

private theorem quiet_streamTar (task : Task) (infos : List TarEntry) :
    (streamTar cfg task infos).Quiet := by
  induction infos generalizing task with
  | nil => trivial
  | cons info rest ih => exact OnlyE.bind (quiet_entry _ _) fun _ => ih _

/-- The end of an upload counts nothing. -/
theorem quiet_finish (task : Task) (end_ : TarEnd) : (finish task end_).Quiet := by
  refine quiet_orAbort ?_
  split
  · trivial
  · trivial
  split
  · trivial
  exact OnlyE.bind (quiet_ask not_false) fun _ => quiet_commit _ _

/-- `POST /upload` counts nothing. -/
theorem quiet_uploadBundle (token : Option Token) (bundlePath : String) (infos : List TarEntry)
    (end_ : TarEnd) : (uploadBundle cfg token bundlePath infos end_).Quiet := by
  refine OnlyE.bind (quiet_begin _ _) fun task => ?_
  exact OnlyE.bind (quiet_streamTar _ _) fun _ => quiet_finish _ _

end Upload

private theorem quiet_writeInlineFiles (handle : Nat) (decoded : List (String × Bytes))
    (files : List FileRecord) : (writeInlineFiles handle decoded files).Quiet := by
  induction files with
  | nil => trivial
  | cons f rest ih =>
    unfold writeInlineFiles
    split
    · trivial
    · exact OnlyE.bind (quiet_writeFile _ _ _) fun _ => ih

/-- `cassetta_send_inline` counts nothing. -/
theorem quiet_cassettaSendInline (token : Token) (files : List SendInlineFile) :
    (cassettaSendInline token files).Quiet := by
  refine OnlyE.bind (quiet_verifyToken _ _) fun claims => ?_
  split
  · trivial
  simp only
  split
  · trivial
  split
  · trivial
  split
  · refine OnlyE.bind (quiet_ask not_false) fun r => ?_
    split
    · trivial
    · trivial
    · trivial
    refine quiet_orAbort (OnlyE.bind (quiet_writeInlineFiles _ _ _) fun _ => ?_)
    refine OnlyE.bind (quiet_ask not_false) fun createdAt => ?_
    exact OnlyE.bind (quiet_commit _ _) fun _ => trivial
  · trivial

namespace Download

/-- `GET /download` counts nothing. -/
theorem quiet_downloadFile (req : Request) : (downloadFile cfg req).Quiet := by
  unfold downloadFile
  split
  · trivial
  refine OnlyE.bind (quiet_verifyToken _ _) fun claims => ?_
  split
  · trivial
  · trivial
  · trivial
  · trivial
  split
  · trivial
  split
  · trivial
  split
  · trivial
  split
  · trivial
  split
  · trivial
  refine OnlyE.bind (quiet_readMetaOr _ _) fun m => ?_
  split
  · trivial
  refine OnlyE.bind (quiet_ask not_false) fun r => ?_
  split
  · trivial
  · trivial
  · exact OnlyE.bind (quiet_sendHead _) fun _ => trivial

/-- The end of a download counts nothing. -/
theorem quiet_finish (st : Stream) : st.finish.Quiet := by
  unfold Stream.finish
  split
  · refine OnlyE.bind (quiet_askClaims _) fun claim => ?_
    split
    · trivial
    refine OnlyE.bind (quiet_askClaims _) fun updated => ?_
    split
    · trivial
    split
    · exact OnlyE.bind (quiet_deleteQuiet _).plain fun _ => quiet_askClaims _
    · trivial
  · trivial

end Download

end Cassetta
