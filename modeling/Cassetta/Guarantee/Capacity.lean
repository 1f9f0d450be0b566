import Cassetta.Guarantee.TwoPhase
import Cassetta.Server.Looking
import Cassetta.Server.Writing

/-!
# The caps on what is committed

Every write surface checks a manifest against the limits before it writes, the two-phase send
in an earlier request than the one that writes. What is committed has been checked a second
time, by `commit` itself, against what was written. Together the caps hold of every commit.
-/

namespace Cassetta

open Prog

variable {cfg : Config} {env : Environment}

/-! ## The property -/

/-- Records within the caps that are set. -/
structure WithinCaps (limits : LimitsConfig) (files : List FileRecord) : Prop where
  count : ∀ n ∈ limits.perBundleFileCountMax, (files.length : Int) ≤ n
  each : ∀ n ∈ limits.perFileMax, ∀ f ∈ files, f.size ≤ n
  total : ∀ n ∈ limits.perBundleTotalMax, (files.map (·.size)).sum ≤ n

/-- A commit within the caps, with the sizes of what was written. -/
structure Commit.Capped (limits : LimitsConfig) (c : Commit) : Prop where
  within : WithinCaps limits c.manifest.files
  nonneg : ∀ f ∈ c.manifest.files, 0 ≤ f.size
  written : ∀ f ∈ c.manifest.files, ∃ data, (f.name, data) ∈ c.written
  sizes : ∀ f ∈ c.manifest.files, ∀ data, (f.name, data) ∈ c.written → f.size = data.length

/-- A token that some run of `prepare_send_init` has returned. -/
def Minted (cfg : Config) (env : Environment) (token : Token) : Prop :=
  ∃ to_ path raw identity label allowInline s s' r,
    runE (exec cfg env) (prepareSendInit cfg to_ path raw identity label allowInline) s =
      (.ok r, s') ∧
      r.token = token

/-- Nobody but the server signs with the server's keys: an upload token that the current keys
accept is one that `prepare_send_init` has returned. -/
def System.VouchesUpload (cfg : Config) (env : Environment) (sys : System) : Token → Prop
  | .signed claims key =>
    (key = sys.server.slots.primary ∨ sys.server.slots.secondary = some key) →
      claims.mode.isSome → Minted cfg env (.signed claims key)
  | .malformed => True

/-- The second phase of a send presents no forged token. -/
def System.GenuineUploads (cfg : Config) (env : Environment) (sys : System) : Event → Prop
  | .uploadBegin (some token) _ => sys.VouchesUpload cfg env token
  | .plain (.mcpSendInline token _) => sys.VouchesUpload cfg env token
  | _ => True

/-! ## What the limits policy lets through -/

private theorem overCap_eq_false_iff {cap : Option Int} {value : Int} :
    overCap cap value = false ↔ ∀ n ∈ cap, value ≤ n := by
  cases cap <;> simp [overCap]

private theorem withinCaps_of_check {m : UploadManifest} {limits : LimitsConfig} {mode : UploadMode}
    (h : checkManifestAgainstLimits m limits = .ok mode) (hcount : m.fileCount = m.files.length)
    {files : List FileRecord} (hfiles : files.map (·.size) = m.files.map (·.size)) :
    WithinCaps limits files := by
  have hlength : files.length = m.files.length := by simpa using congrArg List.length hfiles
  unfold checkManifestAgainstLimits at h
  split at h
  · cases h
  rename_i hc
  split at h
  · cases h
  rename_i hf
  split at h
  · cases h
  rename_i ht
  rw [Bool.not_eq_true, overCap_eq_false_iff] at hc ht
  refine ⟨fun n hn => ?_, fun n hn f hmem => ?_, fun n hn => ?_⟩
  · have := hc n hn
    rw [hcount] at this
    omega
  · have hsize : f.size ∈ m.files.map (·.size) :=
      hfiles ▸ List.mem_map_of_mem (f := FileRecord.size) hmem
    obtain ⟨g, hg, hgs⟩ := List.mem_map.mp hsize
    have hover := List.find?_eq_none.mp hf g hg
    rw [Bool.not_eq_true, overCap_eq_false_iff] at hover
    rw [← hgs]
    exact hover n hn
  · rw [hfiles]
    exact ht n hn

private theorem withinCaps_partRecords {parts : List FilePart} {mode : UploadMode}
    (h : checkManifestAgainstLimits (uploadManifest parts) cfg.limits = .ok mode) :
    WithinCaps cfg.limits (partRecords cfg parts) := by
  refine withinCaps_of_check h ?_ ?_
  · simp [uploadManifest]
  · simp only [partRecords, uploadManifest, List.map_map]
    rfl

private theorem withinCaps_of_evaluate {parts : List FilePart}
    (h : evaluateUpload cfg parts = .ok ()) :
    WithinCaps cfg.limits (partRecords cfg parts) := by
  unfold evaluateUpload at h
  split at h
  · cases h
  · rename_i hcheck
    exact withinCaps_partRecords hcheck
  · cases h

/-- A minted token lists files within the caps. -/
theorem Minted.withinCaps {claims : Claims} {key : SigningKey}
    (h : Minted cfg env (.signed claims key)) :
    WithinCaps cfg.limits (claims.manifest.getD []) := by
  obtain ⟨to_, path, raw, identity, label, allowInline, s, s', r, hrun, htok⟩ := h
  obtain ⟨manifest, recipient, sender, iat, jti, hg, -⟩ :=
    wpE_ok (ensures_prepareSendInit to_ path raw identity label allowInline) hrun
  obtain ⟨rfl, -⟩ := Token.signed.inj (hg.token.symm.trans htok)
  obtain ⟨mode, hwithin⟩ := hg.within
  refine withinCaps_of_check hwithin ?_ ?_
  · have hparsed := hg.parsed
    unfold parseManifest manifestFromInput at hparsed
    split at hparsed
    · cases hparsed
    rename_i m hm
    split at hm
    · obtain rfl := Option.some.inj hm
      split at hparsed
      · cases hparsed
      · obtain rfl := Except.ok.inj hparsed
        rfl
    · cases hm
  · show (enrichManifestMimes cfg manifest).map (·.size) = _
    rw [enrichManifestMimes, List.map_map]
    rfl

/-! ## What `commit` lets through -/

/-- The commits so far are within the caps, and no writer that is open has a name twice. -/
structure Disk.Capped (limits : LimitsConfig) (d : Disk) : Prop where
  commits : ∀ c ∈ d.commits, c.Capped limits
  writers : ∀ k w, d.writers k = some w → (w.written.map Prod.fst).Nodup

private theorem capped_of_commitCheck {limits : LimitsConfig} {w : Writer} {m : BundleMeta}
    (loc : List String)
    (hcheck : Backend.commitCheck w m = .ok ()) (hcaps : WithinCaps limits m.files)
    (hnodup : (w.written.map Prod.fst).Nodup) : (⟨loc, m, w.written⟩ : Commit).Capped limits := by
  have hall : ∀ f ∈ m.files, ∃ data, (f.name, data) ∈ w.written ∧ (data.length : Int) = f.size := by
    unfold Backend.commitCheck at hcheck
    split at hcheck
    · cases hcheck
    split at hcheck
    · cases hcheck
    split at hcheck
    · cases hcheck
    split at hcheck
    · rename_i hall
      intro f hf
      have := List.all_eq_true.mp hall f hf
      obtain ⟨e, he, heq⟩ := List.any_eq_true.mp this
      simp only [decide_eq_true_eq] at heq
      exact ⟨e.2, by rw [← heq.1]; exact he, heq.2⟩
    · cases hcheck
  refine ⟨hcaps, fun f hf => ?_, fun f hf => ?_, fun f hf data hdata => ?_⟩
  · obtain ⟨data, -, hsize⟩ := hall f hf
    show (0 : Int) ≤ f.size
    omega
  · obtain ⟨data, hmem, -⟩ := hall f hf
    exact ⟨data, hmem⟩
  · obtain ⟨data', hmem', hsize⟩ := hall f hf
    have heq := List.inj_on_of_nodup_map hnodup hmem' hdata rfl
    rw [← hsize, (Prod.mk.inj heq).2]

/-- The caps are about commits and open writes, not about the tree. -/
theorem Disk.Capped.setTree {limits : LimitsConfig} {d : Disk} (h : d.Capped limits) (now : Nat)
    (t : DataTree) : (d.setTree now t).Capped limits := ⟨h.commits, h.writers⟩

/-- The manifest of a commit call is within the caps. -/
def CommitsWithin (limits : LimitsConfig) : Call → Prop
  | .commit _ m => WithinCaps limits m.files
  | _ => True

/-- A call that commits within the caps keeps the disk within them. -/
theorem Disk.Capped.exec {limits : LimitsConfig} {s : Server} (h : s.disk.Capped limits) {c : Call}
    (hc : CommitsWithin limits c) : (exec cfg env c s).2.disk.Capped limits := by
  have hupdate : ∀ (d : Disk) (k : Nat) (w : Option Writer), d.writers = s.disk.writers →
      (∀ w' ∈ w, (w'.written.map Prod.fst).Nodup) → ∀ k' w',
      Function.update d.writers k w k' = some w' →
        (w'.written.map Prod.fst).Nodup := by
    intro d k w hd hw k' w' hw'
    rw [Function.update_apply, hd] at hw'
    split at hw'
    · exact hw w' hw'
    · exact h.writers k' w' hw'
  cases c with
  | openBundleWrite path =>
    rcases Backend.openBundleWrite_cases (b := cfg.backend) s.wall path s.disk with
      ⟨e, t, heq, -⟩ | ⟨e, heq⟩ | ⟨t, t', -, -, -, heq⟩ <;>
      simp only [Cassetta.exec, heq, Server.setDisk]
    · exact h.setTree _ _
    · exact h
    · exact ⟨h.commits, hupdate _ _ _ rfl (by simp)⟩
  | writeFile handle name data =>
    rcases Backend.writeFile_cases s.wall handle name data s.disk with
      ⟨e, heq⟩ | ⟨w, hw, -, hnew, ⟨e, t, heq, -⟩ | ⟨t, t', -, -, heq⟩⟩ <;>
      simp only [Cassetta.exec, heq, Server.setDisk]
    · exact h
    · exact h.setTree _ _
    · refine ⟨h.commits, hupdate _ _ _ rfl fun w' hw' => ?_⟩
      obtain rfl := Option.some.inj hw'
      rw [List.map_append, List.nodup_append]
      refine ⟨h.writers handle w hw, by simp, fun a ha b hb => ?_⟩
      obtain rfl := List.mem_singleton.mp hb
      rintro rfl
      exact hnew ha
  | commit handle m =>
    rcases Backend.commit_cases s.wall handle m s.disk with
      ⟨e, heq⟩ | ⟨w, hw, hcheck, ⟨e, t, heq, -⟩ | ⟨t, t', heq, -⟩⟩ <;>
      simp only [Cassetta.exec, heq, Server.setDisk]
    · exact h
    · exact h.setTree _ _
    · refine ⟨fun c' hc' => ?_, hupdate _ _ _ rfl (by simp)⟩
      rcases List.mem_append.mp hc' with hold | hnew
      · exact h.commits c' hold
      · obtain rfl := List.mem_singleton.mp hnew
        exact capped_of_commitCheck w.loc hcheck hc (h.writers handle w hw)
  | abort handle =>
    simp only [Cassetta.exec, Server.setDisk, Backend.abort]
    split
    · exact h
    · exact ⟨h.commits, hupdate _ _ _ rfl (by simp)⟩
  | deleteBundle path =>
    simp only [Cassetta.exec, Server.setDisk, Backend.deleteBundle]
    split
    · split <;> exact h.setTree _ _
    · exact h
  | _ => exact h

/-! ## The write surfaces -/

section Surfaces

/-- A handler commits within the caps, from whatever state. -/
abbrev Caps (cfg : Config) (env : Environment) {α : Type} (x : Handler α) : Prop :=
  Always (exec cfg env) (CommitsWithin cfg.limits) x

private theorem commitsWithin_of_looks {limits : LimitsConfig} (c : Call) (h : c.Looks) :
    CommitsWithin limits c := by
  cases c <;> trivial

/-- What only looks commits nothing. -/
theorem caps_of_looks {α : Type} {x : Handler α} (h : x.Looks) : Caps cfg env x :=
  (h.mono commitsWithin_of_looks).always

private theorem caps_deleteQuiet (path : String) : Caps cfg env (deleteQuiet path) := by
  refine OnlyE.always (OnlyE.bind (onlyE_performE trivial) fun r => ?_)
  split <;> trivial

private theorem caps_abort (handle : Nat) :
    Caps cfg env (abort handle) := (onlyE_performE trivial).always

/-- The loop of writes makes the records of its parts. -/
theorem caps_writeFiles (handle : Nat) (parts : List FilePart) (s : Server) :
    wpE (exec cfg env) (fun _ c => CommitsWithin cfg.limits c) (writeFiles cfg handle parts)
      (fun records _ => records = partRecords cfg parts) (fun _ _ => True) s := by
  induction parts generalizing s with
  | nil => rfl
  | cons f rest ih =>
    simp only [writeFiles, writeFile, wpE_bind, wpE_tryWriteFile, wpE_orRaise]
    refine ⟨trivial, ?_⟩
    split
    · refine wpE_mono ?_ (fun _ _ h => h) (ih _)
      rintro records s' rfl
      rfl
    · trivial

private theorem caps_writeBundle {parts : List FilePart}
    (h : WithinCaps cfg.limits (partRecords cfg parts))
    (path : String) (sender : Option String) (contentType : String) (bundleId : Id) :
    Caps cfg env (writeBundle cfg path parts sender contentType bundleId) := by
  refine Always.bind (onlyE_performE trivial).always fun r => ?_
  refine Always.bind (caps_of_looks (looks_orRaise r)) fun handle => ?_
  refine Always.tryCatch (fun s => ?_) fun e =>
    Always.bind (caps_abort handle) fun _ => (onlyE_throw e).always
  simp only [wpE_bind, commit, wpE_now, wpE_tryCommit, wpE_orRaise, wpE_pure]
  refine wpE_mono ?_ (fun _ _ h => h) (caps_writeFiles handle parts s)
  rintro records s' rfl
  refine ⟨trivial, h, ?_⟩
  split <;> trivial

private theorem Files.caps_uploadFile (identity : Identity) (path : String) (body : Body) :
    Caps cfg env (Files.uploadFile cfg identity path body) := by
  refine Always.bind (caps_of_looks (looks_validateOr _ _ _)) fun _ => ?_
  split
  · exact (onlyE_throw _).always
  refine Always.bind (caps_of_looks (looks_enforce _ _ _ _)) fun _ => ?_
  dsimp only
  split
  · exact (onlyE_throw _).always
  split
  · exact (onlyE_throw _).always
  rename_i heval
  have hwrite : ∀ existed : Bool, Caps cfg env (do
      let bundleId ← newId
      let _ ← writeBundle cfg (storePath path) (body.fileParts path) none "application/octet-stream"
        bundleId
      pure (⟨path, ((body.fileParts path).map (·.data.length)).sum, existed⟩ :
        Files.Uploaded)) := by
    intro existed
    refine Always.bind (onlyE_performE trivial).always fun bundleId => ?_
    exact Always.bind (caps_writeBundle (withinCaps_of_evaluate heval) _ _ _ _) fun _ =>
      (onlyE_pure _).always
  refine Always.bind (onlyE_performE trivial).always fun r => ?_
  split <;> refine Always.bind (OnlyE.always trivial) fun existed => ?_ <;> split
  all_goals
    first
    | exact Always.bind (caps_deleteQuiet _) fun _ => hwrite existed
    | exact hwrite existed

private theorem Mcp.caps_cassettaPut (caller : Mcp.Caller) (path content : String)
    (files : FilesArg) :
    Caps cfg env (Mcp.cassettaPut cfg caller path content files) := by
  refine Always.bind (caps_of_looks (looks_validateOr _ _ _)) fun _ => ?_
  split
  · exact (onlyE_throw _).always
  split
  · exact (onlyE_throw _).always
  split
  · exact (onlyE_throw _).always
  rename_i heval
  refine Always.bind (caps_of_looks (looks_enforce _ _ _ _)) fun _ => ?_
  refine Always.bind (onlyE_performE trivial).always fun bundleId => ?_
  refine Always.bind (caps_deleteQuiet _) fun _ => ?_
  refine Always.bind (caps_writeBundle (withinCaps_of_evaluate heval) _ _ _ _) fun _ => ?_
  refine Always.bind (caps_of_looks (looks_increment _)) fun _ => ?_
  exact Always.bind (caps_of_looks (looks_increment _)) fun _ => (onlyE_pure _).always

private theorem caps_deliverTo {parts : List FilePart}
    (h : WithinCaps cfg.limits (partRecords cfg parts))
    (path : String) (sender : Option String) (targets : List String) :
    Caps cfg env (deliverTo cfg path parts sender targets) := by
  induction targets with
  | nil => exact (onlyE_pure _).always
  | cons target rest ih =>
    refine Always.bind (caps_deleteQuiet _) fun _ => ?_
    refine Always.bind (onlyE_performE trivial).always fun bundleId => ?_
    exact Always.bind (caps_writeBundle h _ _ _ _) fun _ => ih

private theorem caps_broadcastTo {parts : List FilePart}
    (h : WithinCaps cfg.limits (partRecords cfg parts))
    (identity : Identity) (path : String) (sender : Option String) (labels : List String)
    (report : BroadcastReport) :
    Caps cfg env (broadcastTo cfg identity path parts sender report labels) := by
  induction labels generalizing report with
  | nil => exact (onlyE_pure _).always
  | cons label rest ih =>
    refine Always.bind (onlyE_performE trivial).always fun r => ?_
    split
    · exact ih _
    · exact ih _
    refine Always.bind (onlyE_performE trivial).always fun answer => ?_
    split
    · exact ih _
    · exact ih _
    refine Always.bind ?_ fun done => ih _
    refine Always.tryCatch ?_ fun _ => (onlyE_pure _).always
    exact Always.bind (caps_deliverTo h _ _ _) fun _ => (onlyE_pure _).always

private theorem caps_fanOut {parts : List FilePart}
    (h : WithinCaps cfg.limits (partRecords cfg parts))
    (identity : Identity) (path : String) (sender : Option String) :
    Caps cfg env (fanOut cfg identity path parts sender) := by
  refine Always.bind (onlyE_performE trivial).always fun keys => ?_
  refine Always.bind ?_ fun _ => ?_
  · unfold checkFanoutCap
    split
    · exact (onlyE_throw _).always
    · exact (onlyE_pure _).always
  refine Always.bind (onlyE_performE trivial).always fun r => ?_
  split
  · exact (onlyE_pure _).always
  · exact caps_broadcastTo h _ _ _ _ _

private theorem Agents.caps_broadcast (identity : Identity) (path : String) (body : Body) :
    Caps cfg env (Agents.broadcast cfg identity path body) := by
  refine Always.bind (onlyE_performE trivial).always fun admitted => ?_
  split
  · exact (onlyE_throw _).always
  refine Always.bind (caps_of_looks (looks_validateOr _ _ _)) fun _ => ?_
  dsimp only
  split
  · exact (onlyE_throw _).always
  · rename_i hcheck
    exact caps_fanOut (withinCaps_partRecords hcheck) _ _ _

private theorem Mcp.caps_cassettaBroadcast (caller : Mcp.Caller) (overHttp : Bool)
    (path content : String)
    (files : FilesArg) :
    Caps cfg env (Mcp.cassettaBroadcast cfg caller overHttp path content files) := by
  unfold Mcp.cassettaBroadcast
  dsimp only
  split <;> refine Always.bind
    (OnlyE.always (by first | trivial | exact onlyE_performE trivial)) fun admitted => ?_ <;> split
  all_goals first | exact Always.bind (caps_of_looks (looks_increment _)) fun _ =>
    (onlyE_throw _).always | skip
  all_goals
    refine Always.bind (caps_of_looks (looks_validateOr _ _ _)) fun _ => ?_
    split
    · exact (onlyE_throw _).always
    split
    · exact (onlyE_throw _).always
    rename_i heval
    refine Always.tryCatch (caps_fanOut (withinCaps_of_evaluate heval) _ _ _) fun e => ?_
    split
    · exact Always.bind (caps_of_looks (looks_increment _)) fun _ => (onlyE_throw _).always
    · exact (onlyE_throw _).always

end Surfaces

/-! ## The surfaces that commit nothing -/

section Uncommitting

variable {α : Type}

/-- A call other than a commit. -/
def Call.Uncommitting : Call → Prop
  | .commit .. => False
  | _ => True

def AnyCall.Uncommitting : AnyCall → Prop
  | .plain c => c.Uncommitting
  | .claim _ => True

/-- A handler without a commit. -/
abbrev Handler.Uncommitting (x : Handler α) : Prop := OnlyE Call.Uncommitting x

/-- A handler with the claim store and without a commit. -/
abbrev ClaimHandler.Uncommitting (x : ClaimHandler α) : Prop := OnlyE AnyCall.Uncommitting x

private theorem Handler.Looks.uncommitting {x : Handler α} (h : x.Looks) : x.Uncommitting :=
  h.mono fun c hc => by cases c <;> trivial

/-- A handler that commits nothing does so among those with the claim store. -/
theorem Handler.Uncommitting.plain {x : Handler α} (h : x.Uncommitting) :
    ClaimHandler.Uncommitting (Cassetta.plain x) := OnlyE.embedE h

private theorem uncommitting_deleteOr (path : String) (missing : Exc) :
    (deleteOr path missing).Uncommitting := by
  refine OnlyE.bind (onlyE_performE trivial) fun r => ?_
  split <;> trivial

private theorem uncommitting_deleteQuiet (path : String) : (deleteQuiet path).Uncommitting := by
  refine OnlyE.bind (onlyE_performE trivial) fun r => ?_
  split <;> trivial

private theorem uncommitting_readFreshOr (path : String) (missing : Exc) :
    (readFreshOr cfg path missing).Uncommitting := by
  refine OnlyE.bind (looks_readMetaOr _ _).uncommitting fun m => ?_
  refine OnlyE.bind (looks_isExpiredByMeta _).uncommitting fun expired => ?_
  split
  · exact OnlyE.bind (uncommitting_deleteQuiet path) fun _ => trivial
  · trivial

private theorem uncommitting_newestBundle (paths : List String)
    (best : Option (String × BundleMeta)) :
    (newestBundle cfg best paths).Uncommitting := by
  induction paths generalizing best with
  | nil => trivial
  | cons path rest ih =>
    refine OnlyE.bind (onlyE_performE trivial) fun r => ?_
    split
    · exact ih best
    · trivial
    refine OnlyE.bind (looks_isExpiredByMeta _).uncommitting fun expired => ?_
    split
    · exact ih best
    split
    · split <;> exact ih _
    · exact ih _

private theorem uncommitting_resolvePick (agent path : String) (noFiles missing : Exc) :
    (Inbox.resolvePick cfg agent path noFiles missing).Uncommitting := by
  unfold Inbox.resolvePick
  split
  · refine OnlyE.bind (looks_listBundles _ _).uncommitting fun refs => ?_
    refine OnlyE.bind (uncommitting_newestBundle _ _) fun found => ?_
    split <;> trivial
  · exact OnlyE.bind (uncommitting_readFreshOr _ _) fun _ => trivial

private theorem uncommitting_buildReferencePayloadForInbox (path : String) (m : BundleMeta)
    (recipient : String) (writeClaim : Bool) :
    (buildReferencePayloadForInbox cfg path m recipient writeClaim).Uncommitting := by
  have hmint : (mintDownload cfg path m recipient).Uncommitting := by
    refine OnlyE.bind (onlyE_performE trivial) fun t => ?_
    exact OnlyE.bind (onlyE_performE trivial) fun _ => trivial
  refine OnlyE.bind hmint.plain fun minted => ?_
  dsimp only
  split
  · refine OnlyE.bind (Handler.Uncommitting.plain (onlyE_performE trivial)) fun createdAt => ?_
    refine OnlyE.bind (onlyE_performE trivial) fun r => ?_
    split <;> trivial
  · trivial

private theorem uncommitting_consume (agent path : String) (m : BundleMeta) (missing : Exc) :
    (Inbox.consume cfg agent path m missing).Uncommitting := by
  unfold Inbox.consume
  split
  · refine OnlyE.bind ?_ fun _ => trivial
    refine OnlyE.tryCatch (uncommitting_buildReferencePayloadForInbox _ _ _ _) fun e => ?_
    split <;> trivial
  · refine OnlyE.bind (looks_collectBundleFiles _ _).uncommitting.plain fun payloads => ?_
    exact OnlyE.bind (uncommitting_deleteQuiet _).plain fun _ => trivial

private theorem PickRequest.uncommitting (r : PickRequest) : (r.handler cfg).Uncommitting := by
  cases r with
  | rest identity agent path =>
    refine OnlyE.bind ?_ fun _ => trivial
    refine OnlyE.bind (looks_enforce _ _ _ _).uncommitting.plain fun _ => ?_
    refine OnlyE.bind (uncommitting_resolvePick _ _ _ _).plain fun found => ?_
    exact OnlyE.bind (uncommitting_consume _ _ _ _) fun _ => trivial
  | mcp caller path =>
    show (Mcp.cassettaPick cfg caller path).Uncommitting
    unfold Mcp.cassettaPick
    split
    · trivial
    refine OnlyE.bind (looks_enforce _ _ _ _).uncommitting.plain fun _ => ?_
    refine OnlyE.bind (Handler.Uncommitting.plain ?_) fun _ => ?_
    · unfold Mcp.validatePickPath
      split
      · trivial
      · exact (looks_validateOr _ _ _).uncommitting
    refine OnlyE.bind (uncommitting_resolvePick _ _ _ _).plain fun found => ?_
    refine OnlyE.bind (uncommitting_consume _ _ _ _) fun envelope => ?_
    exact OnlyE.bind (looks_increment _).uncommitting.plain fun _ => trivial

private theorem ReadRequest.uncommitting (r : ReadRequest) : (r.handler cfg).Uncommitting := by
  cases r with
  | file identity path =>
    refine Handler.Uncommitting.plain ?_
    refine OnlyE.bind (looks_validateOr _ _ _).uncommitting fun _ => ?_
    refine OnlyE.bind (looks_enforce _ _ _ _).uncommitting fun _ => ?_
    refine OnlyE.bind (uncommitting_readFreshOr _ _) fun m => ?_
    split
    · exact OnlyE.bind (looks_buildReferencePayloadForStore _ _ _).uncommitting fun _ => trivial
    · exact OnlyE.bind (looks_collectBundleFiles _ _).uncommitting fun _ => trivial
  | mcpGet caller path =>
    refine Handler.Uncommitting.plain ?_
    refine OnlyE.bind (looks_validateOr _ _ _).uncommitting fun _ => ?_
    refine OnlyE.bind (looks_enforce _ _ _ _).uncommitting fun _ => ?_
    refine OnlyE.bind (uncommitting_readFreshOr _ _) fun m => ?_
    refine OnlyE.bind (looks_increment _).uncommitting fun _ => ?_
    split
    · exact OnlyE.bind (looks_buildReferencePayloadForStore _ _ _).uncommitting fun _ => trivial
    · refine OnlyE.bind (looks_collectBundleFiles _ _).uncommitting fun _ => ?_
      exact OnlyE.bind (looks_increment _).uncommitting fun _ => trivial
  | inbox identity agent path =>
    refine OnlyE.bind (looks_enforce _ _ _ _).uncommitting.plain fun _ => ?_
    refine OnlyE.bind (uncommitting_readFreshOr _ _).plain fun m => ?_
    have hhead : (plain (sendHead [m.sender.getD ""])).Uncommitting :=
      (looks_sendHead _).uncommitting.plain
    split
    · refine OnlyE.bind (uncommitting_buildReferencePayloadForInbox _ _ _ _) fun _ => ?_
      exact OnlyE.bind hhead fun _ => trivial
    · refine OnlyE.bind (looks_collectBundleFiles _ _).uncommitting.plain fun _ => ?_
      exact OnlyE.bind hhead fun _ => trivial

private theorem ListRequest.uncommitting (r : ListRequest) : (r.handler cfg).Uncommitting := by
  have hlisting : ∀ agent pre, (Inbox.listing cfg agent pre).Uncommitting := by
    intro agent pre
    refine OnlyE.bind ?_ fun hidden => ?_
    · refine OnlyE.bind (Handler.Uncommitting.plain (onlyE_performE trivial)) fun t => ?_
      exact OnlyE.bind (onlyE_performE trivial) fun _ => trivial
    refine OnlyE.bind (looks_listBundles _ _).uncommitting.plain fun refs => ?_
    exact OnlyE.bind (looks_listingEntries _ _).uncommitting.plain fun _ => trivial
  cases r with
  | rest identity agent pre =>
    exact OnlyE.bind (looks_enforce _ _ _ _).uncommitting.plain fun _ => hlisting agent pre
  | mcp caller agent pre =>
    show (Mcp.cassettaInbox cfg caller agent pre).Uncommitting
    unfold Mcp.cassettaInbox
    split
    · trivial
    refine OnlyE.bind (looks_enforce _ _ _ _).uncommitting.plain fun _ => ?_
    refine OnlyE.bind (hlisting _ _) fun entries => ?_
    split
    · trivial
    · exact OnlyE.bind (looks_increment _).uncommitting.plain fun _ => trivial

private theorem uncommitting_deleteAll (paths : List String) :
    (Background.deleteAll paths).Uncommitting := by
  induction paths with
  | nil => trivial
  | cons path rest ih => exact OnlyE.bind (onlyE_performE trivial) fun _ => ih

private theorem Background.uncommitting_sweep : (Background.sweep cfg).Uncommitting := by
  have hloop : ∀ t pres, (Background.sweepNamespaces cfg t pres).Uncommitting := by
    intro t pres
    induction pres with
    | nil => trivial
    | cons pre rest ih =>
      refine OnlyE.bind (OnlyE.tryCatch (looks_listBundles _ _).uncommitting fun _ => trivial)
        fun refs => ?_
      exact OnlyE.bind (uncommitting_deleteAll _) fun _ => ih
  exact OnlyE.bind (onlyE_performE trivial) fun t => hloop t _

private theorem Background.uncommitting_ttlCleanup : (Background.ttlCleanup cfg).Uncommitting := by
  have heach : ∀ t paths, (Background.cleanupEach cfg t paths).Uncommitting := by
    intro t paths
    induction paths with
    | nil => trivial
    | cons path rest ih =>
      refine OnlyE.bind (onlyE_performE trivial) fun r => ?_
      split
      · exact ih
      · trivial
      · split
        · exact OnlyE.bind (onlyE_performE trivial) fun _ => ih
        · exact ih
  have hloop : ∀ t pres, (Background.cleanupNamespaces cfg t pres).Uncommitting := by
    intro t pres
    induction pres with
    | nil => trivial
    | cons pre rest ih =>
      refine OnlyE.bind (looks_listBundles _ _).uncommitting fun refs => ?_
      exact OnlyE.bind (heach t _) fun _ => ih
  unfold Background.ttlCleanup
  split
  · trivial
  · refine OnlyE.bind (onlyE_performE trivial) fun t => ?_
    exact OnlyE.tryCatch (hloop t _) fun _ => trivial

private theorem Background.uncommitting_sweepClaims :
    (Background.sweepClaims cfg).Uncommitting := by
  have hone : ∀ t claim, (Background.sweepClaim cfg t claim).Uncommitting := by
    intro t claim
    unfold Background.sweepClaim
    split
    · trivial
    refine OnlyE.bind (Handler.Uncommitting.plain (onlyE_performE trivial)) fun r => ?_
    split
    · exact onlyE_performE trivial
    · trivial
    split
    · refine OnlyE.bind (Handler.Uncommitting.plain (onlyE_performE trivial)) fun _ => ?_
      exact onlyE_performE trivial
    · exact onlyE_performE trivial
  have heach : ∀ t claims, (Background.sweepEach cfg t claims).Uncommitting := by
    intro t claims
    induction claims with
    | nil => trivial
    | cons claim rest ih => exact OnlyE.bind (hone t claim) fun _ => ih
  refine OnlyE.bind (onlyE_performE trivial) fun claims => ?_
  exact OnlyE.bind (Handler.Uncommitting.plain (onlyE_performE trivial)) fun t => heach t _

private theorem uncommitting_prepareSendInit (to_ path : String) (raw : SendManifest)
    (identity : Identity)
    (label : Option String) (allowInline : Bool) :
    (prepareSendInit cfg to_ path raw identity label allowInline).Uncommitting := by
  unfold prepareSendInit
  split
  · trivial
  refine OnlyE.bind (looks_validateOr _ _ _).uncommitting fun _ => ?_
  refine OnlyE.bind ?_ fun recipient => ?_
  · refine OnlyE.bind (onlyE_performE trivial) fun answer => ?_
    refine OnlyE.bind (looks_orCollaborator _).uncommitting fun resolved => ?_
    split
    · split <;> trivial
    · dsimp only
      split <;> trivial
  refine OnlyE.bind (looks_enforce _ _ _ _).uncommitting fun _ => ?_
  split
  · trivial
  refine OnlyE.bind (onlyE_performE trivial) fun bundleId => ?_
  refine OnlyE.bind (onlyE_performE trivial) fun t => ?_
  exact OnlyE.bind (onlyE_performE trivial) fun _ => trivial

/-- The start of an upload commits nothing. -/
theorem Upload.uncommitting_begin (token : Option Token) (path : String) :
    (Upload.begin token path).Uncommitting := by
  unfold Upload.begin
  split
  · trivial
  refine OnlyE.bind (looks_verifyToken _ _).uncommitting fun claims => ?_
  split
  · trivial
  split
  · trivial
  split
  · trivial
  refine OnlyE.bind (onlyE_performE trivial) fun r => ?_
  split <;> trivial

/-- An entry of an upload commits nothing. -/
theorem Upload.uncommitting_entry (task : Upload.Task) (info : Upload.TarEntry) :
    (Upload.entry cfg task info).Uncommitting := by
  refine OnlyE.tryCatch ?_ fun e => OnlyE.bind (onlyE_performE trivial) fun _ => trivial
  split
  · trivial
  split
  · trivial
  split
  · trivial
  split
  · trivial
  split
  · trivial
  refine OnlyE.bind ?_ fun _ => trivial
  exact OnlyE.bind (onlyE_performE trivial) fun r => (looks_orRaise r).uncommitting

private theorem Download.uncommitting_finish (st : Download.Stream) : st.finish.Uncommitting := by
  unfold Download.Stream.finish
  split
  · refine OnlyE.bind (onlyE_performE trivial) fun claim => ?_
    split
    · trivial
    refine OnlyE.bind (onlyE_performE trivial) fun r => ?_
    split
    · trivial
    split
    · refine OnlyE.bind (uncommitting_deleteQuiet _).plain fun _ => ?_
      exact onlyE_performE trivial
    · trivial
  · trivial

end Uncommitting

/-! ## The second phase of a send -/

section SecondPhase

variable {s : Server}

/-- What an upload does within the caps it does so where it is given up on an error. -/
theorem wpE_orAbort {α : Type} {handle : Nat} {x : Handler α}
    (h : wpE (exec cfg env) (fun _ c => CommitsWithin cfg.limits c) x (fun _ _ => True)
      (fun _ _ => True) s) :
    wpE (exec cfg env) (fun _ c => CommitsWithin cfg.limits c) (Upload.orAbort handle x)
      (fun _ _ => True) (fun _ _ => True) s := by
  refine (wpE_tryCatch _ _).mpr (wpE_mono (fun _ _ h => h) (fun e s' _ => ?_) h)
  exact Always.bind (caps_abort handle) (fun _ => (onlyE_throw e).always) s'

private theorem caps_commit {m : BundleMeta} (h : WithinCaps cfg.limits m.files) (handle : Nat) :
    Caps cfg env (commit handle m) := by
  have hcall : CommitsWithin cfg.limits (.commit handle m) := h
  exact Always.bind (onlyE_performE hcall).always fun r => caps_of_looks (looks_orRaise r)

private theorem Upload.caps_finish {task : Upload.Task}
    (h : WithinCaps cfg.limits task.manifestFiles)
    (end_ : Upload.TarEnd) : Caps cfg env (Upload.finish task end_) := by
  intro s
  refine wpE_orAbort ?_
  cases end_ with
  | tarError => trivial
  | broken => trivial
  | complete =>
    dsimp only
    split
    · trivial
    · refine Always.bind (onlyE_performE trivial).always (fun createdAt => ?_) s
      exact caps_commit h _

private theorem caps_writeInlineFiles (handle : Nat) (decoded : List (String × Bytes))
    (files : List FileRecord) : Caps cfg env (writeInlineFiles handle decoded files) := by
  induction files with
  | nil => exact (onlyE_pure _).always
  | cons f rest ih =>
    unfold writeInlineFiles
    split
    · exact (onlyE_throw _).always
    · refine Always.bind ?_ fun _ => ih
      refine Always.bind (onlyE_performE trivial).always fun r => ?_
      exact caps_of_looks (looks_orRaise r)

/-- What a token lists when it is accepted, given that it is not forged. -/
theorem caps_verifyToken {sys : System} {token : Token} (h : sys.VouchesUpload cfg env token)
    (refusal : TokenError → Exc) :
    wpE (exec cfg env) (fun _ c => CommitsWithin cfg.limits c) (verifyToken token refusal)
      (fun claims _ => claims.mode.isSome → WithinCaps cfg.limits (claims.manifest.getD []))
      (fun _ _ => True) sys.server := by
  have hlooks := (looks_verifyToken token refusal).wpE (h := exec cfg env) sys.server
  have hboth := wp_and hlooks (ensures_verifyToken token refusal)
  refine wp_mono ?_ (wp_guard_mono (I := fun _ => True)
    (fun _ c _ hg => ⟨commitsWithin_of_looks c hg.1, trivial⟩) hboth trivial)
  intro r s' hr
  cases r with
  | error e => trivial
  | ok claims =>
    obtain ⟨-, -, -, key, rfl, hkey⟩ := hr
    exact fun hmode => (h hkey hmode).withinCaps

private theorem caps_cassettaSendInline {sys : System} {token : Token}
    (h : sys.VouchesUpload cfg env token) (files : List SendInlineFile) :
    wpE (exec cfg env) (fun _ c => CommitsWithin cfg.limits c) (cassettaSendInline token files)
      (fun _ _ => True) (fun _ _ => True) sys.server := by
  refine (wpE_bind _ _ _).mpr (wpE_mono ?_ (fun _ _ h => h) (caps_verifyToken h _))
  intro claims s₁ hclaims
  split
  · trivial
  rename_i hmode
  have hwithin := hclaims (by rw [not_not.mp hmode]; rfl)
  dsimp only
  split
  · trivial
  split
  · trivial
  split
  · refine Always.bind (onlyE_performE trivial).always (fun r => ?_) s₁
    split
    · exact (onlyE_throw _).always
    · exact (onlyE_throw _).always
    · exact (onlyE_throw _).always
    intro s₂
    refine wpE_orAbort ?_
    refine Always.bind (caps_writeInlineFiles _ _ _) (fun _ => ?_) s₂
    refine Always.bind (onlyE_performE trivial).always fun createdAt => ?_
    exact Always.bind (caps_commit hwithin _) fun _ => (onlyE_pure _).always
  · trivial

private theorem Upload.ensures_begin_withinCaps {sys : System} {token : Option Token}
    (h : ∀ t ∈ token, sys.VouchesUpload cfg env t) (path : String) :
    Ensures (exec cfg env) (Upload.begin token path)
      (fun task _ => WithinCaps cfg.limits task.manifestFiles) sys.server := by
  unfold Upload.begin
  split
  · trivial
  rename_i token
  refine (wpE_bind _ _ _).mpr (ensures_mono (ensures_verifyToken token _) ?_)
  rintro claims s₁ ⟨-, -, key, rfl, hkey⟩
  split
  · trivial
  rename_i hmode
  split
  · trivial
  split
  · trivial
  simp only [wpE_bind, wpE_openBundleWrite, true_and]
  split
  · exact (h _ rfl hkey (by rw [not_not.mp hmode]; rfl)).withinCaps
  · trivial
  · trivial
  · trivial

private theorem Upload.ensures_entry_manifestFiles (task : Upload.Task) (info : Upload.TarEntry) :
    Ensures (exec cfg env) (Upload.entry cfg task info)
      (fun task' _ => task'.manifestFiles = task.manifestFiles) s := by
  refine (wpE_tryCatch _ _).mpr ?_
  split
  · exact ⟨trivial, trivial⟩
  split
  · exact ⟨trivial, trivial⟩
  split
  · exact ⟨trivial, trivial⟩
  split
  · exact ⟨trivial, trivial⟩
  split
  · exact ⟨trivial, trivial⟩
  simp only [wpE_bind, writeFile, wpE_tryWriteFile, wpE_orRaise, true_and]
  split
  · rfl
  · exact ⟨trivial, trivial⟩

end SecondPhase

/-! ## Runs -/

/-- A call of either kind that commits nothing outside of the caps. -/
def AnyCall.CommitsWithin (limits : LimitsConfig) : AnyCall → Prop
  | .plain c => Cassetta.CommitsWithin limits c
  | .claim _ => True

/-- A handler that commits nothing commits within any caps. -/
theorem ClaimHandler.Uncommitting.within {α : Type} {x : ClaimHandler α} (h : x.Uncommitting)
    (s : Server) :
    wpE (execAny cfg env) (fun _ c => c.CommitsWithin cfg.limits) x (fun _ _ => True)
      (fun _ _ => True) s :=
  (h.mono fun c hc => by rcases c with c | c <;> first | trivial | cases c <;> trivial).wpE s

/-- The caps hold of what is committed, and of what the uploads under way may still commit. -/
structure System.Capped (limits : LimitsConfig) (sys : System) : Prop where
  disk : sys.server.disk.Capped limits
  uploads : ∀ task, some task ∈ sys.uploads → WithinCaps limits task.manifestFiles

/-- The manifest of an open upload is within the caps. -/
theorem System.Capped.openUpload {limits : LimitsConfig} {sys : System} (h : sys.Capped limits)
    {k : Nat} {task : Upload.Task} (hk : sys.openUpload k = some task) :
    WithinCaps limits task.manifestFiles :=
  h.uploads task (List.mem_of_getElem? (Option.join_eq_some_iff.mp hk))

/-- The request surfaces. -/
theorem PlainRequest.caps {sys : System} {r : PlainRequest}
    (h : sys.GenuineUploads cfg env (.plain r)) :
    wpE (exec cfg env) (fun _ c => CommitsWithin cfg.limits c) (r.handler cfg) (fun _ _ => True)
      (fun _ _ => True) sys.server := by
  have hdiscard : ∀ {α : Type} {x : Handler α}, Caps cfg env x → Caps cfg env (discard x) :=
    fun hx => Always.bind hx fun _ => (onlyE_pure _).always
  have hun : ∀ {α : Type} {x : Handler α}, x.Uncommitting → Caps cfg env x :=
    fun hx => (hx.mono fun c hc => by cases c <;> trivial).always
  have hlook : ∀ r : PlainRequest, r.Looking → Caps cfg env (r.handler cfg) :=
    fun r hr => caps_of_looks (PlainRequest.looks hr)
  cases r with
  | putFile identity path body => exact hdiscard (Files.caps_uploadFile identity path body) _
  | listFiles identity pre => exact hlook (.listFiles identity pre) trivial _
  | peekFile identity path => exact hlook (.peekFile identity path) trivial _
  | deleteFile identity path =>
    refine hun ?_ _
    refine OnlyE.bind (looks_validateOr _ _ _).uncommitting fun _ => ?_
    exact OnlyE.bind (looks_enforce _ _ _ _).uncommitting fun _ => uncommitting_deleteOr _ _
  | peekInbox identity agent path => exact hlook (.peekInbox identity agent path) trivial _
  | deleteInbox identity agent path =>
    refine hun ?_ _
    exact OnlyE.bind (looks_enforce _ _ _ _).uncommitting fun _ => uncommitting_deleteOr _ _
  | broadcast identity path body => exact hdiscard (Agents.caps_broadcast identity path body) _
  | uploads identity to_ path manifest =>
    refine hdiscard (hun ?_) _
    refine OnlyE.tryCatch (uncommitting_prepareSendInit _ _ _ _ _ _) fun e => ?_
    split <;> trivial
  | mcpSendInit caller to_ path manifest =>
    refine hdiscard (hun ?_) _
    refine OnlyE.tryCatch (uncommitting_prepareSendInit _ _ _ _ _ _) fun e => ?_
    split <;> trivial
  | mcpSendInline token files =>
    exact (wpE_bind _ _ _).mpr (caps_cassettaSendInline h files)
  | mcpPut caller path content files =>
    exact hdiscard (Mcp.caps_cassettaPut caller path content files) _
  | mcpDelete caller path =>
    refine hun ?_ _
    refine OnlyE.bind (looks_validateOr _ _ _).uncommitting fun _ => ?_
    refine OnlyE.bind (looks_enforce _ _ _ _).uncommitting fun _ => ?_
    exact OnlyE.bind (uncommitting_deleteOr _ _) fun _ => (looks_increment _).uncommitting
  | mcpList caller pre => exact hlook (.mcpList caller pre) trivial _
  | mcpPeek caller path => exact hlook (.mcpPeek caller path) trivial _
  | mcpBroadcast caller overHttp path content files =>
    exact hdiscard (Mcp.caps_cassettaBroadcast caller overHttp path content files) _
  | sweep => exact hun Background.uncommitting_sweep _
  | ttlCleanup => exact hun Background.uncommitting_ttlCleanup _

/-- Every commit of an event is within the caps. -/
theorem System.Capped.calls {sys : System} {e : Event} (h : sys.Capped cfg.limits)
    (he : sys.GenuineUploads cfg env e) :
    sys.Calls cfg env (fun _ c => c.CommitsWithin cfg.limits) e := by
  unfold System.Calls
  cases e with
  | plain r => exact (wpE_bind _ _ _).mpr (wpE_plain.mpr (PlainRequest.caps he))
  | list r => exact (wpE_bind _ _ _).mpr (r.uncommitting.within _)
  | read r => exact (wpE_bind _ _ _).mpr (r.uncommitting.within _)
  | pick r => exact (wpE_bind _ _ _).mpr (r.uncommitting.within _)
  | download req =>
    exact (wpE_bind _ _ _).mpr ((Download.looks_downloadFile req).uncommitting.plain.within _)
  | chunk k =>
    simp only [Event.program]
    split
    · trivial
    split
    · exact (wpE_bind _ _ _).mpr ((Download.uncommitting_finish _).within _)
    · trivial
  | uploadBegin token bundlePath =>
    exact (wpE_bind _ _ _).mpr ((Upload.uncommitting_begin token bundlePath).plain.within _)
  | uploadEntry k info =>
    simp only [Event.program]
    split
    · trivial
    · exact (wpE_bind _ _ _).mpr ((Upload.uncommitting_entry _ info).plain.within _)
  | uploadEnd k end_ =>
    simp only [Event.program]
    split
    · trivial
    · rename_i task hk
      exact (wpE_bind _ _ _).mpr (wpE_plain.mpr (Upload.caps_finish (h.openUpload hk) end_ _))
  | sweepClaims => exact (wpE_bind _ _ _).mpr (Background.uncommitting_sweepClaims.within _)
  | _ => trivial

/-- An event keeps a system within the caps. -/
theorem System.Capped.step {sys : System} {e : Event} (h : sys.Capped cfg.limits)
    (he : sys.GenuineUploads cfg env e) : (sys.step cfg env e).Capped cfg.limits := by
  refine ⟨?_, ?_⟩
  · refine System.step_server (I := fun s => s.disk.Capped cfg.limits) ?_ ?_ (h.calls he) h.disk
    · rintro s (c | c) hs hc
      · exact hs.exec hc
      · show (execClaim c s).2.disk.Capped cfg.limits
        rwa [execClaim_disk]
    · intro s hs
      rwa [Event.outside_disk]
  · intro task htask
    have hset :
      ∀ (k : Nat) (o : Option Upload.Task), (∀ t ∈ o, WithinCaps cfg.limits t.manifestFiles) →
        some task ∈ sys.uploads.set k o → WithinCaps cfg.limits task.manifestFiles := by
      intro k o ho hmem
      rcases List.mem_or_eq_of_mem_set hmem with hold | hnew
      · exact h.uploads task hold
      · exact ho task hnew.symm
    rcases hrun : runE (execAny cfg env) (e.program cfg sys) sys.server with ⟨r, s'⟩
    have huploads : (sys.step cfg env e).uploads = sys.uploadsAfter e r := by
      simp only [System.step, hrun]
    rw [huploads] at htask
    unfold System.uploadsAfter at htask
    split at htask
    · rename_i token bundlePath task'
      rcases List.mem_append.mp htask with hold | hnew
      · exact h.uploads task hold
      obtain rfl := Option.some.inj (List.mem_singleton.mp hnew)
      have hvouch : ∀ t ∈ token, sys.VouchesUpload cfg env t := by
        rintro t rfl
        exact he
      have hends : Ensures (execAny cfg env) (Event.program cfg sys (.uploadBegin token bundlePath))
          (fun r _ => ∀ t, r = .upload t → WithinCaps cfg.limits t.manifestFiles) sys.server := by
        refine (wpE_bind _ _ _).mpr (wpE_plain.mpr ?_)
        refine ensures_mono (Upload.ensures_begin_withinCaps hvouch bundlePath) ?_
        rintro task₀ _ hwithin t ht
        cases ht
        exact hwithin
      exact wpE_ok hends hrun task rfl
    · rename_i k info task'
      refine hset k (some task') (fun t ht => ?_) htask
      obtain rfl := Option.some.inj ht
      have hends : Ensures (execAny cfg env) (Event.program cfg sys (.uploadEntry k info))
          (fun r _ => ∀ t, r = .upload t → WithinCaps cfg.limits t.manifestFiles) sys.server := by
        simp only [Ensures, Event.program]
        split
        · exact fun t ht => by cases ht
        rename_i task₀ hk
        refine (wpE_bind _ _ _).mpr (wpE_plain.mpr ?_)
        refine ensures_mono (Upload.ensures_entry_manifestFiles task₀ info) ?_
        rintro task₁ _ hfiles t ht
        cases ht
        rw [hfiles]
        exact h.openUpload hk
      exact wpE_ok hends hrun task' rfl
    · exact hset _ none (by simp) htask
    · exact hset _ none (by simp) htask
    · exact h.uploads task htask

/-- In every run, what is committed is within the caps that are set, and the sizes on record
are those of what was written. -/
theorem System.commits_capped {sys : System} (huploads : sys.uploads = [])
    (hcommits : sys.server.disk.commits = []) (hwriters : ∀ k, sys.server.disk.writers k = none)
    {events : List Event}
    (h : Runs.Guarded (System.step cfg env) (System.GenuineUploads cfg env) sys events) :
    ∀ c ∈ (sys.run cfg env events).server.disk.commits, c.Capped cfg.limits := by
  have hsys : sys.Capped cfg.limits :=
    ⟨⟨by simp [hcommits], by simp [hwriters]⟩, by simp [huploads]⟩
  have hrun : (sys.run cfg env events).Capped cfg.limits :=
    h.invariant (I := fun sys => sys.Capped cfg.limits) (fun _ _ hs he => hs.step he) hsys
  exact hrun.disk.commits

end Cassetta
