import Cassetta.Server.StoreWrite

/-!
# One request, two surfaces

A store bundle can be put over REST and over MCP, and so can a broadcast be sent. The two
implementations were written by hand beside each other. Here each pair is run from the same
state, and this module says exactly when the two come to the same.
-/

namespace Cassetta

open Prog FileTree

variable {cfg : Config} {env : Environment} {s : Server}

/-! ## Committed bundles, up to ids and times -/

/-- What a committed bundle shows apart from its id and its time: the manifest, and the contents
of the files it lists. -/
def Backend.shown (b : Backend) (t : DataTree) (loc : List String) :
    Option (BundleMeta × List (Option Bytes)) :=
  (b.metaAt t loc).map fun m =>
    ({ m with bundleId := 0, createdAt := 0 },
      m.names.map fun n => (t.fileAt (fileLoc loc n)).map b.bytesOf)

/-- The same committed bundles below a location. -/
def Backend.SameBundles (b : Backend) (base : List String) (t t' : DataTree) : Prop :=
  ∀ loc, base <+: loc → b.shown t loc = b.shown t' loc

/-- Trees with the same files have the same bundles. -/
theorem Backend.SameBundles.of_fileAt (b : Backend) (base : List String) {t t' : DataTree}
    (h : t'.fileAt = t.fileAt) : b.SameBundles base t t' := by
  intro loc _
  unfold Backend.shown Backend.metaAt
  rw [h]

private theorem Backend.sameBundles_congr {b : Backend} {base : List String} {t t' t'' : DataTree}
    (h : t''.fileAt = t'.fileAt) : b.SameBundles base t t'' ↔ b.SameBundles base t t' := by
  unfold Backend.SameBundles Backend.shown Backend.metaAt
  rw [h]

/-! ## Broadcasts -/

section Broadcasts

/-- Both broadcasts refuse before they write anything; or both return, to the same recipients,
with as many denied and as many failed, and with the same bundles in place. -/
def BroadcastsAgree (b : Backend) (s : Server) (r r' : Except Exc BroadcastReport × Server) :
    Prop :=
  match r.1, r'.1 with
  | .error _, .error _ => r.2.disk = s.disk ∧ r'.2.disk = s.disk
  | .ok a, .ok a' => a.delivered = a'.delivered ∧ a.denied.length = a'.denied.length ∧
      a.failed.length = a'.failed.length ∧ b.SameBundles [] r.2.disk.tree r'.2.disk.tree
  | _, _ => False

/-- A size within the caps and over the inline limit. -/
structure OverInline (limits : LimitsConfig) (size : Int) : Prop where
  count : ∀ c ∈ limits.perBundleFileCountMax, 1 ≤ c
  each : ∀ c ∈ limits.perFileMax, size ≤ c
  total : ∀ c ∈ limits.perBundleTotalMax, size ≤ c
  inline : ∃ c ∈ limits.maxInlineSize, c < size

/-- The agents a broadcast is meant for, before visibility. -/
def broadcastCandidates (keys : List KeyInfo) (sender : Option String) : List String :=
  (keys.filter fun k => k.isActive ∧ some k.label ≠ sender).map (·.label)

private theorem check_single_iff {limits : LimitsConfig} {f : FilePart} :
    checkManifestAgainstLimits (uploadManifest [f]) limits = .ok .batch ↔
      OverInline limits f.data.length := by
  have hcount : (uploadManifest [f]).fileCount = 1 := rfl
  have htotal : (uploadManifest [f]).totalSize = f.data.length := by
    simp [uploadManifest, UploadManifest.totalSize]
  have hfind : (uploadManifest [f]).files.find? (fun g => overCap limits.perFileMax g.size) =
      if overCap limits.perFileMax f.data.length = true then
        some ⟨f.name, f.data.length, f.mime⟩ else none := by
    simp only [uploadManifest, List.map_cons, List.map_nil, List.find?_cons, List.find?_nil]
    cases overCap limits.perFileMax f.data.length <;> rfl
  have hover : ∀ (cap : Option Int) (value : Int),
      overCap cap value = true ↔ ∃ c ∈ cap, c < value := by
    intro cap value
    cases cap <;> simp [overCap]
  unfold checkManifestAgainstLimits
  rw [hcount, htotal, hfind]
  constructor
  · intro h
    split at h
    · cases h
    rename_i hc
    split at h
    · cases h
    rename_i hf
    split at h
    · cases h
    rename_i ht
    split at h
    · rename_i hi
      have hf' : ¬overCap limits.perFileMax f.data.length = true := by
        intro hover
        rw [if_pos hover] at hf
        cases hf
      rw [hover] at hc hf' ht hi
      push Not at hc hf' ht
      exact ⟨hc, hf', ht, hi⟩
    · cases h
  · intro h
    have hc : ¬overCap limits.perBundleFileCountMax 1 = true := by
      rw [hover]
      push Not
      exact h.count
    have hf : ¬overCap limits.perFileMax f.data.length = true := by
      rw [hover]
      push Not
      exact h.each
    have ht : ¬overCap limits.perBundleTotalMax f.data.length = true := by
      rw [hover]
      push Not
      exact h.total
    rw [if_neg hc, if_neg hf, if_neg ht, if_pos ((hover _ _).mpr h.inline)]

private theorem returns_broadcastTo (cfg : Config) (env : Environment) (s : Server)
    (identity : Identity) (path : String) (parts : List FilePart)
    (sender : Option String) (report : BroadcastReport) (labels : List String) :
    Returns (exec cfg env) (broadcastTo cfg identity path parts sender report labels)
      (fun _ _ => True) s := by
  induction labels generalizing report s with
  | nil => trivial
  | cons label rest ih =>
    refine (wpE_bind _ _ _).mpr (wpE_resolveAlias.mpr ⟨trivial, ?_⟩)
    split
    · exact ih _ _
    · exact ih _ _
    refine (wpE_bind _ _ _).mpr (wpE_check.mpr ⟨trivial, ?_⟩)
    split
    · exact ih _ _
    · exact ih _ _
    have htried : ∀ (x : Handler (Option Exc)) (s : Server), Returns (exec cfg env)
        (tryCatch x fun e => pure (some e)) (fun _ _ => True) s :=
      fun x s => (wpE_tryCatch _ _).mpr (wpE_trivial x)
    exact (wpE_bind _ _ _).mpr (wpE_mono (fun done s' _ => ih _ _) (fun _ _ h => h) (htried _ _))

/-- The fan-out refuses where the cap is exceeded, and returns everywhere else. -/
theorem runE_fanOut (cfg : Config) (env : Environment) (s : Server) (identity : Identity)
    (path : String) (parts : List FilePart)
    (sender : Option String) :
    if cfg.broadcastMaxTargets < (broadcastCandidates s.keys sender).length then
      runE (exec cfg env) (fanOut cfg identity path parts sender) s =
        (.error (.fanoutCapExceeded cfg.broadcastMaxTargets), s)
    else ∃ report s', runE (exec cfg env) (fanOut cfg identity path parts sender) s =
      (.ok report, s') := by
  have hkeys : runE (exec cfg env) listKeys s = (.ok s.keys, s) := rfl
  split
  · rename_i hcap
    have hcheck :
      runE (exec cfg env) (checkFanoutCap cfg (broadcastCandidates s.keys sender).length) s =
        (.error (.fanoutCapExceeded cfg.broadcastMaxTargets), s) := by
      rw [checkFanoutCap, if_pos hcap]
      rfl
    rw [fanOut, runE_bind_ok hkeys, runE_bind, ← broadcastCandidates, hcheck]
  · rename_i hcap
    have hcheck :
      runE (exec cfg env) (checkFanoutCap cfg (broadcastCandidates s.keys sender).length) s =
        (.ok (), s) := by
      rw [checkFanoutCap, if_neg hcap]
      rfl
    have hvisible :
      runE (exec cfg env) (visibleAgents identity (broadcastCandidates s.keys sender)) s =
        (.ok (env.visibleAgents identity (broadcastCandidates s.keys sender)), s) := rfl
    rw [fanOut, runE_bind_ok hkeys, ← broadcastCandidates, runE_bind_ok hcheck,
      runE_bind_ok hvisible]
    split
    · exact ⟨{}, s, rfl⟩
    · rename_i visible hv
      obtain ⟨report, s', hrun, -⟩ := returns_iff_run.mp
        (returns_broadcastTo cfg env s identity path parts sender {} visible)
      exact ⟨report, s', hrun⟩

/-- A metric on the way to a refusal changes at most what is raised. -/
theorem runE_increment_throw (cfg : Config) (env : Environment) (s : Server) (counter : Counter)
    (e : Exc) :
    ∃ e', runE (exec cfg env) (do
      increment counter
      throw e : Handler BroadcastReport) s = (.error e', s) := by
  have htry : runE (exec cfg env) (tryIncrement counter) s = (.ok (env.increment counter), s) := rfl
  rw [runE_bind, increment, runE_bind_ok htry]
  cases env.increment counter with
  | error u => exact ⟨.collaborator, rfl⟩
  | ok u => exact ⟨e, rfl⟩

variable {identity : Identity} {caller : Mcp.Caller} {overHttp : Bool} {path content : String}

private theorem runE_broadcast (hrate : env.admits s.wall = true) :
    runE (exec cfg env) (Agents.broadcast cfg identity path (.raw (Percent.utf8 content))) s =
      match validatePath cfg.allowedPathChars path with
      | .error e => (.error (.http 400 ("Invalid path: " ++ e.message)), s)
      | .ok () =>
        match checkManifestAgainstLimits
          (uploadManifest (rawParts path (Percent.utf8 content))) cfg.limits with
        | .error r => (.error (.limits r), s)
        | .ok _ =>
          runE (exec cfg env) (fanOut cfg identity path (rawParts path (Percent.utf8 content))
            (Agents.senderFromIdentity identity)) s := by
  have hadmitted : runE (exec cfg env) checkRateLimit s = (.ok true, s) := by rw [← hrate]; rfl
  rw [Agents.broadcast, runE_bind_ok hadmitted]
  simp only [not_true_eq_false, if_false]
  rw [runE_bind, validateOr]
  cases validatePath cfg.allowedPathChars path with
  | error e => rfl
  | ok u =>
    show runE (exec cfg env) (match checkManifestAgainstLimits
      (uploadManifest (rawParts path (Percent.utf8 content))) cfg.limits with
      | .error r => throw (.limits r)
      | .ok _ => fanOut cfg identity path (rawParts path (Percent.utf8 content))
          (Agents.senderFromIdentity identity)) s = _
    cases checkManifestAgainstLimits
      (uploadManifest (rawParts path (Percent.utf8 content))) cfg.limits <;> rfl

private theorem runE_cassettaBroadcast (hrate : env.admits s.wall = true)
    (hcontent : content ≠ "") :
    runE (exec cfg env) (Mcp.cassettaBroadcast cfg caller overHttp path content .empty) s =
      match validatePath cfg.allowedPathChars path with
      | .error e => (.error (invalidPath e), s)
      | .ok () =>
        match evaluateUpload cfg (rawParts path (Percent.utf8 content)) with
        | .error r => (.error (.valueLimits r), s)
        | .ok () => runE (exec cfg env) (tryCatch (fanOut cfg caller.effective path
            (rawParts path (Percent.utf8 content)) caller.senderLabel) fun e =>
          match e with
          | .fanoutCapExceeded n => do
            increment ⟨"cassetta.rate_limit.hits", 1,
              [("route", "broadcast"), ("reason", "fanout_cap")]⟩
            throw (.fanoutCapExceeded n)
          | e => throw e) s := by
  have hadmitted : runE (exec cfg env) checkRateLimit s = (.ok true, s) := by rw [← hrate]; rfl
  have hpure : runE (exec cfg env) (pure true : Handler Bool) s = (.ok true, s) := rfl
  have hparts : mcpFileParts path content .empty = .ok (rawParts path (Percent.utf8 content)) := by
    rw [mcpFileParts, if_neg hcontent]
    rfl
  unfold Mcp.cassettaBroadcast
  dsimp only
  cases overHttp
  all_goals
    simp only [if_true, Bool.false_eq_true, if_false]
    first
    | rw [runE_bind_ok hadmitted]
    | rw [runE_bind_ok hpure]
    simp only [not_true_eq_false, if_false]
    rw [runE_bind, validateOr, hparts]
    cases validatePath cfg.allowedPathChars path with
    | error e => rfl
    | ok u =>
      dsimp only
      cases evaluateUpload cfg (rawParts path (Percent.utf8 content)) with
      | error r => rfl
      | ok v => rfl

/-- A text that is broadcast over REST at a URL and over MCP at the path that the route finds in it,
by the same sender and with the rate limit not exceeded, comes to the same if and only if it is not
one that only MCP refuses: one within the caps and over the inline limit, at a path both accept, to
no more agents than the fan-out cap allows. -/
theorem broadcast_agree_iff (cfg : Config) (env : Environment) (s : Server) (overHttp : Bool)
    {rest path : String} (hroute : pathParam rest = some path)
    (hidentity : caller.effective = identity)
    (hsender : caller.senderLabel = Agents.senderFromIdentity identity) (hcontent : content ≠ "")
    (hrate : env.admits s.wall = true) :
    BroadcastsAgree cfg.backend s
        (runE (exec cfg env)
          (Agents.routedBroadcast cfg identity rest (.raw (Percent.utf8 content))) s)
        (runE (exec cfg env) (Mcp.cassettaBroadcast cfg caller overHttp path content .empty) s) ↔
      ¬(validatePath cfg.allowedPathChars path = .ok () ∧
        OverInline cfg.limits (Percent.utf8 content).length ∧
        (broadcastCandidates s.keys caller.senderLabel).length ≤ cfg.broadcastMaxTargets) := by
  have hbatch :
    checkManifestAgainstLimits (uploadManifest (rawParts path (Percent.utf8 content))) cfg.limits =
      .ok .batch ↔ OverInline cfg.limits (Percent.utf8 content).length := check_single_iff
  have hfan := runE_fanOut cfg env s identity path (rawParts path (Percent.utf8 content))
    caller.senderLabel
  rw [Agents.routedBroadcast, hroute, routed_some, runE_broadcast hrate,
    runE_cassettaBroadcast hrate hcontent, ← hsender, hidentity, ← hbatch]
  cases hpath : validatePath cfg.allowedPathChars path with
  | error e => simp [BroadcastsAgree]
  | ok u =>
    cases hcheck :
      checkManifestAgainstLimits
        (uploadManifest (rawParts path (Percent.utf8 content))) cfg.limits with
    | error r => simp [BroadcastsAgree, evaluateUpload, hcheck]
    | ok mode =>
      cases mode with
      | batch =>
        simp only [evaluateUpload, hcheck]
        split at hfan
        · rename_i hcap
          simp [BroadcastsAgree, hfan, hcap]
        · rename_i hcap
          obtain ⟨report, s', hrun⟩ := hfan
          simp [BroadcastsAgree, hrun, not_lt.mp hcap]
      | inline =>
        simp only [evaluateUpload, hcheck]
        rw [runE_tryCatch]
        split at hfan
        · obtain ⟨e, hraise⟩ := runE_increment_throw cfg env s
            ⟨"cassetta.rate_limit.hits", 1, [("route", "broadcast"), ("reason", "fanout_cap")]⟩
            (.fanoutCapExceeded cfg.broadcastMaxTargets)
          simp [BroadcastsAgree, hfan, hraise]
        · obtain ⟨report, s', hrun⟩ := hfan
          simp [BroadcastsAgree, hrun, Backend.SameBundles]

/-- What `alice` broadcasts as one byte reaches `bob` on both surfaces. -/
theorem broadcast_agree_small :
    (runE (exec oneByteConfig .core)
    (Agents.routedBroadcast oneByteConfig alice "p" (.raw (Percent.utf8 "x")))
        srvSystem.server).1.toOption.map (·.delivered) = some ["bob:b"] ∧
      BroadcastsAgree oneByteConfig.backend srvSystem.server
        (runE (exec oneByteConfig .core)
          (Agents.routedBroadcast oneByteConfig alice "p" (.raw (Percent.utf8 "x")))
          srvSystem.server)
        (runE (exec oneByteConfig .core)
          (Mcp.cassettaBroadcast oneByteConfig ⟨some alice, some "alice:a"⟩ true "p" "x" .empty)
          srvSystem.server) := by
  have hidentity : (⟨some alice, some "alice:a"⟩ : Mcp.Caller).effective = alice := rfl
  have hsender : (⟨some alice, some "alice:a"⟩ : Mcp.Caller).senderLabel =
      Agents.senderFromIdentity alice := by decide
  have hcontent : "x" ≠ "" := by decide
  refine ⟨by decide +kernel, (broadcast_agree_iff oneByteConfig .core srvSystem.server true
    (by decide : pathParam "p" = some "p") hidentity hsender hcontent rfl).mpr ?_⟩
  rintro ⟨-, hover, -⟩
  obtain ⟨c, hc, hlt⟩ := hover.inline
  obtain rfl := Option.some.inj hc
  exact absurd hlt (by decide +kernel)

/-- Two bytes are over the inline limit there: they reach `bob` over REST and are refused over
MCP. -/
theorem broadcast_disagree :
    (runE (exec oneByteConfig .core)
        (Agents.routedBroadcast oneByteConfig alice "p" (.raw (Percent.utf8 "xy")))
        srvSystem.server).1.toOption.map (·.delivered) = some ["bob:b"] ∧
      (runE (exec oneByteConfig .core)
        (Mcp.cassettaBroadcast oneByteConfig ⟨some alice, some "alice:a"⟩ true "p" "xy" .empty)
        srvSystem.server).1 =
          .error (.valueLimits ⟨.batchRequired, .maxInlineSize, some 1, 2⟩) ∧
      ¬BroadcastsAgree oneByteConfig.backend srvSystem.server
        (runE (exec oneByteConfig .core)
          (Agents.routedBroadcast oneByteConfig alice "p" (.raw (Percent.utf8 "xy")))
          srvSystem.server)
        (runE (exec oneByteConfig .core)
          (Mcp.cassettaBroadcast oneByteConfig ⟨some alice, some "alice:a"⟩ true "p" "xy" .empty)
          srvSystem.server) := by
  have hrest : (runE (exec oneByteConfig .core)
      (Agents.routedBroadcast oneByteConfig alice "p" (.raw (Percent.utf8 "xy")))
      srvSystem.server).1.toOption.map (·.delivered) = some ["bob:b"] := by decide +kernel
  have hmcp : (runE (exec oneByteConfig .core)
      (Mcp.cassettaBroadcast oneByteConfig ⟨some alice, some "alice:a"⟩ true "p" "xy" .empty)
      srvSystem.server).1 = .error (.valueLimits ⟨.batchRequired, .maxInlineSize, some 1, 2⟩) := by
    decide +kernel
  refine ⟨hrest, hmcp, fun h => ?_⟩
  unfold BroadcastsAgree at h
  rw [hmcp] at h
  split at h
  · rename_i e _ hr _
    rw [hr] at hrest
    cases hrest
  · rename_i hr
    cases hr
  · exact h

end Broadcasts

/-! ## Puts -/

section Puts

variable {identity : Identity} {caller : Mcp.Caller} {path content : String} {data : Bytes}

/-- Both puts refuse and leave the committed store bundles as they were; or both go through and
leave the same ones. -/
def PutsAgree {α β : Type} (b : Backend) (s : Server) (r : Except Exc α × Server)
    (r' : Except Exc β × Server) : Prop :=
  match r.1, r'.1 with
  | .error _, .error _ => b.SameBundles b.storeLoc s.disk.tree r.2.disk.tree ∧
      b.SameBundles b.storeLoc s.disk.tree r'.2.disk.tree
  | .ok _, .ok _ => b.SameBundles b.storeLoc r.2.disk.tree r'.2.disk.tree
  | _, _ => False

private theorem unreserved_iff (path : String) :
    Files.reservedPrefixes.find? (startsWith path) = none ↔
      ¬(startsWith path "inbox/" = true ∨ startsWith path "store/" = true) := by
  simp [Files.reservedPrefixes, List.find?_eq_none]

private theorem mcpFileParts_content (path : String) (hcontent : content ≠ "") :
    mcpFileParts path content .empty = .ok (rawParts path (Percent.utf8 content)) := by
  rw [mcpFileParts, if_neg hcontent]
  rfl

private theorem cassettaPut_refused (hcontent : content ≠ "")
    (h : ¬Admitted cfg path (Percent.utf8 content)) :
    ∃ e s',
      runE (exec cfg env) (Mcp.cassettaPut cfg caller path content .empty) s = (.error e, s') ∧
      s'.disk = s.disk := by
  unfold Mcp.cassettaPut
  cases hpath : validatePath cfg.allowedPathChars path with
  | error e =>
    refine ⟨invalidPath e, s, ?_, rfl⟩
    rw [runE_bind, validateOr, hpath]
    rfl
  | ok u =>
    rw [runE_bind_ok (runE_validateOr hpath invalidPath s)]
    by_cases hres : startsWith path "inbox/" = true ∨ startsWith path "store/" = true
    · rw [if_pos hres]
      exact ⟨_, s, rfl, rfl⟩
    · rw [if_neg hres, mcpFileParts_content path hcontent]
      cases heval : evaluateUpload cfg (rawParts path (Percent.utf8 content)) with
      | error r => exact ⟨.valueLimits r, s, by simp only [heval]; rfl, rfl⟩
      | ok v => exact absurd ⟨hpath, (unreserved_iff path).mpr hres, heval⟩ h

/-- An admitted MCP put deletes whatever directory is there, and writes. -/
theorem runE_cassettaPut (hcontent : content ≠ "")
    (hallowed : env.check caller.effective (.files path) .write = .ok true)
    (hmetrics : ∀ c, env.increment c = .ok ()) (h : Admitted cfg path (Percent.utf8 content)) :
    ∃ a, runE (exec cfg env) (Mcp.cassettaPut cfg caller path content .empty) s =
      answering a (runE (exec cfg env) (putBundle cfg path (Percent.utf8 content) s.nextId)
        (s.putting path (cfg.backend.dropped s path))) := by
  have hid : runE (exec cfg env) newId { s with asked := .files path :: s.asked } =
      (.ok s.nextId, s.putting path s.disk) := rfl
  have hdrop : runE (exec cfg env) (deleteQuiet (storePath path)) (s.putting path s.disk) =
      (.ok (), s.putting path (cfg.backend.dropped s path)) :=
    runE_deleteQuiet_store h.valid (s.putting path s.disk)
  unfold Mcp.cassettaPut
  rw [runE_bind_ok (runE_validateOr h.valid invalidPath s),
    if_neg ((unreserved_iff path).mp h.unreserved), mcpFileParts_content path hcontent]
  simp only [h.within, Mcp.enforceMcp]
  rw [runE_bind_ok (runE_enforce_ok hallowed valueForbidden s), runE_bind_ok hid,
    runE_bind_ok hdrop, runE_bind, ← putBundle]
  refine ⟨1, ?_⟩
  rcases runE (exec cfg env) (putBundle cfg path (Percent.utf8 content) s.nextId)
    (s.putting path (cfg.backend.dropped s path)) with ⟨r, s'⟩
  cases r with
  | error e => rfl
  | ok m =>
    simp only [answering]
    rw [runE_bind_ok (runE_increment (hmetrics _) s'),
      runE_bind_ok (runE_increment (hmetrics _) s')]
    rfl

/-- A bundle fits at a store path once the directory there is gone: the last segment is a file
name, and no directory above looks like a bundle. -/
def Backend.Takes (b : Backend) (t : DataTree) (path : String) : Prop :=
  FileName (lastSegment path) ∧
    b.checkBundlePathCollision (t.remove (b.location (storePath path)))
      (b.resolve (storePath path)) = none

/-- Where there is a directory at the path: one with a readable manifest gives way to a bundle;
one without can neither be replaced nor holds anything of a committed bundle. -/
def Backend.PutsAlike (b : Backend) (t : DataTree) (path : String) : Prop :=
  t.isDir (b.resolve (storePath path)) = true →
    if (b.readBundleMeta t (storePath path)).isSome then b.Takes t path
    else ¬b.Takes t path ∧ ∀ loc m, b.storeLoc <+: loc → b.metaAt t loc = some m →
      ¬Reaches t (b.location (storePath path)) loc m

private theorem without_remove {t : DataTree} {loc : List String} (hne : loc ≠ [])
    (hdir : t.get loc = some .dir) : Without t (t.remove loc) (· = loc) := by
  refine ⟨fun dir hd => hd ▸ hdir, fun q => ?_⟩
  by_cases hq : q = []
  · subst hq
    refine .inr ⟨fun dir hd hp => hne (hd ▸ List.prefix_nil.mp hp), ?_⟩
    simp [Tree.fileAt]
  · by_cases hp : loc <+: q
    · exact .inl ⟨⟨loc, rfl, hp⟩, by rw [Tree.fileAt, Tree.get_remove _ _ hq, if_pos hp]⟩
    · refine .inr ⟨fun dir hd => hd ▸ hp, ?_⟩
      rw [Tree.fileAt, Tree.get_remove _ _ hq, if_neg hp]
      rfl

/-- Removing a directory leaves the bundles the same when none of them reaches into it. -/
theorem sameBundles_remove_iff {b : Backend} {base : List String} {t : DataTree}
    {loc : List String} (hne : loc ≠ []) (hdir : t.get loc = some .dir) :
    b.SameBundles base t (t.remove loc) ↔
      ∀ loc' m, base <+: loc' → b.metaAt t loc' = some m → ¬Reaches t loc loc' m := by
  have hwithout := without_remove hne hdir
  have hkeeps : ∀ loc' m, b.metaAt t loc' = some m →
      (b.KeepsBundle t (t.remove loc) loc' m ↔ ¬Reaches t loc loc' m) := by
    intro loc' m hm
    rw [hwithout.keeps_iff hm]
    simp
  constructor
  · intro hsame loc' m hbase hm
    rw [← hkeeps loc' m hm]
    have hshown := hsame loc' hbase
    unfold Backend.shown at hshown
    rw [hm] at hshown
    cases hm' : b.metaAt (t.remove loc) loc' with
    | none =>
      rw [hm'] at hshown
      cases hshown
    | some m' =>
      obtain rfl : m' = m := by
        rcases hwithout.2 (loc' ++ [bundleManifest]) with ⟨-, hnone⟩ | ⟨-, hfile⟩
        · rw [Backend.metaAt, hnone] at hm'
          cases hm'
        · rw [Backend.metaAt, hfile] at hm'
          exact Option.some.inj (hm'.symm.trans hm)
      rw [hm'] at hshown
      simp only [Option.map_some, Option.some.injEq, Prod.mk.injEq, true_and, BundleMeta.names,
        List.map_map] at hshown
      refine ⟨hm', fun f hf => ?_⟩
      have hfile := List.map_inj_left.mp hshown f hf
      simp only [Function.comp_apply] at hfile
      rcases hwithout.2 (fileLoc loc' f.name) with ⟨-, hnone⟩ | ⟨-, hkept⟩
      · rw [hnone, Option.map_none, Option.map_eq_none_iff] at hfile
        rw [hnone, hfile]
      · exact hkept
  · intro hclear loc' hbase
    unfold Backend.shown
    cases hm : b.metaAt t loc' with
    | none =>
      have hm' : b.metaAt (t.remove loc) loc' = none := by
        rcases hwithout.2 (loc' ++ [bundleManifest]) with ⟨-, hnone⟩ | ⟨-, hfile⟩
        · rw [Backend.metaAt, hnone]
          rfl
        · rw [Backend.metaAt, hfile]
          exact hm
      rw [hm']
      rfl
    | some m =>
      obtain ⟨hm', hfiles⟩ := (hkeeps loc' m hm).mpr (hclear loc' m hbase hm)
      rw [hm']
      simp only [Option.map_some, Option.some.injEq, Prod.mk.injEq, true_and, BundleMeta.names,
        List.map_map]
      refine List.map_inj_left.mpr fun f hf => ?_
      simp only [Function.comp_apply, hfiles f hf]

/-- The way to a directory can still be gone when the directory is removed. -/
theorem reachable_remove {d : Disk} {b : Backend} {path : String} {loc : List String}
    (hspell : b.resolve path = spell loc) (hne : loc ≠ []) (hdir : d.tree.get loc = some .dir)
    (now : Nat) : b.Reachable (d.setTree now (d.tree.remove loc)) path := by
  refine ⟨fun pre hpre c hc => ?_, by rw [hspell]; exact Tree.opens_spell hne⟩
  have hp : normalize pre <+: loc := by
    obtain ⟨rest, hrest⟩ := hpre.trans (List.dropLast_prefix _)
    rw [hspell] at hrest
    have hup : Step.up ∉ rest := fun hm => by
      have hm' : Step.up ∈ spell loc := hrest ▸ List.mem_append_right pre hm
      simp [spell] at hm'
    refine ⟨normalize rest, ?_⟩
    rw [← normalizeFrom_spell, ← eq_spell_normalize hup, ← normalize_append, hrest, normalize_spell]
  have hold : d.tree.get (normalize pre) = some .dir := by
    by_cases he : normalize pre = loc
    · rw [he, hdir]
    · exact Tree.get_of_prefix hp he hdir
  change (d.tree.remove loc).get (normalize pre) = some (.file c) at hc
  by_cases hnil : normalize pre = []
  · rw [hnil, Tree.get_nil] at hc
    cases hc
  · rw [Tree.get_remove _ _ hnil, hold] at hc
    split at hc <;> cases hc

section Write

variable {allowed : Char → Bool} {bundleId : Id}

private theorem dropped_of_dir {b : Backend} (h : validatePath allowed path = .ok ())
    (hdir : s.disk.tree.get (b.storeLoc ++ below path) = some .dir) :
    b.dropped s path = s.disk.setTree s.wall (s.disk.tree.remove (b.storeLoc ++ below path)) := by
  rw [Backend.dropped, Backend.deleteBundle_spelled (resolve_storePath h) (storeLoc_ne_nil _ _),
    if_pos (Tree.dirAt_iff.mpr hdir)]

private theorem dropped_of_not_dir {b : Backend} (h : validatePath allowed path = .ok ())
    (hdir : s.disk.tree.get (b.storeLoc ++ below path) ≠ some .dir) :
    b.dropped s path = s.disk := by
  rw [Backend.dropped, Backend.deleteBundle_spelled (resolve_storePath h) (storeLoc_ne_nil _ _),
    if_neg fun hd => hdir (Tree.dirAt_iff.mp hd)]

/-- A directory that has been dropped makes room exactly where a bundle fits. -/
theorem putBundle_dropped_iff (h : validatePath allowed path = .ok ())
    (hdir : s.disk.tree.get (cfg.backend.storeLoc ++ below path) = some .dir) :
    Returns (exec cfg env) (putBundle cfg path data bundleId) (fun _ _ => True)
        (s.putting path (cfg.backend.dropped s path)) ↔ cfg.backend.Takes s.disk.tree path := by
  have hne := storeLoc_ne_nil cfg.backend (below path)
  have htree : (s.putting path (cfg.backend.dropped s path)).disk.tree =
      s.disk.tree.remove (cfg.backend.storeLoc ++ below path) := by
    rw [dropped_of_dir h hdir]
    rfl
  have hreach : cfg.backend.Reachable (s.putting path (cfg.backend.dropped s path)).disk
      (storePath path) := by
    rw [dropped_of_dir h hdir]
    exact reachable_remove (resolve_storePath h) hne hdir s.wall
  rw [putBundle, writeStore_isOk_iff h]
  · rw [htree, Backend.Takes, location_storePath h]
    constructor
    · rintro ⟨hcollide, -, hname⟩
      exact ⟨hname, hcollide⟩
    · rintro ⟨hname, hcollide⟩
      exact ⟨hcollide, hreach, hname⟩
  · rw [htree, Tree.get_remove _ _ hne, if_pos (List.prefix_refl _)]

/-- A directory that is there keeps a bundle out. -/
theorem putBundle_occupied (h : validatePath allowed path = .ok ())
    (hdir : s.disk.tree.get (cfg.backend.storeLoc ++ below path) = some .dir) :
    ¬Returns (exec cfg env) (putBundle cfg path data bundleId) (fun _ _ => True)
      (s.putting path s.disk) := by
  rw [putBundle, returns_writeBundle]
  rintro ⟨k, d₁, d₂, d₃, hopen, -⟩
  rcases Backend.openBundleWrite_cases (b := cfg.backend) s.wall (storePath path) s.disk with
    ⟨e, t, heq, -⟩ | ⟨e, heq⟩ | ⟨t, t', -, hgrown, hmk, -⟩
  · exact absurd (heq.symm.trans hopen) (by simp)
  · exact absurd (heq.symm.trans hopen) (by simp)
  · obtain ⟨-, hnone, -, -⟩ := Tree.mkdir_ok hmk
    rw [resolve_storePath h, normalize_spell, hgrown.get_some hdir] at hnone
    cases hnone

end Write

/-- A put's write goes through, or leaves every file as it was. -/
theorem putBundle_ends {allowed : Char → Bool} (h : validatePath allowed path = .ok ())
    (cfg : Config) (env : Environment) (data : Bytes) (bundleId : Id) (s : Server) :
    (Returns (exec cfg env) (putBundle cfg path data bundleId) (fun _ _ => True) s ∧
        ∃ m s', runE (exec cfg env) (putBundle cfg path data bundleId) s = (.ok m, s')) ∨
      ¬Returns (exec cfg env) (putBundle cfg path data bundleId) (fun _ _ => True) s ∧
        ∃ e s', runE (exec cfg env) (putBundle cfg path data bundleId) s = (.error e, s') ∧
          s'.disk.tree.fileAt = s.disk.tree.fileAt := by
  rcases hrun : runE (exec cfg env) (putBundle cfg path data bundleId) s with ⟨r, s'⟩
  cases r with
  | ok m => exact .inl ⟨returns_iff_run.mpr ⟨m, s', hrun, trivial⟩, m, s', rfl⟩
  | error e =>
    refine .inr ⟨fun hreturns => ?_, e, s', rfl, writeStore_fails h data _ _ _ hrun⟩
    obtain ⟨m, s'', hok, -⟩ := returns_iff_run.mp hreturns
    rw [hrun] at hok
    cases hok

/-- Two puts that write from the same state agree when the write goes through, or when there
was nothing to lose on the way to it. -/
theorem putsAgree_same {allowed : Char → Bool} {α β : Type} (h : validatePath allowed path = .ok ())
    (cfg : Config) (env : Environment) (data : Bytes) (s s₀ : Server) (bundleId : Id) (a : α)
    (a' : β) :
    PutsAgree cfg.backend s
        (answering a (runE (exec cfg env) (putBundle cfg path data bundleId) s₀))
        (answering a' (runE (exec cfg env) (putBundle cfg path data bundleId) s₀)) ↔
      Returns (exec cfg env) (putBundle cfg path data bundleId) (fun _ _ => True) s₀ ∨
        cfg.backend.SameBundles cfg.backend.storeLoc s.disk.tree s₀.disk.tree := by
  rcases putBundle_ends h cfg env data bundleId s₀ with
    ⟨hreturns, m, s', hrun⟩ | ⟨hnot, e, s', hrun, hfiles⟩
  · rw [hrun]
    simp only [answering, PutsAgree, hreturns, true_or, iff_true]
    exact .of_fileAt _ _ rfl
  · rw [hrun]
    simp only [answering, PutsAgree, and_self]
    rw [Backend.sameBundles_congr hfiles, or_iff_right hnot]

/-- A text that is put over REST at a URL and over MCP at the path that the route finds in it, by a
caller who may write and with metrics that do not raise, comes to the same if and only if it is
refused beforehand, or the two come to the same at the path. -/
theorem put_agree_iff (cfg : Config) (env : Environment) (s : Server) {rest path : String}
    (hroute : pathParam rest = some path) (hidentity : caller.effective = identity)
    (hallowed : env.check identity (.files path) .write = .ok true)
    (hmetrics : ∀ c, env.increment c = .ok ()) (hcontent : content ≠ "") :
    PutsAgree cfg.backend s
        (runE (exec cfg env)
          (Files.routedUpload cfg identity rest (.raw (Percent.utf8 content))) s)
        (runE (exec cfg env) (Mcp.cassettaPut cfg caller path content .empty) s) ↔
      (Admitted cfg path (Percent.utf8 content) → cfg.backend.PutsAlike s.disk.tree path) := by
  rw [Files.routedUpload, hroute, routed_some]
  by_cases hadmitted : Admitted cfg path (Percent.utf8 content)
  · have hvalid := hadmitted.valid
    have hne := storeLoc_ne_nil cfg.backend (below path)
    have hspell :
      cfg.backend.resolve (storePath path) = spell (cfg.backend.storeLoc ++ below path) :=
      resolve_storePath hvalid
    have hmeta : cfg.backend.readBundleMeta s.disk.tree (storePath path) =
        cfg.backend.metaAt s.disk.tree (cfg.backend.storeLoc ++ below path) :=
      Backend.readBundleMeta_eq hspell
    obtain ⟨a, hrest⟩ := runE_uploadFile (s := s) hallowed hadmitted
    obtain ⟨a', hmcp⟩ := @runE_cassettaPut cfg env s caller path content hcontent
      (hidentity ▸ hallowed) hmetrics hadmitted
    rw [forall_prop_of_true hadmitted, hrest, hmcp, Backend.PutsAlike, hmeta,
      location_storePath hvalid, hspell, Tree.isDir_spell]
    by_cases hdir : s.disk.tree.get (cfg.backend.storeLoc ++ below path) = some .dir
    · have htakes :=
        @putBundle_dropped_iff cfg env s path (Percent.utf8 content) _ s.nextId hvalid hdir
      have hdropped : (s.putting path (cfg.backend.dropped s path)).disk.tree =
          s.disk.tree.remove (cfg.backend.storeLoc ++ below path) := by
        rw [dropped_of_dir hvalid hdir]
        rfl
      have hclear := @sameBundles_remove_iff cfg.backend cfg.backend.storeLoc _ _ hne hdir
      rw [forall_prop_of_true hdir]
      cases hm : cfg.backend.metaAt s.disk.tree (cfg.backend.storeLoc ++ below path) with
      | some m =>
        simp only [Option.isSome_some, if_true]
        rw [putsAgree_same hvalid, htakes, hdropped, hclear, or_iff_left]
        intro hall
        exact hall _ m (List.prefix_append _ _) hm (.inl (List.prefix_refl _))
      | none =>
        simp only [Option.isSome_none, Bool.false_eq_true, if_false]
        rcases putBundle_ends hvalid cfg env (Percent.utf8 content) s.nextId
          (s.putting path s.disk) with ⟨hreturns, -⟩ | ⟨-, e, s₁, hrun₁, hfiles₁⟩
        · exact absurd hreturns (putBundle_occupied hvalid hdir)
        rcases putBundle_ends hvalid cfg env (Percent.utf8 content) s.nextId
          (s.putting path (cfg.backend.dropped s path)) with
          ⟨hreturns, m, s₂, hrun₂⟩ | ⟨hnot, e₂, s₂, hrun₂, hfiles₂⟩
        · rw [hrun₁, hrun₂]
          simp [answering, PutsAgree, htakes.mp hreturns]
        · rw [hrun₁, hrun₂]
          simp only [answering, PutsAgree]
          rw [Backend.sameBundles_congr hfiles₁, Backend.sameBundles_congr hfiles₂,
            hdropped, hclear,
            and_iff_right (mt htakes.mpr hnot), and_iff_right]
          exact .of_fileAt _ _ rfl
    · have hm : cfg.backend.metaAt s.disk.tree (cfg.backend.storeLoc ++ below path) = none := by
        rw [← Option.not_isSome_iff_eq_none]
        intro hsome
        obtain ⟨m, hm⟩ := Option.isSome_iff_exists.mp hsome
        exact hdir (Backend.dir_of_metaAt hm)
      rw [forall_prop_of_false hdir, hm, dropped_of_not_dir hvalid hdir]
      simp only [Option.isSome_none, Bool.false_eq_true, if_false, iff_true]
      rw [putsAgree_same hvalid]
      exact .inr (.of_fileAt _ _ rfl)
  · obtain ⟨e, s₁, hrest, hd₁⟩ := uploadFile_refused (s := s) hallowed hadmitted
    obtain ⟨e', s₂, hmcp, hd₂⟩ :=
      @cassettaPut_refused cfg env s caller path content hcontent hadmitted
    simp only [hadmitted, false_imp_iff, iff_true, hrest, hmcp, PutsAgree, hd₁, hd₂]
    exact ⟨.of_fileAt _ _ rfl, .of_fileAt _ _ rfl⟩

/-- A text at a path where nothing is, put on either surface. -/
theorem put_agree_small :
    (runE (exec oneByteConfig .core)
    (Mcp.cassettaPut oneByteConfig ⟨some alice, some "alice:a"⟩ "p" "x"
        .empty) srvSystem.server).1 = .ok 1 ∧
      PutsAgree oneByteConfig.backend srvSystem.server
        (runE (exec oneByteConfig .core)
          (Files.routedUpload oneByteConfig alice "p" (.raw (Percent.utf8 "x"))) srvSystem.server)
        (runE (exec oneByteConfig .core)
          (Mcp.cassettaPut oneByteConfig ⟨some alice, some "alice:a"⟩ "p" "x" .empty)
          srvSystem.server) := by
  have hidentity : (⟨some alice, some "alice:a"⟩ : Mcp.Caller).effective = alice := rfl
  have hcontent : "x" ≠ "" := by decide
  have hnodir : srvSystem.server.disk.tree.isDir (oneByteConfig.backend.resolve (storePath "p")) =
      false := by decide +kernel
  refine ⟨by decide +kernel, (put_agree_iff oneByteConfig .core srvSystem.server
    (by decide : pathParam "p" = some "p") hidentity rfl (fun _ => rfl) hcontent).mpr fun _
    hdir => ?_⟩
  rw [hnodir] at hdir
  cases hdir

/-- A server with a bundle at `a/b` in the store. -/
def innerServer : Server :=
  (srvSystem.run oneByteConfig .core [.plain (.putFile alice "a/b" (.raw [1]))]).server

/-- A text at `a`: over REST the bundle below keeps it out, and over MCP it takes the bundle's
place. -/
theorem put_disagree :
    (oneByteConfig.backend.readBundleMeta innerServer.disk.tree "store/a/b").isSome = true ∧
      (runE (exec oneByteConfig .core)
        (Files.routedUpload oneByteConfig alice "a" (.raw (Percent.utf8 "x"))) innerServer).1 =
          .error (.storage (.bundlePathConflict "store/a/b" .shadowParent)) ∧
      (runE (exec oneByteConfig .core)
        (Mcp.cassettaPut oneByteConfig ⟨some alice, some "alice:a"⟩ "a" "x" .empty) innerServer).1 =
          .ok 1 ∧
      oneByteConfig.backend.readBundleMeta (runE (exec oneByteConfig .core)
        (Mcp.cassettaPut oneByteConfig ⟨some alice, some "alice:a"⟩ "a" "x" .empty)
        innerServer).2.disk.tree "store/a/b" = none ∧
      ¬PutsAgree oneByteConfig.backend innerServer
        (runE (exec oneByteConfig .core)
          (Files.routedUpload oneByteConfig alice "a" (.raw (Percent.utf8 "x"))) innerServer)
        (runE (exec oneByteConfig .core)
          (Mcp.cassettaPut oneByteConfig ⟨some alice, some "alice:a"⟩ "a" "x" .empty)
          innerServer) := by
  have hrest : (runE (exec oneByteConfig .core)
      (Files.routedUpload oneByteConfig alice "a" (.raw (Percent.utf8 "x"))) innerServer).1 =
        .error (.storage (.bundlePathConflict "store/a/b" .shadowParent)) := by decide +kernel
  have hmcp : (runE (exec oneByteConfig .core)
      (Mcp.cassettaPut oneByteConfig ⟨some alice, some "alice:a"⟩ "a" "x" .empty) innerServer).1 =
        .ok 1 := by decide +kernel
  refine ⟨by decide +kernel, hrest, hmcp, by decide +kernel, fun h => ?_⟩
  unfold PutsAgree at h
  rw [hrest, hmcp] at h
  exact h

end Puts

end Cassetta
