import Cassetta.Auth.Admin
import Cassetta.Guarantee.Fanout
import Cassetta.Server.Quiet

/-!
# Metrics and outcomes

A request is run against a provider that answers or raises at each call as it likes, and against
one that always answers. The surfaces are taken with any guarded emissions put in: those decide
nothing. What decides something is the calls the MCP tools make outside of `safe_emit`.
-/

namespace Cassetta

open Prog

variable {cfg : Config} {env : Environment} {α β : Type}

/-! ## Requests -/

/-- The REST operations. -/
inductive RestRequest where
  | capabilities
  | putFile (identity : Identity) (path : String) (body : Body)
  | listFiles (identity : Identity) (pre : String)
  | getFile (identity : Identity) (path : String)
  | deleteFile (identity : Identity) (path : String)
  | listInbox (identity : Identity) (agent pre : String)
  | peekInbox (identity : Identity) (agent path : String)
  | getInbox (identity : Identity) (agent path : String)
  | pickInbox (identity : Identity) (agent path : String)
  | deleteInbox (identity : Identity) (agent path : String)
  | putInbox (agent path : String)
  | agents (identity : Identity)
  | broadcast (identity : Identity) (path : String) (body : Body)
  | uploads (identity : Identity) (to_ path : String) (manifest : SendManifest)
  | upload (token : Option Token) (bundlePath : String) (infos : List Upload.TarEntry)
    (end_ : Upload.TarEnd)
  | download (req : Download.Request)
  | streamed (st : Download.Stream)

def RestRequest.Result : RestRequest → Type
  | .capabilities => CapabilitiesDocument
  | .putFile .. => Files.Uploaded
  | .listFiles .. | .listInbox .. => List ListingEntry
  | .getFile .. => Files.Got
  | .peekInbox .. => BundleMeta
  | .getInbox .. => Envelope
  | .pickInbox .. => Envelope × String
  | .putInbox .. => Inbox.Gone
  | .agents _ => List String
  | .broadcast .. => Agents.BroadcastResponse
  | .uploads .. => SendInitResult
  | .download _ => Download.Stream
  | .deleteFile .. | .deleteInbox .. | .upload .. | .streamed _ => Unit

def RestRequest.handler (cfg : Config) : (r : RestRequest) → ClaimHandler r.Result
  | .capabilities => pure (buildCapabilitiesDocument cfg.limits)
  | .putFile identity path body => plain (Files.uploadFile cfg identity path body)
  | .listFiles identity pre => plain (Files.listFiles cfg identity pre)
  | .getFile identity path => plain (Files.getFile cfg identity path)
  | .deleteFile identity path => plain (Files.deleteFile identity path)
  | .listInbox identity agent pre => Inbox.listInbox cfg identity agent pre
  | .peekInbox identity agent path => plain (Inbox.peekInboxFile cfg identity agent path)
  | .getInbox identity agent path => Inbox.getInboxFile cfg identity agent path
  | .pickInbox identity agent path => Inbox.pickInboxFile cfg identity agent path
  | .deleteInbox identity agent path => plain (Inbox.deleteInboxFile identity agent path)
  | .putInbox agent path => plain (Inbox.sendToInboxRemoved agent path)
  | .agents identity => plain (Agents.listAgents identity)
  | .broadcast identity path body => plain (Agents.postBroadcast cfg identity path body)
  | .uploads identity to_ path manifest =>
    plain (createUploadSession cfg identity to_ path manifest)
  | .upload token bundlePath infos end_ =>
    plain (Upload.uploadBundle cfg token bundlePath infos end_)
  | .download req => plain (Download.downloadFile cfg req)
  | .streamed st => st.finish

/-- The MCP tools. -/
inductive McpRequest where
  | capabilities
  | sendInit (caller : Mcp.Caller) (to_ path : String) (manifest : SendManifest)
  | sendInline (token : Token) (files : List SendInlineFile)
  | put (caller : Mcp.Caller) (path content : String) (files : FilesArg)
  | get (caller : Mcp.Caller) (path : String)
  | delete (caller : Mcp.Caller) (path : String)
  | list (caller : Mcp.Caller) (pre : String)
  | inbox (caller : Mcp.Caller) (agent pre : String)
  | pick (caller : Mcp.Caller) (path : String)
  | peek (caller : Mcp.Caller) (path : String)
  | agents (caller : Mcp.Caller)
  | broadcast (caller : Mcp.Caller) (overHttp : Bool) (path content : String) (files : FilesArg)

def McpRequest.Result : McpRequest → Type
  | .capabilities => CapabilitiesDocument
  | .sendInit .. => SendInitResult
  | .sendInline .. => Id
  | .put .. => Nat
  | .get .. | .pick .. => Envelope
  | .delete .. => Unit
  | .list .. | .inbox .. => List ListingEntry
  | .peek .. => BundleMeta
  | .agents _ => List String
  | .broadcast .. => BroadcastReport

def McpRequest.handler (cfg : Config) : (r : McpRequest) → ClaimHandler r.Result
  | .capabilities => pure (buildCapabilitiesDocument cfg.limits)
  | .sendInit caller to_ path manifest => plain (Mcp.cassettaSendInit cfg caller to_ path manifest)
  | .sendInline token files => plain (cassettaSendInline token files)
  | .put caller path content files => plain (Mcp.cassettaPut cfg caller path content files)
  | .get caller path => plain (Mcp.cassettaGet cfg caller path)
  | .delete caller path => plain (Mcp.cassettaDelete cfg caller path)
  | .list caller pre => plain (Mcp.cassettaList cfg caller pre)
  | .inbox caller agent pre => Mcp.cassettaInbox cfg caller agent pre
  | .pick caller path => Mcp.cassettaPick cfg caller path
  | .peek caller path => plain (Mcp.cassettaPeek cfg caller path)
  | .agents caller => plain (Mcp.cassettaAgents caller)
  | .broadcast caller overHttp path content files =>
    plain (Mcp.cassettaBroadcast cfg caller overHttp path content files)

/-- A REST operation counts nothing outside of `safe_emit`. -/
theorem RestRequest.quiet (r : RestRequest) : (r.handler cfg).Quiet := by
  cases r with
  | capabilities => exact onlyE_pure _
  | putFile identity path body => exact (Files.quiet_uploadFile identity path body).plain
  | listFiles identity pre => exact (Files.quiet_listFiles identity pre).plain
  | getFile identity path => exact (Files.quiet_getFile identity path).plain
  | deleteFile identity path => exact (Files.quiet_deleteFile identity path).plain
  | listInbox identity agent pre => exact Inbox.quiet_listInbox identity agent pre
  | peekInbox identity agent path => exact (Inbox.quiet_peekInboxFile identity agent path).plain
  | getInbox identity agent path => exact Inbox.quiet_getInboxFile identity agent path
  | pickInbox identity agent path => exact Inbox.quiet_pickInboxFile identity agent path
  | deleteInbox identity agent path => exact (Inbox.quiet_deleteInboxFile identity agent path).plain
  | putInbox agent path => exact (Inbox.quiet_sendToInboxRemoved agent path).plain
  | agents identity => exact (Agents.quiet_listAgents identity).plain
  | broadcast identity path body => exact (Agents.quiet_postBroadcast identity path body).plain
  | uploads identity to_ path manifest =>
    exact (quiet_createUploadSession identity to_ path manifest).plain
  | upload token bundlePath infos end_ =>
    exact (Upload.quiet_uploadBundle token bundlePath infos end_).plain
  | download req => exact (Download.quiet_downloadFile req).plain
  | streamed st => exact Download.quiet_finish st

/-! ## Providers -/

/-- What the provider does at its `n`-th call. -/
abbrev Provider : Type := Nat → Counter → Except Unit Unit

/-- Answer calls with a provider, whose calls are counted. -/
def execMetered (cfg : Config) (env : Environment) (provider : Provider) :
    (c : AnyCall) → Server × Nat → c.Answer × (Server × Nat)
  | .plain (.increment counter), s => (provider s.2 counter, (s.1, s.2 + 1))
  | c, s => ((execAny cfg env c s.1).1, ((execAny cfg env c s.1).2, s.2))

/-- What a request returns or raises, and the server after it. -/
def outcome (cfg : Config) (env : Environment) (provider : Provider) (x : ClaimHandler α)
    (s : Server) : Except Exc α × Server :=
  ((runE (execMetered cfg env provider) x (s, 0)).1,
    (runE (execMetered cfg env provider) x (s, 0)).2.1)

/-- Whatever the provider does, the outcome is the one with a provider that never raises. -/
def Unaffected (cfg : Config) (env : Environment) (x : ClaimHandler α) (s : Server) : Prop :=
  ∀ provider, outcome cfg env provider x s = outcome cfg env (fun _ _ => .ok ()) x s

/-- The environment with another provider. -/
def Environment.metered (env : Environment) (increment : Counter → Except Unit Unit) :
    Environment := { env with increment := increment }

/-- A provider that never raises. -/
abbrev Environment.counting (env : Environment) : Environment := env.metered fun _ => .ok ()

/-- A provider that always raises. -/
abbrev Environment.failing (env : Environment) : Environment := env.metered fun _ => .error ()

private theorem noisy_metered (f : Counter → Except Unit Unit) (provider : Provider) :
    Noisy AnyCall.Emits (execAny cfg (env.metered f)) (execMetered cfg env provider) Prod.fst := by
  refine ⟨fun c s hc => ?_, fun c s hc => ?_, fun c s hc => ?_⟩ <;>
    rcases c with (c | c) <;> cases c <;> first | rfl | exact absurd trivial hc | exact hc.elim

private theorem noisy_failing :
    Noisy AnyCall.Emits (execAny cfg env.counting) (execAny cfg env.failing) id := by
  refine ⟨fun c s hc => ?_, fun c s hc => ?_, fun c s hc => ?_⟩ <;>
    rcases c with (c | c) <;> cases c <;> first | rfl | exact absurd trivial hc | exact hc.elim

private theorem noisy_failing_plain :
    Noisy Call.Emits (exec cfg env.counting) (exec cfg env.failing) id := by
  refine ⟨fun c s hc => ?_, fun c s hc => ?_, fun c s hc => ?_⟩ <;>
    cases c <;> first | rfl | exact absurd trivial hc | exact hc.elim

/-- A provider that does the same at every call is one of an environment. -/
theorem outcome_uniform (f : Counter → Except Unit Unit) (x : ClaimHandler α) (s : Server) :
    outcome cfg env (fun _ => f) x s = runE (execAny cfg (env.metered f)) x s := by
  have hn : Noisy (fun _ => False) (execAny cfg (env.metered f)) (execMetered cfg env fun _ => f)
      Prod.fst := by
    refine ⟨fun c s _ => ?_, fun c s _ => ?_, fun c s hc => hc.elim⟩ <;>
      rcases c with (c | c) <;> cases c <;> rfl
  have hall : x.run.wp (execAny cfg (env.metered f)) (fun _ _ => ¬False) (fun _ _ => True) s := by
    simp only [not_false_eq_true]
    exact wp_trivial x.run s
  obtain ⟨hans, hstate⟩ := (Instrumented.refl x.run).run_noisy hn (t := (s, 0)) hall
  exact Prod.ext hans hstate

/-! ## What is counted outside of `safe_emit` -/

section Counting

variable {x y : ClaimHandler α} {s : Server}

/-- A request that comes to no emission of its own is unaffected, with whatever guarded emissions
are put in. -/
theorem unaffected_of_silent (hy : Instrumented AnyCall.Emits x.run y.run)
    (hx : Silent AnyCall.Emits (execAny cfg env.counting) x s) : Unaffected cfg env y s := by
  have hend : ∀ provider, outcome cfg env provider y s = runE (execAny cfg env.counting) x s := by
    intro provider
    obtain ⟨hans, hstate⟩ := hy.run_noisy (noisy_metered (fun _ => .ok ()) provider) (t := (s, 0))
      (wp_mono (fun _ _ _ => trivial) hx)
    exact Prod.ext hans hstate
  intro provider
  rw [hend, hend]

/-- A request is unaffected exactly where it comes to no emission of its own, when those that
go wrong are the end of it. -/
theorem unaffected_iff_silent (hy : Instrumented AnyCall.Emits x.run y.run)
    (hx : Betrays AnyCall.Emits (execAny cfg env.counting) (execAny cfg env.failing)
      .collaborator x) :
    Unaffected cfg env y s ↔ Silent AnyCall.Emits (execAny cfg env.counting) x s := by
  refine ⟨fun hun => Classical.byContradiction fun hs => ?_, unaffected_of_silent hy⟩
  have hsilent : ∀ f c s, AnyCall.Emits c → (execAny cfg (env.metered f) c s).2 = s := by
    intro f c s hc
    rcases c with (c | c) <;> cases c <;> first | rfl | exact hc.elim
  have hsame : ∀ f, runE (execAny cfg (env.metered f)) y s =
      runE (execAny cfg (env.metered f)) x s := fun f => hy.run_eq (hsilent f) s
  have heq := hun fun _ _ => .error ()
  rw [outcome_uniform, outcome_uniform, hsame, hsame] at heq
  obtain ⟨hbad, hgood⟩ := hx s hs
  exact hgood ((congrArg Prod.fst heq).symm.trans hbad)

end Counting

/-! ## Rules -/

/-- No emission outside of `safe_emit` is come to. -/
abbrev Handler.SilentAt (cfg : Config) (env : Environment) (x : Handler α) (s : Server) : Prop :=
  Silent Call.Emits (exec cfg env.counting) x s

abbrev ClaimHandler.SilentAt (cfg : Config) (env : Environment) (x : ClaimHandler α) (s : Server) :
    Prop := Silent AnyCall.Emits (execAny cfg env.counting) x s

/-- An emission that goes wrong is the end of a handler. -/
abbrev Handler.Betrays (cfg : Config) (env : Environment) (x : Handler α) : Prop :=
  Prog.Betrays Call.Emits (exec cfg env.counting) (exec cfg env.failing) .collaborator x

abbrev ClaimHandler.Betrays (cfg : Config) (env : Environment) (x : ClaimHandler α) : Prop :=
  Prog.Betrays AnyCall.Emits (execAny cfg env.counting) (execAny cfg env.failing) .collaborator x

/-- A part of a handler goes through. -/
abbrev Goes (cfg : Config) (env : Environment) (x : Handler α) (s : Server) : Prop :=
  Returns (exec cfg env.counting) x (fun _ _ => True) s

/-- The server once the access policy has been asked. -/
def Server.asking (s : Server) (resource : Resource) : Server :=
  { s with asked := resource :: s.asked }

section Rules

variable {x : Handler α} {f : α → Handler β} {s : Server}

private theorem silentAt_plain : ClaimHandler.SilentAt cfg env (plain x) s ↔ x.SilentAt cfg env s :=
  wpE_embedE (agree_plain cfg env.counting) x

/-- A count that goes wrong ends a handler among those with the claim store. -/
theorem Handler.Betrays.plain (h : x.Betrays cfg env) :
    ClaimHandler.Betrays cfg env (Cassetta.plain x) := by
  intro s hs
  rw [runE_execAny_plain, runE_execAny_plain]
  exact h s fun hsilent => hs (silentAt_plain.mpr hsilent)

private theorem not_silentAt_increment (counter : Counter) :
    ¬Handler.SilentAt cfg env (increment counter) s := fun h => ((wpE_bind _ _ _).mp h).1 trivial

private theorem betrays_increment (counter : Counter) :
    Handler.Betrays cfg env (increment counter) :=
  fun _ _ => ⟨rfl, nofun⟩

private theorem not_silentAt_count (counter : Counter) (g : Unit → Handler β) :
    ¬Handler.SilentAt cfg env (increment counter >>= g) s := by
  intro h
  exact ((wpE_bind _ _ _).mp ((wpE_bind _ _ _).mp h)).1 trivial

private theorem betrays_count (counter : Counter) {g : Unit → Handler β}
    (hg : ∀ s, (runE (exec cfg env.counting) (g ()) s).1 ≠ .error .collaborator) :
    Handler.Betrays cfg env (increment counter >>= g) := by
  intro s _
  refine ⟨rfl, ?_⟩
  rw [runE_bind_ok (runE_increment rfl s)]
  exact hg s

/-- A part that makes no emission decides whether one is made after it. -/
theorem silent_iff_not_returns {C : Type} {A : C → Type} {emission : C → Prop}
    {h : (c : C) → Server → A c × Server} {x : ExceptT Exc (Prog C A) α}
    {f : α → ExceptT Exc (Prog C A) β} {Q : α → Server → Prop}
    (hx : OnlyE (fun c => ¬emission c) x) (hf : ∀ a s', Silent emission h (f a) s' ↔ ¬Q a s') :
    Silent emission h (x >>= f) s ↔ ¬Returns h x Q s := by
  rw [silent_bind_iff hx, returns_iff_run]
  constructor
  · rintro hall ⟨a, s', hr, hq⟩
    exact (hf a s').mp (hall a s' hr) hq
  · intro hno a s' hr
    exact (hf a s').mpr fun hq => hno ⟨a, s', hr, hq⟩

/-- A part that makes no emission, before one that makes one for certain. -/
theorem silentAt_count_iff (hx : x.Quiet) (hf : ∀ a s', ¬(f a).SilentAt cfg env s') :
    (x >>= f).SilentAt cfg env s ↔ ¬Goes cfg env x s :=
  silent_iff_not_returns hx fun a s' => iff_of_false (hf a s') fun h => h trivial

/-- Two parts that make no emission, one after the other. -/
theorem silentAt_bind_iff {γ : Type} {g : α → Handler γ} {Q : γ → Server → Prop} (hx : x.Quiet)
    (hf : ∀ a s', (f a).SilentAt cfg env s' ↔ ¬Returns (exec cfg env.counting) (g a) Q s') :
    (x >>= f).SilentAt cfg env s ↔ ¬Returns (exec cfg env.counting) (x >>= g) Q s :=
  (silent_iff_not_returns hx hf).trans (not_congr (wpE_bind _ _ _).symm)

private theorem silentAt_throw (e : Exc) :
    Handler.SilentAt cfg env (throw e : Handler α) s := trivial

private theorem silentAt_validateOr_bind {allowed : Char → Bool} {path : String}
    {refusal : PathValidationError → Exc} {f : Unit → Handler β} :
    (validateOr allowed path refusal >>= f).SilentAt cfg env s ↔
      (validatePath allowed path = .ok () → (f ()).SilentAt cfg env s) := by
  cases hv : validatePath allowed path with
  | ok u =>
    rw [Handler.SilentAt, silent_bind_ok (quiet_validateOr _ _ _) (runE_validateOr hv refusal s)]
    simp
  | error e =>
    rw [validateOr, hv]
    simp [Handler.SilentAt, silent_bind_iff (onlyE_throw _), runE_throw]

/-- The access check lets a handler go on in one way. -/
theorem runE_enforce_iff {identity : Identity} {resource : Resource} {action : Action}
    {denied : Exc} {a : Unit} {s' : Server} :
    runE (exec cfg env.counting) (enforce identity resource action denied) s = (.ok a, s') ↔
      env.check identity resource action = .ok true ∧ s' = s.asking resource := by
  have hask : runE (exec cfg env.counting) (check identity resource action) s =
      (.ok (env.check identity resource action), s.asking resource) := rfl
  rw [enforce, runE_bind_ok hask]
  rcases env.check identity resource action with _ | _ | _
  · exact iff_of_false (by rintro ⟨⟩) (by rintro ⟨⟨⟩, -⟩)
  · exact iff_of_false (by rintro ⟨⟩) (by rintro ⟨⟨⟩, -⟩)
  · exact ⟨fun h => ⟨rfl, (congrArg Prod.snd h).symm⟩, fun h => Prod.ext rfl h.2.symm⟩

private theorem silentAt_enforce_bind {identity : Identity} {resource : Resource} {action : Action}
    {denied : Exc} {f : Unit → Handler β} :
    (enforce identity resource action denied >>= f).SilentAt cfg env s ↔
      (env.check identity resource action = .ok true →
        (f ()).SilentAt cfg env (s.asking resource)) := by
  rw [Handler.SilentAt, silent_bind_iff (quiet_enforce _ _ _ _)]
  simp only [runE_enforce_iff, and_imp]
  exact ⟨fun h hcheck => h () _ hcheck rfl, fun h _ _ hcheck heq => heq ▸ h hcheck⟩

/-! ### With the claim store -/

variable {y : ClaimHandler α} {g : α → ClaimHandler β}

private theorem silentAt_plain_enforce_bind {identity : Identity} {resource : Resource}
    {action : Action}
    {denied : Exc} {g : Unit → ClaimHandler β} :
    (plain (enforce identity resource action denied) >>= g).SilentAt cfg env s ↔
      (env.check identity resource action = .ok true →
        (g ()).SilentAt cfg env (s.asking resource)) := by
  rw [ClaimHandler.SilentAt, silent_bind_iff (quiet_enforce _ _ _ _).plain]
  simp only [runE_execAny_plain, runE_enforce_iff, and_imp]
  exact ⟨fun h hcheck => h () _ hcheck rfl, fun h _ _ hcheck heq => heq ▸ h hcheck⟩

private theorem not_silentAt_plain_count (counter : Counter) (g : Unit → ClaimHandler β) :
    ¬ClaimHandler.SilentAt cfg env (plain (increment counter) >>= g) s := by
  intro h
  exact not_silentAt_increment counter (silentAt_plain.mp
    (wpE_mono (fun _ _ _ => trivial) (fun _ _ h => h) ((wpE_bind _ _ _).mp h)))

private theorem betrays_plain_count (counter : Counter) {g : Unit → ClaimHandler β}
    (hg : ∀ s, (runE (execAny cfg env.counting) (g ()) s).1 ≠ .error .collaborator) :
    ClaimHandler.Betrays cfg env (plain (increment counter) >>= g) := by
  intro s _
  refine ⟨rfl, ?_⟩
  have hrun : runE (execAny cfg env.counting) (plain (increment counter)) s = (.ok (), s) := rfl
  rw [runE_bind_ok hrun]
  exact hg s

end Rules

/-! ## The tools -/

/-- What a put does to the store. -/
def storeBundle (cfg : Config) (path : String) (parts : List FilePart) : Handler BundleMeta := do
  let bundleId ← newId
  deleteQuiet (storePath path)
  writeBundle cfg (storePath path) parts none "application/octet-stream" bundleId

/-- What a listing of the store shows. -/
def storeListing (cfg : Config) (pre : String) : Handler (List ListingEntry) := do
  let refs ← listBundles (storeScanPrefix pre) false
  listingEntries cfg "store/" (refs.map (·.path))

/-- What a pick hands out. -/
def handOut (cfg : Config) (agent path : String) : ClaimHandler Envelope := do
  let (bundlePath, m) ← plain (Inbox.resolvePick cfg agent path (.value "No files in inbox")
    (valueNotFound path))
  Inbox.consume cfg agent bundlePath m (valueNotFound path)

/-- A tool comes to a call of the provider outside of `safe_emit`: what it does before goes
through. A broadcast comes to one only when it is refused by the rate limit or by the cap. -/
def McpRequest.Counted (cfg : Config) (env : Environment) (s : Server) : McpRequest → Prop
  | .capabilities | .sendInit .. | .sendInline .. => False
  | .put caller path content files =>
    validatePath cfg.allowedPathChars path = .ok () ∧
      ¬(startsWith path "inbox/" ∨ startsWith path "store/") ∧
      ∃ parts, mcpFileParts path content files = .ok parts ∧ evaluateUpload cfg parts = .ok () ∧
        env.check caller.effective (.files path) .write = .ok true ∧
        Goes cfg env (storeBundle cfg path parts) (s.asking (.files path))
  | .get caller path =>
    validatePath cfg.allowedPathChars path = .ok () ∧
      env.check caller.effective (.files path) .read = .ok true ∧
      Goes cfg env (readFreshOr cfg (storePath path) (valueNotFound path)) (s.asking (.files path))
  | .delete caller path =>
    validatePath cfg.allowedPathChars path = .ok () ∧
      env.check caller.effective (.files path) .delete = .ok true ∧
      Goes cfg env (deleteOr (storePath path) (valueNotFound path)) (s.asking (.files path))
  | .list caller pre =>
    env.check caller.effective (.files "*") .list = .ok true ∧
      Returns (exec cfg env.counting) (storeListing cfg pre) (fun entries _ => entries ≠ [])
        (s.asking (.files "*"))
  | .inbox caller agent pre =>
    caller.target agent ≠ "" ∧
      env.check caller.effective (.inbox (caller.target agent)) .list = .ok true ∧
      Returns (execAny cfg env.counting) (Inbox.listing cfg (caller.target agent) pre)
        (fun entries _ => entries ≠ []) (s.asking (.inbox (caller.target agent)))
  | .pick caller path =>
    caller.target "" ≠ "" ∧
      env.check caller.effective (.inbox (caller.target "")) .pick = .ok true ∧
      (path = "latest" ∨ validatePath cfg.allowedPathChars path = .ok ()) ∧
      Returns (execAny cfg env.counting) (handOut cfg (caller.target "") path) (fun _ _ => True)
        (s.asking (.inbox (caller.target "")))
  | .peek caller path =>
    ∃ bundlePath resource counter, Mcp.peekTarget cfg path = .ok (bundlePath, resource, counter) ∧
      env.check caller.effective resource .peek = .ok true ∧
      Goes cfg env (peekFreshOr cfg bundlePath (.value ("Not found: " ++ path))) (s.asking resource)
  | .agents _ => True
  | .broadcast caller overHttp path content files =>
    (overHttp = true ∧ env.admits s.wall = false) ∨
      ((overHttp = true → env.admits s.wall = true) ∧
        validatePath cfg.allowedPathChars path = .ok () ∧
        ∃ parts, mcpFileParts path content files = .ok parts ∧ evaluateUpload cfg parts = .ok () ∧
          cfg.broadcastMaxTargets < (candidateLabels s.keys caller.senderLabel).length)

namespace Mcp

variable {caller : Caller} {s : Server}

private theorem betrays_cassettaPut (path content : String) (files : FilesArg) :
    (cassettaPut cfg caller path content files).Betrays cfg env := by
  refine betrays_bind noisy_failing_plain (quiet_validateOr _ _ _) fun _ => ?_
  split
  · exact OnlyE.betrays trivial
  split
  · exact OnlyE.betrays trivial
  split
  · exact OnlyE.betrays trivial
  refine betrays_bind noisy_failing_plain (quiet_enforce _ _ _ _) fun _ => ?_
  refine betrays_bind noisy_failing_plain (quiet_ask not_false) fun bundleId => ?_
  refine betrays_bind noisy_failing_plain (quiet_deleteQuiet _) fun _ => ?_
  refine betrays_bind noisy_failing_plain (quiet_writeBundle _ _ _ _ _) fun m => ?_
  refine betrays_count _ fun s => ?_
  rw [runE_bind_ok (runE_increment rfl s)]
  simp

private theorem silentAt_cassettaPut (path content : String) (files : FilesArg) :
    (cassettaPut cfg caller path content files).SilentAt cfg env s ↔
      ¬McpRequest.Counted cfg env s (.put caller path content files) := by
  rw [cassettaPut, silentAt_validateOr_bind, McpRequest.Counted, not_and]
  refine imp_congr_right fun hpath => ?_
  split
  · rename_i hreserved
    exact iff_of_true (silentAt_throw _) fun h => h.1 hreserved
  rename_i hfree
  split
  · rename_i e he
    refine iff_of_true (silentAt_throw _) ?_
    rintro ⟨-, parts, hparts, -⟩
    rw [he] at hparts
    cases hparts
  rename_i parts hparts
  split
  · rename_i r hr
    refine iff_of_true (silentAt_throw _) ?_
    rintro ⟨-, parts', hparts', hlimits, -⟩
    rw [hparts] at hparts'
    cases hparts'
    rw [hr] at hlimits
    cases hlimits
  rename_i hlimits
  rw [enforceMcp, silentAt_enforce_bind]
  have hstore : Handler.SilentAt cfg env (do
      let bundleId ← newId
      deleteQuiet (storePath path)
      let _ ← writeBundle cfg (storePath path) parts none "application/octet-stream" bundleId
      increment (operation "cassetta.files.operations" "put")
      increment ⟨"cassetta.files.bytes", (uploadManifest parts).totalSize, [("action", "put")]⟩
      pure parts.length) (s.asking (.files path)) ↔
      ¬Goes cfg env (storeBundle cfg path parts) (s.asking (.files path)) := by
    refine silentAt_bind_iff (quiet_ask not_false) fun bundleId s₁ => ?_
    refine silentAt_bind_iff (quiet_deleteQuiet _) fun _ s₂ => ?_
    exact silentAt_count_iff (quiet_writeBundle _ _ _ _ _) fun _ _ => not_silentAt_count _ _
  rw [hstore]
  constructor
  · rintro h ⟨-, parts', hparts', -, hcheck, hgoes⟩
    rw [hparts] at hparts'
    cases hparts'
    exact h hcheck hgoes
  · intro h hcheck hgoes
    exact h ⟨hfree, parts, hparts, hlimits, hcheck, hgoes⟩

/-- What a get does once it is counted ends in no exception of a collaborator. -/
theorem rest_of_get (path : String) (m : BundleMeta) (s : Server) :
    (runE (exec cfg env.counting) (match evaluateDownload cfg.limits m.totalSize with
      | .reference => do
        let r ← buildReferencePayloadForStore cfg (storePath path) m caller.effective.label
        pure (Envelope.reference r)
      | .inline => do
        let payloads ← collectBundleFiles (storePath path) m.files
        increment ⟨"cassetta.files.bytes", m.totalSize, [("action", "get")]⟩
        pure (buildInlineEnvelope m payloads)) s).1 ≠ .error .collaborator := by
  have hcollect : ∀ (files : List FileRecord) (s : Server),
      wpE (exec cfg env.counting) (fun _ _ => True) (collectBundleFiles (storePath path) files)
        (fun _ _ => True) (fun e _ => e ≠ .collaborator) s := by
    intro files
    induction files with
    | nil => exact fun s => trivial
    | cons f rest ih =>
      intro s
      refine (wpE_bind _ _ _).mpr ⟨trivial, (wpE_bind _ _ _).mpr ?_⟩
      generalize (exec cfg env.counting (.openBundleFileRead (storePath path) f.name) s).1 = r
      change Except StorageError Bytes at r
      cases r with
      | ok data =>
        exact (wpE_bind _ _ _).mpr (wpE_mono (fun _ _ _ => trivial) (fun _ _ h => h) (ih _))
      | error e => exact nofun
  split
  · exact nofun
  · rcases hr : runE (exec cfg env.counting) (collectBundleFiles (storePath path) m.files) s with
      ⟨e | payloads, s'⟩
    · rw [runE_bind, hr]
      intro h
      exact wpE_error (hcollect m.files s) hr (Except.error.inj h)
    · rw [runE_bind_ok hr]
      exact nofun

private theorem betrays_cassettaGet (path : String) :
    (cassettaGet cfg caller path).Betrays cfg env := by
  refine betrays_bind noisy_failing_plain (quiet_validateOr _ _ _) fun _ => ?_
  refine betrays_bind noisy_failing_plain (quiet_enforce _ _ _ _) fun _ => ?_
  refine betrays_bind noisy_failing_plain (quiet_readFreshOr _ _) fun m => ?_
  exact betrays_count _ fun s => rest_of_get path m s

private theorem silentAt_cassettaGet (path : String) :
    (cassettaGet cfg caller path).SilentAt cfg env s ↔
      ¬McpRequest.Counted cfg env s (.get caller path) := by
  rw [cassettaGet, silentAt_validateOr_bind, enforceMcp, silentAt_enforce_bind,
    silentAt_count_iff (quiet_readFreshOr _ _) fun _ _ => not_silentAt_count _ _]
  simp only [McpRequest.Counted, not_and]

private theorem betrays_cassettaDelete (path : String) :
    (cassettaDelete cfg caller path).Betrays cfg env := by
  refine betrays_bind noisy_failing_plain (quiet_validateOr _ _ _) fun _ => ?_
  refine betrays_bind noisy_failing_plain (quiet_enforce _ _ _ _) fun _ => ?_
  exact betrays_bind noisy_failing_plain (quiet_deleteOr _ _) fun _ => betrays_increment _

private theorem silentAt_cassettaDelete (path : String) :
    (cassettaDelete cfg caller path).SilentAt cfg env s ↔
      ¬McpRequest.Counted cfg env s (.delete caller path) := by
  rw [cassettaDelete, silentAt_validateOr_bind, enforceMcp, silentAt_enforce_bind,
    silentAt_count_iff (quiet_deleteOr _ _) fun _ _ => not_silentAt_increment _]
  simp only [McpRequest.Counted, not_and]

private theorem betrays_cassettaPeek (path : String) :
    (cassettaPeek cfg caller path).Betrays cfg env := by
  unfold cassettaPeek
  split
  · exact OnlyE.betrays trivial
  refine betrays_bind noisy_failing_plain (quiet_enforce _ _ _ _) fun _ => ?_
  refine betrays_bind noisy_failing_plain (quiet_peekFreshOr _ _) fun m => ?_
  exact betrays_count _ fun s => nofun

private theorem silentAt_cassettaPeek (path : String) :
    (cassettaPeek cfg caller path).SilentAt cfg env s ↔
      ¬McpRequest.Counted cfg env s (.peek caller path) := by
  unfold cassettaPeek McpRequest.Counted
  split
  · rename_i e he
    refine iff_of_true (silentAt_throw _) ?_
    rintro ⟨bundlePath, resource, counter, htarget, -⟩
    rw [he] at htarget
    cases htarget
  · rename_i bundlePath resource counter htarget
    rw [enforceMcp, silentAt_enforce_bind,
      silentAt_count_iff (quiet_peekFreshOr _ _) fun _ _ => not_silentAt_count _ _]
    constructor
    · rintro h ⟨bundlePath', resource', counter', htarget', hcheck, hgoes⟩
      rw [htarget] at htarget'
      cases htarget'
      exact h hcheck hgoes
    · intro h hcheck hgoes
      exact h ⟨bundlePath, resource, counter, htarget, hcheck, hgoes⟩

private theorem betrays_cassettaAgents : (cassettaAgents caller).Betrays cfg env :=
  betrays_bind noisy_failing_plain (quiet_visibleActive _) fun _ => betrays_count _ fun _ => nofun

private theorem not_silentAt_cassettaAgents : ¬(cassettaAgents caller).SilentAt cfg env s := by
  rw [cassettaAgents,
    silentAt_count_iff (quiet_visibleActive _) fun _ _ => not_silentAt_count _ _, not_not]
  exact ⟨trivial, trivial, trivial⟩

private theorem betrays_cassettaList (pre : String) :
    (cassettaList cfg caller pre).Betrays cfg env := by
  refine betrays_bind noisy_failing_plain (quiet_enforce _ _ _ _) fun _ => ?_
  refine betrays_bind noisy_failing_plain (quiet_listBundles _ _) fun refs => ?_
  refine betrays_bind noisy_failing_plain (quiet_listingEntries _ _) fun entries => ?_
  split
  · exact OnlyE.betrays trivial
  · exact betrays_count _ fun s => nofun

private theorem silentAt_cassettaList (pre : String) :
    (cassettaList cfg caller pre).SilentAt cfg env s ↔
      ¬McpRequest.Counted cfg env s (.list caller pre) := by
  rw [cassettaList, enforceMcp, silentAt_enforce_bind]
  simp only [McpRequest.Counted, not_and]
  refine imp_congr_right fun _ => ?_
  refine silentAt_bind_iff (quiet_listBundles _ _) fun refs s₁ => ?_
  refine silent_iff_not_returns (quiet_listingEntries _ _) fun entries s₂ => ?_
  split
  · rename_i hnil
    exact iff_of_true trivial fun h => h hnil
  · rename_i hne
    exact iff_of_false (not_silentAt_count _ _) fun h => h hne

private theorem betrays_cassettaInbox (agent pre : String) :
    (cassettaInbox cfg caller agent pre).Betrays cfg env := by
  unfold cassettaInbox
  split
  · exact OnlyE.betrays trivial
  refine betrays_bind noisy_failing (quiet_enforce _ _ _ _).plain fun _ => ?_
  refine betrays_bind noisy_failing (Inbox.quiet_listing _ _) fun entries => ?_
  split
  · exact OnlyE.betrays trivial
  · exact betrays_plain_count _ fun s => nofun

private theorem silentAt_cassettaInbox (agent pre : String) :
    (cassettaInbox cfg caller agent pre).SilentAt cfg env s ↔
      ¬McpRequest.Counted cfg env s (.inbox caller agent pre) := by
  unfold cassettaInbox McpRequest.Counted
  split
  · rename_i hnone
    exact iff_of_true trivial fun h => h.1 hnone
  rename_i htarget
  rw [enforceMcp, silentAt_plain_enforce_bind]
  simp only [htarget, ne_eq, not_false_eq_true, true_and, not_and]
  refine imp_congr_right fun _ => ?_
  refine silent_iff_not_returns (Inbox.quiet_listing _ _) fun entries s₁ => ?_
  split
  · rename_i hnil
    exact iff_of_true trivial fun h => h hnil
  · rename_i hne
    exact iff_of_false (not_silentAt_plain_count _ _) fun h => h hne

private theorem quiet_validatePickPath (path : String) : (validatePickPath cfg path).Quiet := by
  unfold validatePickPath
  split
  · trivial
  · exact quiet_validateOr _ _ _

private theorem runE_validatePickPath_iff {path : String} {a : Unit} {s' : Server} :
    runE (exec cfg env) (validatePickPath cfg path) s = (.ok a, s') ↔
      (path = "latest" ∨ validatePath cfg.allowedPathChars path = .ok ()) ∧ s' = s := by
  have hok : runE (exec cfg env) (pure ()) s = ((.ok a : Except Exc Unit), s') ↔ s' = s :=
    ⟨fun h => (congrArg Prod.snd h).symm, fun h => Prod.ext rfl h.symm⟩
  unfold validatePickPath validateOr
  split
  · rename_i hlatest
    simp only [hok, hlatest, true_or, true_and]
  · rename_i hother
    cases hv : validatePath cfg.allowedPathChars path with
    | ok u => simp only [hok, or_true, true_and]
    | error e => simp [hother]

private theorem betrays_cassettaPick (path : String) :
    (cassettaPick cfg caller path).Betrays cfg env := by
  unfold cassettaPick
  split
  · exact OnlyE.betrays trivial
  refine betrays_bind noisy_failing (quiet_enforce _ _ _ _).plain fun _ => ?_
  refine betrays_bind noisy_failing (quiet_validatePickPath _).plain fun _ => ?_
  refine betrays_bind noisy_failing (Inbox.quiet_resolvePick _ _ _ _).plain fun found => ?_
  refine betrays_bind noisy_failing (Inbox.quiet_consume _ _ _ _) fun envelope => ?_
  exact betrays_plain_count _ fun s => nofun

private theorem silentAt_cassettaPick (path : String) :
    (cassettaPick cfg caller path).SilentAt cfg env s ↔
      ¬McpRequest.Counted cfg env s (.pick caller path) := by
  unfold cassettaPick McpRequest.Counted
  split
  · rename_i hnone
    exact iff_of_true trivial fun h => h.1 hnone
  rename_i htarget
  rw [enforceMcp, silentAt_plain_enforce_bind]
  simp only [htarget, ne_eq, not_false_eq_true, true_and, not_and]
  refine imp_congr_right fun _ => ?_
  rw [ClaimHandler.SilentAt, silent_bind_iff (quiet_validatePickPath _).plain]
  simp only [runE_execAny_plain, runE_validatePickPath_iff, and_imp]
  have hhand : ∀ s', Silent AnyCall.Emits (execAny cfg env.counting) (do
      let (bundlePath, m) ← plain (Inbox.resolvePick cfg (caller.target "") path
        (.value "No files in inbox") (valueNotFound path))
      let env ← Inbox.consume cfg (caller.target "") bundlePath m (valueNotFound path)
      plain (increment (operation "cassetta.inbox.operations" "pick"))
      pure env) s' ↔ ¬Returns (execAny cfg env.counting) (handOut cfg (caller.target "") path)
        (fun _ _ => True) s' := by
    intro s'
    rw [handOut]
    refine (silent_iff_not_returns (Inbox.quiet_resolvePick _ _ _ _).plain fun found s₁ => ?_).trans
      (not_congr (wpE_bind _ _ _).symm)
    exact silent_iff_not_returns (Inbox.quiet_consume _ _ _ _) fun _ _ =>
      iff_of_false (not_silentAt_plain_count _ _) fun h => h trivial
  exact ⟨fun h hpath => (hhand _).mp (h () _ hpath rfl),
    fun h _ _ hpath heq => heq ▸ (hhand _).mpr (h hpath)⟩

/-- The fan-out of a broadcast, with what the tool does when it is refused. -/
def fanOutCounted (cfg : Config) (identity : Identity) (path : String) (files : List FilePart)
    (sender : Option String) : Handler BroadcastReport :=
  tryCatch (fanOut cfg identity path files sender) fun e =>
    match e with
    | .fanoutCapExceeded n => do
      increment ⟨"cassetta.rate_limit.hits", 1, [("route", "broadcast"), ("reason", "fanout_cap")]⟩
      throw (.fanoutCapExceeded n)
    | e => throw e

/-- It comes to an emission over the cap, and only then. -/
theorem silentAt_fanOutCounted (identity : Identity) (path : String) (files : List FilePart)
    (sender : Option String) :
    (fanOutCounted cfg identity path files sender).SilentAt cfg env s ↔
      ¬cfg.broadcastMaxTargets < (candidateLabels s.keys sender).length := by
  rw [fanOutCounted, Handler.SilentAt, silent_tryCatch_iff (quiet_fanOut _ _ _ _)]
  by_cases hcap : cfg.broadcastMaxTargets < (candidateLabels s.keys sender).length
  · refine iff_of_false (fun h => ?_) fun hno => hno hcap
    exact not_silentAt_count _ _ (h _ _ (runE_fanOut_capped hcap))
  · refine iff_of_true (fun e s' hr => ?_) hcap
    obtain ⟨report, s'', hok⟩ := @runE_fanOut_uncapped cfg path files sender identity env.counting s
      hcap
    rw [hok] at hr
    cases hr

private theorem betrays_fanOutCounted (identity : Identity) (path : String) (files : List FilePart)
    (sender : Option String) :
    (fanOutCounted cfg identity path files sender).Betrays cfg env := by
  refine betrays_tryCatch noisy_failing_plain (quiet_fanOut _ _ _ _) fun e => ?_
  split
  · exact betrays_count _ fun s => nofun
  · exact OnlyE.betrays trivial

/-- A broadcast once the rate limiter has answered. -/
def broadcastAdmitted (cfg : Config) (caller : Caller) (path content : String) (files : FilesArg)
    (admitted : Bool) : Handler BroadcastReport :=
  if ¬admitted then do
    increment ⟨"cassetta.rate_limit.hits", 1, [("route", "broadcast"), ("reason", "rate")]⟩
    throw .rateLimitExceeded
  else do
    validateOr cfg.allowedPathChars path invalidPath
    match mcpFileParts path content files with
    | .error e => throw e
    | .ok parts =>
      match evaluateUpload cfg parts with
      | .error r => throw (.valueLimits r)
      | .ok () => fanOutCounted cfg caller.effective path parts caller.senderLabel

/-- The broadcast tool is the rate limit, and then the rest. -/
theorem cassettaBroadcast_eq (overHttp : Bool) (path content : String) (files : FilesArg) :
    cassettaBroadcast cfg caller overHttp path content files =
      if overHttp then checkRateLimit >>= broadcastAdmitted cfg caller path content files
      else pure true >>= broadcastAdmitted cfg caller path content files := rfl

private theorem betrays_broadcastAdmitted (path content : String) (files : FilesArg)
    (admitted : Bool) :
    (broadcastAdmitted cfg caller path content files admitted).Betrays cfg env := by
  unfold broadcastAdmitted
  split
  · exact betrays_count _ fun s => nofun
  refine betrays_bind noisy_failing_plain (quiet_validateOr _ _ _) fun _ => ?_
  split
  · exact OnlyE.betrays trivial
  split
  · exact OnlyE.betrays trivial
  · exact betrays_fanOutCounted _ _ _ _

private theorem betrays_cassettaBroadcast (overHttp : Bool) (path content : String)
    (files : FilesArg) :
    (cassettaBroadcast cfg caller overHttp path content files).Betrays cfg env := by
  rw [cassettaBroadcast_eq]
  split
  · exact betrays_bind noisy_failing_plain (quiet_ask not_false) (betrays_broadcastAdmitted _ _ _)
  · exact betrays_bind noisy_failing_plain (onlyE_pure true) (betrays_broadcastAdmitted _ _ _)

private theorem silentAt_broadcastAdmitted (path content : String) (files : FilesArg)
    (admitted : Bool) :
    (broadcastAdmitted cfg caller path content files admitted).SilentAt cfg env s ↔
      ¬(admitted = false ∨ (admitted = true ∧ validatePath cfg.allowedPathChars path = .ok () ∧
        ∃ parts, mcpFileParts path content files = .ok parts ∧ evaluateUpload cfg parts = .ok () ∧
          cfg.broadcastMaxTargets < (candidateLabels s.keys caller.senderLabel).length)) := by
  unfold broadcastAdmitted
  cases admitted with
  | false => exact iff_of_false (not_silentAt_count _ _) fun h => h (.inl rfl)
  | true =>
    simp only [not_true_eq_false, if_false, Bool.true_eq_false, false_or, true_and]
    rw [silentAt_validateOr_bind, not_and]
    refine imp_congr_right fun _ => ?_
    split
    · rename_i e he
      refine iff_of_true (silentAt_throw _) ?_
      rintro ⟨parts, hparts, -⟩
      rw [he] at hparts
      cases hparts
    rename_i parts hparts
    split
    · rename_i r hr
      refine iff_of_true (silentAt_throw _) ?_
      rintro ⟨parts', hparts', hlimits, -⟩
      rw [hparts] at hparts'
      cases hparts'
      rw [hr] at hlimits
      cases hlimits
    rename_i hlimits
    rw [silentAt_fanOutCounted]
    refine not_congr ⟨fun hcap => ⟨parts, hparts, hlimits, hcap⟩, ?_⟩
    rintro ⟨_, -, -, hcap⟩
    exact hcap

private theorem silentAt_cassettaBroadcast (overHttp : Bool) (path content : String)
    (files : FilesArg) :
    (cassettaBroadcast cfg caller overHttp path content files).SilentAt cfg env s ↔
      ¬McpRequest.Counted cfg env s (.broadcast caller overHttp path content files) := by
  rw [cassettaBroadcast_eq, McpRequest.Counted]
  split
  · rename_i hhttp
    have hadmitted : runE (exec cfg env.counting) checkRateLimit s =
        (.ok (env.admits s.wall), s) := rfl
    refine (silent_bind_ok quiet_checkRateLimit hadmitted).trans
      ((silentAt_broadcastAdmitted path content files _).trans ?_)
    simp only [hhttp, true_and, true_implies]
  · rename_i hhttp
    refine (silent_bind_ok (onlyE_pure true) (runE_pure true)).trans
      ((silentAt_broadcastAdmitted path content files true).trans ?_)
    simp [hhttp]

end Mcp

/-- A count that goes wrong is the end of a tool. -/
theorem McpRequest.betrays (r : McpRequest) : (r.handler cfg).Betrays cfg env := by
  cases r with
  | capabilities => exact OnlyE.betrays (onlyE_pure _)
  | sendInit caller to_ path manifest =>
    exact OnlyE.betrays (Mcp.quiet_cassettaSendInit caller to_ path manifest).plain
  | sendInline token files => exact OnlyE.betrays (quiet_cassettaSendInline token files).plain
  | put caller path content files => exact (Mcp.betrays_cassettaPut path content files).plain
  | get caller path => exact (Mcp.betrays_cassettaGet path).plain
  | delete caller path => exact (Mcp.betrays_cassettaDelete path).plain
  | list caller pre => exact (Mcp.betrays_cassettaList pre).plain
  | inbox caller agent pre => exact Mcp.betrays_cassettaInbox agent pre
  | pick caller path => exact Mcp.betrays_cassettaPick path
  | peek caller path => exact (Mcp.betrays_cassettaPeek path).plain
  | agents caller => exact Mcp.betrays_cassettaAgents.plain
  | broadcast caller overHttp path content files =>
    exact (Mcp.betrays_cassettaBroadcast overHttp path content files).plain

private theorem McpRequest.silentAt_iff (r : McpRequest) (s : Server) :
    (r.handler cfg).SilentAt cfg env s ↔ ¬r.Counted cfg env s := by
  cases r with
  | capabilities => exact iff_of_true trivial id
  | sendInit caller to_ path manifest =>
    exact iff_of_true
      (OnlyE.silent (Mcp.quiet_cassettaSendInit caller to_ path manifest).plain s) id
  | sendInline token files =>
    exact iff_of_true (OnlyE.silent (quiet_cassettaSendInline token files).plain s) id
  | put caller path content files =>
    exact silentAt_plain.trans (Mcp.silentAt_cassettaPut path content files)
  | get caller path => exact silentAt_plain.trans (Mcp.silentAt_cassettaGet path)
  | delete caller path => exact silentAt_plain.trans (Mcp.silentAt_cassettaDelete path)
  | list caller pre => exact silentAt_plain.trans (Mcp.silentAt_cassettaList pre)
  | inbox caller agent pre => exact Mcp.silentAt_cassettaInbox agent pre
  | pick caller path => exact Mcp.silentAt_cassettaPick path
  | peek caller path => exact silentAt_plain.trans (Mcp.silentAt_cassettaPeek path)
  | agents caller =>
    exact silentAt_plain.trans (iff_of_false Mcp.not_silentAt_cassettaAgents fun h => h trivial)
  | broadcast caller overHttp path content files =>
    exact silentAt_plain.trans (Mcp.silentAt_cassettaBroadcast overHttp path content files)

/-! ## The key routes -/

/-- The calls of a key route: what it does with the key store, and its emissions. -/
inductive RouteCall where
  | handle (r : Admin.Request) (c : Admin.Credentials) (draw : FileKeyStore.Draw)
  | emit (e : Admin.Emission)

def RouteCall.Answer : RouteCall → Type
  | .handle .. => Admin.Response
  | .emit _ => Except Unit Unit

def RouteCall.Emits : RouteCall → Prop
  | .handle .. => False
  | .emit _ => True

abbrev RouteProg := Prog RouteCall RouteCall.Answer Admin.Reply

/-- What the provider does at its `n`-th call, which may be one for a gauge. -/
abbrev RouteProvider : Type := Nat → Admin.Emission → Except Unit Unit

/-- Answer calls with a provider, whose calls are counted. -/
def execRoute (g : Admin.Gate) (provider : RouteProvider) :
    (c : RouteCall) → FileKeyStore.Store × Nat → c.Answer × (FileKeyStore.Store × Nat)
  | .handle r c draw, s => ((r.handle g c draw s.1).1, ((r.handle g c draw s.1).2, s.2))
  | .emit e, s => (provider s.2 e, (s.1, s.2 + 1))

/-- What a key route answers, and the key store after it. -/
def routeOutcome (g : Admin.Gate) (provider : RouteProvider) (y : RouteProg)
    (st : FileKeyStore.Store) : Admin.Reply × FileKeyStore.Store :=
  ((y.run (execRoute g provider) (st, 0)).1, (y.run (execRoute g provider) (st, 0)).2.1)

/-- Whatever the provider does, the outcome is the one with a provider that never raises. -/
def RouteUnaffected (g : Admin.Gate) (y : RouteProg) (st : FileKeyStore.Store) : Prop :=
  ∀ provider, routeOutcome g provider y st = routeOutcome g (fun _ _ => .ok ()) y st

namespace Admin

/-- A key route without its emissions. -/
def Request.silentRoute (r : Request) (c : Credentials) (draw : FileKeyStore.Draw) : RouteProg :=
  .call (.handle r c draw) fun (answer : Response) => .pure answer.reply

/-- Emissions through `safe_emit`, and then the answer. -/
def emitAll (reply : Reply) : List Emission → RouteProg
  | [] => .pure reply
  | e :: rest => .call (.emit e) fun _ => emitAll reply rest

/-- A key route. -/
def Request.route (r : Request) (c : Credentials) (draw : FileKeyStore.Draw) : RouteProg :=
  .call (.handle r c draw) fun (answer : Response) => emitAll answer.reply answer.emits

private theorem instrumented_emitAll (reply : Reply) (emits : List Emission) :
    Instrumented RouteCall.Emits (.pure reply) (emitAll reply emits) := by
  induction emits with
  | nil => exact .pure reply
  | cons e rest ih => exact .emit trivial fun _ => ih

/-- The emissions of a key route are guarded. -/
theorem Request.instrumented_route (r : Request) (c : Credentials) (draw : FileKeyStore.Draw) :
    Instrumented RouteCall.Emits (r.silentRoute c draw) (r.route c draw) :=
  .call _ fun (answer : Response) => instrumented_emitAll answer.reply answer.emits

end Admin

/-- Answer calls without a provider. -/
def storeRoute (g : Admin.Gate) :
    (c : RouteCall) → FileKeyStore.Store → c.Answer × FileKeyStore.Store
  | .handle r c draw, st => r.handle g c draw st
  | .emit _, st => (.ok (), st)

private theorem noisy_storeRoute (g : Admin.Gate) (provider : RouteProvider) :
    Noisy RouteCall.Emits (storeRoute g) (execRoute g provider) Prod.fst := by
  refine ⟨fun c s hc => ?_, fun c s hc => ?_, fun c s hc => ?_⟩ <;> cases c
  · rfl
  · exact absurd trivial hc
  · rfl
  · exact absurd trivial hc
  · exact hc.elim
  · rfl

section KeyRoutes

variable {g : Admin.Gate} {c : Admin.Credentials} {r : Admin.Request} {draw : FileKeyStore.Draw}
  {y : RouteProg}

/-- With any guarded emissions put in, a key route answers and does what it does without them. -/
theorem routeOutcome_eq (hy : Instrumented RouteCall.Emits (r.silentRoute c draw) y)
    (provider : RouteProvider) (st : FileKeyStore.Store) :
    routeOutcome g provider y st = ((r.handle g c draw st).1.reply, (r.handle g c draw st).2) := by
  obtain ⟨hans, hstate⟩ := hy.run_noisy (noisy_storeRoute g provider) (t := (st, 0))
    ⟨not_false, trivial⟩
  exact Prod.ext hans hstate

private theorem routeUnaffected (hy : Instrumented RouteCall.Emits (r.silentRoute c draw) y)
    (st : FileKeyStore.Store) : RouteUnaffected g y st := by
  intro provider
  rw [routeOutcome_eq hy, routeOutcome_eq hy]

end KeyRoutes

/-! ## Every operation -/

/-- A request on either surface. -/
inductive Request where
  | rest (r : RestRequest)
  | mcp (r : McpRequest)

def Request.Result : Request → Type
  | .rest r => r.Result
  | .mcp r => r.Result

def Request.handler (cfg : Config) : (r : Request) → ClaimHandler r.Result
  | .rest r => r.handler cfg
  | .mcp r => r.handler cfg

/-- A request comes to a call of the provider outside of `safe_emit`. -/
def Request.Counted (cfg : Config) (env : Environment) (s : Server) : Request → Prop
  | .rest _ => False
  | .mcp r => r.Counted cfg env s

/-- A request whose guarded emissions are put in is unaffected exactly where it comes to no other
call of the provider. -/
theorem Request.unaffected_iff (r : Request) {y : ClaimHandler r.Result}
    (hy : Instrumented AnyCall.Emits (r.handler cfg).run y.run) (s : Server) :
    Unaffected cfg env y s ↔ ¬r.Counted cfg env s := by
  cases r with
  | rest r => exact iff_of_true (unaffected_of_silent hy (OnlyE.silent r.quiet s)) id
  | mcp r => exact (unaffected_iff_silent hy r.betrays).trans (r.silentAt_iff s)

/-- With any guarded emissions put in, a request has the same outcome whatever the metrics
provider does if and only if it comes to no call of the provider outside of `safe_emit`; and a
request to a key route has the same outcome always. -/
theorem metrics_change_nothing_iff (cfg : Config) (env : Environment) :
    (∀ (s : Server) (r : Request) (y : ClaimHandler r.Result),
      Instrumented AnyCall.Emits (r.handler cfg).run y.run →
        (Unaffected cfg env y s ↔ ¬r.Counted cfg env s)) ∧
    ∀ (g : Admin.Gate) (c : Admin.Credentials) (r : Admin.Request) (draw : FileKeyStore.Draw)
      (st : FileKeyStore.Store) (y : RouteProg),
      Instrumented RouteCall.Emits (r.silentRoute c draw) y → RouteUnaffected g y st :=
  ⟨fun s r _ hy => r.unaffected_iff hy s, fun _ _ _ _ st _ hy => routeUnaffected hy st⟩

/-- A server with an empty file in the inbox of `bob:b`. -/
def emptyFileServer : Server :=
  (srvSystem.run srvConfig .core [.plain (.broadcast alice "p" (.raw []))]).server

/-- A REST delete that is counted first, through `safe_emit`, and the creation of a key. -/
theorem metrics_change_nothing_rest :
    Instrumented AnyCall.Emits
      ((Request.rest (.deleteInbox bob "bob:b" "p")).handler srvConfig).run
      (plain (safeEmit ⟨"cassetta.inbox.operations", 1, [("action", "delete")]⟩ >>= fun _ =>
        Inbox.deleteInboxFile bob "bob:b" "p")).run ∧
    Unaffected srvConfig .core
      (plain (safeEmit ⟨"cassetta.inbox.operations", 1, [("action", "delete")]⟩ >>= fun _ =>
        Inbox.deleteInboxFile bob "bob:b" "p")) emptyFileServer ∧
    RouteUnaffected (Admin.coreGate "setup" id)
      ((Admin.Request.createKey ⟨"alice", by decide⟩ ⟨"a", by decide⟩).route
        ⟨some "setup", none⟩ ⟨"token", 0, .succeeds⟩) {} := by
  have hy : Instrumented AnyCall.Emits
      ((Request.rest (.deleteInbox bob "bob:b" "p")).handler srvConfig).run
      (plain (safeEmit ⟨"cassetta.inbox.operations", 1, [("action", "delete")]⟩ >>= fun _ =>
        Inbox.deleteInboxFile bob "bob:b" "p")).run :=
    Instrumented.embed (instrumented_safeEmit _ (Instrumented.refl _))
  obtain ⟨hrequest, hroute⟩ := metrics_change_nothing_iff srvConfig .core
  exact ⟨hy, (hrequest emptyFileServer (.rest (.deleteInbox bob "bob:b" "p")) _ hy).mpr id,
    hroute _ _ _ _ _ _ (Admin.Request.instrumented_route _ _ _)⟩

/-- An inline pick over MCP with a provider that raises: the bundle is deleted, and its contents
are not returned. -/
theorem pick_lost_to_metrics :
    ¬Unaffected srvConfig .core
      ((Request.mcp (.pick ⟨some bob, some "bob:b"⟩ "p")).handler srvConfig) emptyFileServer ∧
    (srvBackend.readBundleMeta emptyFileServer.disk.tree "inbox/bob:b/p").isSome = true ∧
    (outcome srvConfig .core (fun _ _ => .error ())
      (Mcp.cassettaPick srvConfig ⟨some bob, some "bob:b"⟩ "p") emptyFileServer).1.isOk = false ∧
    srvBackend.readBundleMeta (outcome srvConfig .core (fun _ _ => .error ())
      (Mcp.cassettaPick srvConfig ⟨some bob, some "bob:b"⟩ "p") emptyFileServer).2.disk.tree
      "inbox/bob:b/p" = none := by
  have hfails : (outcome srvConfig .core (fun _ _ => .error ())
      (Mcp.cassettaPick srvConfig ⟨some bob, some "bob:b"⟩ "p") emptyFileServer).1.isOk =
        false := by decide +kernel
  have hworks : (outcome srvConfig .core (fun _ _ => .ok ())
      (Mcp.cassettaPick srvConfig ⟨some bob, some "bob:b"⟩ "p") emptyFileServer).1.isOk =
        true := by decide +kernel
  refine ⟨fun h => ?_, by decide +kernel, hfails, by decide +kernel⟩
  have heq := h fun _ _ => .error ()
  change outcome srvConfig .core _ (Mcp.cassettaPick srvConfig ⟨some bob, some "bob:b"⟩ "p")
    emptyFileServer = outcome srvConfig .core _
      (Mcp.cassettaPick srvConfig ⟨some bob, some "bob:b"⟩ "p") emptyFileServer at heq
  rw [heq, hworks] at hfails
  cases hfails

end Cassetta
