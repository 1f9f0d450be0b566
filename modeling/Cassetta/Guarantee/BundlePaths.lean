import Cassetta.Guarantee.Coverage
import Cassetta.Guarantee.ReadOnly

/-!
# Bundle paths over runs

In a run of requests with ordinary arguments every path that is handed to the storage leads
strictly inside the store, or inside the one inbox the policy was asked about last. A request that
brings a token asks nothing itself; its path leads inside what the policy was asked about when the
token was signed.
-/

namespace Cassetta

open Prog FileTree

variable {cfg : Config} {env : Environment}

/-! ## Ordinary arguments -/

/-- Agents are single names, paths lead down and name something, prefixes lead down. What a
surface checks by itself is not asked for. -/
def PlainRequest.Ordinary (env : Environment) (keys : List KeyInfo) : PlainRequest → Prop
  | .putFile _ path _ | .peekFile _ path | .deleteFile _ path | .broadcast _ path _ |
    .mcpPut _ path _ _ | .mcpDelete _ path | .mcpBroadcast _ _ path _ _ => steps path ≠ []
  | .listFiles _ pre | .mcpList _ pre => Step.up ∉ steps (lstripSlash pre)
  | .peekInbox _ agent path | .deleteInbox _ agent path => FileName agent ∧ Inward path
  | .uploads identity to_ path _ => steps path ≠ [] ∧ env.Names keys to_ (some identity.label)
  | .mcpSendInit caller to_ path _ => steps path ≠ [] ∧ env.Names keys to_ caller.senderLabel
  | .mcpPeek _ path => Mcp.PeeksInward path
  | .mcpSendInline .. | .sweep | .ttlCleanup => True

instance (keys : List KeyInfo) : ∀ r : PlainRequest, Decidable (r.Ordinary env keys)
  | .putFile _ path _ | .peekFile _ path | .deleteFile _ path | .broadcast _ path _ |
    .mcpPut _ path _ _ | .mcpDelete _ path | .mcpBroadcast _ _ path _ _ =>
    inferInstanceAs (Decidable (steps path ≠ []))
  | .listFiles _ pre | .mcpList _ pre =>
    inferInstanceAs (Decidable (Step.up ∉ steps (lstripSlash pre)))
  | .peekInbox _ agent path | .deleteInbox _ agent path =>
    inferInstanceAs (Decidable (FileName agent ∧ Inward path))
  | .uploads identity to_ path _ =>
    inferInstanceAs (Decidable (steps path ≠ [] ∧ env.Names keys to_ (some identity.label)))
  | .mcpSendInit caller to_ path _ =>
    inferInstanceAs (Decidable (steps path ≠ [] ∧ env.Names keys to_ caller.senderLabel))
  | .mcpPeek _ path => inferInstanceAs (Decidable (Mcp.PeeksInward path))
  | .mcpSendInline .. | .sweep | .ttlCleanup => .isTrue trivial

def ListRequest.Ordinary : ListRequest → Prop
  | .rest _ agent pre => FileName agent ∧ Step.up ∉ steps pre
  | .mcp caller agent pre => FileName (caller.target agent) ∧ Step.up ∉ steps pre

instance : ∀ r : ListRequest, Decidable r.Ordinary
  | .rest .. | .mcp .. => inferInstanceAs (Decidable (_ ∧ _))

def ReadRequest.Ordinary : ReadRequest → Prop
  | .file _ path | .mcpGet _ path => steps path ≠ []
  | .inbox _ agent path => FileName agent ∧ Inward path

instance : ∀ r : ReadRequest, Decidable r.Ordinary
  | .file _ path | .mcpGet _ path => inferInstanceAs (Decidable (steps path ≠ []))
  | .inbox .. => inferInstanceAs (Decidable (_ ∧ _))

def PickRequest.Ordinary : PickRequest → Prop
  | .rest _ agent path => FileName agent ∧ Inbox.Pickable path
  | .mcp caller path => FileName (caller.target "") ∧ steps path ≠ []

instance : ∀ r : PickRequest, Decidable r.Ordinary
  | .rest .. | .mcp .. => inferInstanceAs (Decidable (_ ∧ _))

/-! ## Tokens -/

/-- A token that was signed, and the resource the policy had been asked about last. -/
structure Signing where
  claims : Claims
  resource : Resource

/-- The token is bound to a path inside of that resource. -/
def Signing.Confined (b : Backend) (g : Signing) : Prop :=
  ∃ path, g.claims.bundlePath = some path ∧ b.Covers g.resource path

/-- What is noted down of a token, in the state its request leaves behind. -/
def signingsOf (s : Server) : Option Token → List Signing
  | some (.signed claims _) => s.asked.head?.toList.map fun resource => ⟨claims, resource⟩
  | _ => []

/-- What is noted down of an answer that may carry a token. -/
def signingsIn {α : Type} (token : α → Option Token) : Except Exc α × Server → List Signing
  | (.ok a, s) => signingsOf s (token a)
  | (.error _, _) => []

/-- The tokens an event signs, for an upload or a download. -/
def Event.signings (cfg : Config) (env : Environment) (s : Server) : Event → List Signing
  | .plain (.uploads identity to_ path manifest) =>
    signingsIn (fun r => some r.token)
      (runE (exec cfg env) (createUploadSession cfg identity to_ path manifest) s)
  | .plain (.mcpSendInit caller to_ path manifest) =>
    signingsIn (fun r => some r.token)
      (runE (exec cfg env) (Mcp.cassettaSendInit cfg caller to_ path manifest) s)
  | .read r => signingsIn Envelope.token (runE (execAny cfg env) (r.handler cfg) s)
  | .pick r => signingsIn Envelope.token (runE (execAny cfg env) (r.handler cfg) s)
  | _ => []

/-- The system, and the tokens signed in the run. -/
structure Overseen where
  sys : System
  signed : List Signing := []

namespace Overseen

def step (cfg : Config) (env : Environment) (w : Overseen) (e : Event) : Overseen where
  sys := w.sys.step cfg env e
  signed := w.signed ++ e.signings cfg env w.sys.server

/-- Nobody but the server signs with the server's keys: a token that the current keys accept was
signed in the run. -/
def Vouches (w : Overseen) : Token → Prop
  | .signed claims key =>
    (key = w.sys.server.slots.primary ∨ w.sys.server.slots.secondary = some key) →
      claims ∈ w.signed.map (·.claims)
  | .malformed => True

instance (w : Overseen) : ∀ token, Decidable (w.Vouches token)
  | .signed _ _ => inferInstanceAs (Decidable (_ → _))
  | .malformed => .isTrue trivial

/-- An event with ordinary arguments, and no forged token. -/
def Ordinary (env : Environment) (w : Overseen) : Event → Prop
  | .plain (.mcpSendInline token _) => w.Vouches token
  | .plain r => r.Ordinary env w.sys.server.keys
  | .list r => r.Ordinary
  | .read r => r.Ordinary
  | .pick r => r.Ordinary
  | .download req => ∀ token ∈ req.bearer, w.Vouches token
  | .uploadBegin bearer _ => ∀ token ∈ bearer, w.Vouches token
  | _ => True

/-- A path that a token signed in the run is bound to, inside of what the policy was asked about
then. -/
def Signed (b : Backend) (w : Overseen) (path : String) : Prop :=
  ∃ g ∈ w.signed, g.claims.bundlePath = some path ∧ b.Covers g.resource path

instance (b : Backend) (w : Overseen) (path : String) : Decidable (w.Signed b path) :=
  inferInstanceAs (Decidable (∃ g ∈ w.signed, _))

/-- What a call of an event may hand over. A request that brings a token hands over a path of a
token, any other what the policy has been asked about last since it began. Housekeeping is no
request. -/
def Confines (b : Backend) (w : Overseen) : Event → Server → AnyCall → Prop
  | .plain .sweep, _, _ | .plain .ttlCleanup, _, _ | .sweepClaims, _, _ => True
  | .plain (.mcpSendInline ..), _, c | .download _, _, c | .chunk _, _, c | .uploadBegin .., _, c |
    .uploadEntry .., _, c | .uploadEnd .., _, c => c.Hands (w.Signed b) fun _ => False
  | _, s, c => c.Covered b w.sys.server.asked s

/-- Every call of an event is confined. -/
def Confined (cfg : Config) (env : Environment) (w : Overseen) (e : Event) : Prop :=
  w.sys.Calls cfg env (w.Confines cfg.backend e) e

end Overseen

/-! ## What a token is bound to -/

section Signing

variable {s s' : Server} {before : List Resource} {paths : List String}

/-- A token bound to a path that the policy has been asked about is confined. -/
theorem confined_signingsOf {token : Option Token} (hleads : cfg.backend.Leads before paths s)
    (htoken : ∀ claims key, token = some (.signed claims key) →
      ∃ path ∈ paths, claims.bundlePath = some path) :
    ∀ g ∈ signingsOf s token, g.Confined cfg.backend := by
  obtain ⟨resource, hasked, hcovers⟩ := hleads
  intro g hg
  unfold signingsOf at hg
  split at hg
  · rename_i claims key
    obtain ⟨path, hpath, hclaims⟩ := htoken claims key rfl
    rw [hasked] at hg
    obtain rfl := List.mem_singleton.mp hg
    exact ⟨path, hclaims, hcovers path hpath⟩
  · cases hg

/-- What a session signs. -/
theorem confined_session {x : Handler SendInitResult}
    (hx : wpE (exec cfg env) (fun s' c => (AnyCall.plain c).Covered cfg.backend s.asked s') x
      (SessionLeads cfg s) (fun _ _ => True) s) :
    ∀ g ∈ signingsIn (fun r : SendInitResult => some r.token) (runE (exec cfg env) x s),
      g.Confined cfg.backend := by
  have hend := ((wpE_iff_run x).mp hx).2
  intro g hg
  rcases hrun : runE (exec cfg env) x s with ⟨e | r, s'⟩ <;> rw [hrun] at hend hg
  · cases hg
  · obtain ⟨path, hpath, hleads⟩ := hend
    refine confined_signingsOf hleads (fun claims key htoken => ?_) g hg
    rw [Option.some.inj htoken] at hpath
    exact ⟨path, List.mem_singleton_self path, hpath⟩

/-- What a read or a pick signs. -/
theorem confined_envelope {x : ClaimHandler Envelope}
    (hx : x.CoveredFor cfg env s paths)
    (hens : Ensures (execAny cfg env) x (fun envelope _ => ∃ path ∈ paths,
      ∀ claims key, envelope.token = some (.signed claims key) → claims.bundlePath = some path) s) :
    ∀ g ∈ signingsIn Envelope.token (runE (execAny cfg env) x s), g.Confined cfg.backend := by
  have hend := ((wpE_iff_run x).mp hx).2
  intro g hg
  rcases hrun : runE (execAny cfg env) x s with ⟨e | envelope, s'⟩ <;> rw [hrun] at hend hg
  · cases hg
  · obtain ⟨path, hpath, htoken⟩ := wpE_ok hens hrun
    exact confined_signingsOf hend (fun claims key h => ⟨path, hpath, htoken claims key h⟩) g hg

end Signing

/-! ## One request -/

section Requests

variable {s : Server}

/-- An ordinary listing is covered by what it asks about. -/
theorem ListRequest.covered {r : ListRequest} (hnamed : Named s.disk.tree) (h : r.Ordinary) :
    (r.handler cfg).CoveredFrom cfg env s := by
  cases r with
  | rest identity agent pre => exact Inbox.covered_listInbox hnamed h.1 h.2
  | mcp caller agent pre => exact Mcp.covered_cassettaInbox hnamed h.1 h.2

/-- An ordinary read is covered, and leads to its bundle. -/
theorem ReadRequest.covered {r : ReadRequest} (h : r.Ordinary) :
    (r.handler cfg).CoveredFor cfg env s [r.bundlePath] := by
  cases r with
  | file identity path => exact (Files.covered_downloadFile h).plain
  | mcpGet caller path => exact (Mcp.covered_cassettaGet h).plain
  | inbox identity agent path => exact Inbox.covered_getInboxFile h.1 h.2

/-- An ordinary pick is covered, and leads to the bundles it may find. -/
theorem PickRequest.covered {r : PickRequest} (hnamed : Named s.disk.tree) (h : r.Ordinary) :
    (r.handler cfg).CoveredFor cfg env s (r.targets cfg s.disk) := by
  cases r with
  | rest identity agent path =>
    refine (wpE_bind _ _ _).mpr (wpE_mono ?_ (fun _ _ h => h)
      (Inbox.covered_pickInboxFile hnamed h.1 h.2))
    rintro ⟨envelope, m⟩ s' hleads
    exact hleads
  | mcp caller path => exact Mcp.covered_cassettaPick hnamed h.1 h.2

/-- The requests that ask the policy themselves. -/
theorem PlainRequest.covered {r : PlainRequest} (hnamed : Named s.disk.tree) (henv : env.Direct)
    (h : r.Ordinary env s.keys)
    (hasks : match r with
      | .mcpSendInline .. | .sweep | .ttlCleanup => False
      | _ => True) :
    (r.handler cfg).CoveredFrom cfg env s := by
  cases r with
  | putFile identity path body => exact (Files.covered_uploadFile h body).discard
  | listFiles identity pre => exact (Files.covered_listFiles hnamed h).discard
  | peekFile identity path => exact (Files.covered_peekStoreFile h).discard
  | deleteFile identity path => exact Files.covered_deleteFile h
  | peekInbox identity agent path => exact (Inbox.covered_peekInboxFile h.1 h.2).discard
  | deleteInbox identity agent path => exact Inbox.covered_deleteInboxFile h.1 h.2
  | broadcast identity path body => exact (Agents.covered_broadcast h henv).discard
  | uploads identity to_ path manifest =>
    refine Handler.CoveredFrom.discard ?_
    exact wpE_mono (fun _ _ _ => trivial) (fun _ _ h => h)
      (covered_createUploadSession h.1 henv h.2)
  | mcpSendInit caller to_ path manifest =>
    refine Handler.CoveredFrom.discard ?_
    exact wpE_mono (fun _ _ _ => trivial) (fun _ _ h => h)
      (Mcp.covered_cassettaSendInit h.1 henv h.2)
  | mcpPut caller path content files => exact (Mcp.covered_cassettaPut h).discard
  | mcpDelete caller path => exact Mcp.covered_cassettaDelete h
  | mcpList caller pre => exact (Mcp.covered_cassettaList hnamed h).discard
  | mcpPeek caller path => exact (Mcp.covered_cassettaPeek h).discard
  | mcpBroadcast caller overHttp path content files =>
    exact (Mcp.covered_cassettaBroadcast h henv).discard
  | mcpSendInline token files => exact hasks.elim
  | sweep => exact hasks.elim
  | ttlCleanup => exact hasks.elim

/-- A read signs a token for the bundle it is after. -/
theorem ReadRequest.ensures_signedFor (r : ReadRequest) :
    Ensures (execAny cfg env) (r.handler cfg)
      (fun envelope s' => envelope.SignedFor cfg s s' r.bundlePath) s := by
  cases r with
  | file identity path => exact wpE_plain.mpr (Files.ensures_downloadFile identity path)
  | mcpGet caller path => exact wpE_plain.mpr (Mcp.ensures_cassettaGet caller path)
  | inbox identity agent path => exact Inbox.ensures_getInboxFile identity agent path

end Requests

/-- Every token an ordinary event signs is confined. -/
theorem Overseen.confined_signings {w : Overseen} {e : Event} (henv : env.Direct)
    (hnamed : Named w.sys.server.disk.tree) (h : w.Ordinary env e) :
    ∀ g ∈ e.signings cfg env w.sys.server, g.Confined cfg.backend := by
  cases e with
  | plain r =>
    cases r with
    | uploads identity to_ path manifest =>
      exact confined_session (covered_createUploadSession h.1 henv h.2)
    | mcpSendInit caller to_ path manifest =>
      exact confined_session (Mcp.covered_cassettaSendInit h.1 henv h.2)
    | _ => exact fun g hg => nomatch hg
  | read r =>
    refine confined_envelope (ReadRequest.covered h)
      (ensures_mono r.ensures_signedFor fun envelope s' hsigned => ?_)
    exact ⟨_, List.mem_singleton_self _, fun claims key htoken =>
      (hsigned claims key htoken).bundlePath⟩
  | pick r =>
    refine confined_envelope (PickRequest.covered hnamed h)
      (ensures_mono r.ensures_handler fun envelope s' hpacked => ?_)
    obtain ⟨path, hpath, hpacked⟩ := hpacked
    exact ⟨path, hpath, fun claims key htoken =>
      (hpacked.pickedFor claims key htoken).1.bundlePath⟩
  | _ => exact fun g hg => nomatch hg

/-! ## Requests that bring a token -/

section Tokens

variable {P L : String → Prop} {s : Server}

/-- A handler that asks nothing and keeps to some paths hands over no others. -/
theorem Handler.Keeps.hands {α : Type} {x : Handler α} (h : x.Keeps P L) :
    wpE (exec cfg env) (fun _ c => c.Hands P L) x (fun _ _ => True) (fun _ _ => True) s :=
  (OnlyE.mono h fun _ hc => hc.1).wpE s

/-- A handler that keeps to the paths hands no others to the storage. -/
theorem ClaimHandler.Keeps.hands {α : Type} {x : ClaimHandler α} (h : x.Keeps P L) :
    wpE (execAny cfg env) (fun _ c => c.Hands P L) x (fun _ _ => True) (fun _ _ => True) s :=
  (OnlyE.mono h fun _ hc => hc.hands).wpE s

/-- What follows the check of a token. -/
theorem hands_verifyToken {α : Type} {token : Token} {refusal : TokenError → Exc}
    {f : Claims → Handler α}
    (hf : ∀ claims key, token = .signed claims key →
      (key = s.slots.primary ∨ s.slots.secondary = some key) → (f claims).Keeps P L) :
    wpE (exec cfg env) (fun _ c => c.Hands P L) (verifyToken token refusal >>= f)
      (fun _ _ => True) (fun _ _ => True) s := by
  have hguard : wpE (exec cfg env) (fun _ c => c.Hands P L) (verifyToken token refusal)
      (fun _ _ => True) (fun _ _ => True) s := (keeps_verifyToken token refusal).hands
  have hens := (wpE_iff_run _).mp (@ensures_verifyToken cfg env s token refusal)
  refine (wpE_bind _ _ _).mpr ((wpE_iff_run _).mpr ⟨hguard, ?_⟩)
  rcases hrun : runE (exec cfg env) (verifyToken token refusal) s with ⟨e | claims, s'⟩
  · trivial
  · rw [hrun] at hens
    obtain ⟨-, -, -, key, htoken, hkey⟩ := hens
    exact (hf claims key htoken hkey).hands

private theorem keeps_streamEntry {task : Upload.Task} {info : Upload.TarEntry} :
    (Upload.entry cfg task info).Keeps P L := by
  refine keeps_orAbort ?_
  split
  · trivial
  split
  · trivial
  split
  · trivial
  split
  · trivial
  split
  · trivial
  exact OnlyE.bind (keeps_writeFile _ _ _) fun _ => trivial

private theorem keeps_uploadFinish {task : Upload.Task} {end_ : Upload.TarEnd} :
    (Upload.finish task end_).Keeps P L := by
  refine keeps_orAbort ?_
  split
  · trivial
  · trivial
  split
  · trivial
  · exact OnlyE.bind keeps_now fun _ => keeps_commit _ _

private theorem keeps_writeInlineFiles (handle : Nat) (decoded : List (String × Bytes))
    (manifest : List FileRecord) : (writeInlineFiles handle decoded manifest).Keeps P L := by
  induction manifest with
  | nil => trivial
  | cons f rest ih =>
    unfold writeInlineFiles
    split
    · trivial
    · exact OnlyE.bind (keeps_writeFile _ _ _) fun _ => ih

variable {token : Token} (hbound : ∀ claims key, token = .signed claims key →
  (key = s.slots.primary ∨ s.slots.secondary = some key) →
    ∃ path, claims.bundlePath = some path ∧ P path)
include hbound

private theorem hands_begin (bundlePath : String) :
    wpE (exec cfg env) (fun _ c => c.Hands P L) (Upload.begin (some token) bundlePath)
      (fun _ _ => True) (fun _ _ => True) s := by
  refine hands_verifyToken fun claims key htoken hkey => ?_
  obtain ⟨path, hpath, hp⟩ := hbound claims key htoken hkey
  rw [hpath]
  split
  · trivial
  split
  · trivial
  split
  · trivial
  refine OnlyE.bind (keeps_openBundleWrite hp) fun r => ?_
  split <;> trivial

private theorem hands_cassettaSendInline (files : List SendInlineFile) :
    wpE (exec cfg env) (fun _ c => c.Hands P L) (cassettaSendInline token files)
      (fun _ _ => True) (fun _ _ => True) s := by
  refine hands_verifyToken fun claims key htoken hkey => ?_
  obtain ⟨path, hpath, hp⟩ := hbound claims key htoken hkey
  rw [hpath]
  split
  · trivial
  dsimp only
  split
  · trivial
  split
  · trivial
  split
  · rename_i bundlePath bundleId hsome hid
    obtain rfl := Option.some.inj hsome
    refine OnlyE.bind (keeps_openBundleWrite hp) fun r => ?_
    split
    · trivial
    · trivial
    · trivial
    refine keeps_orAbort (OnlyE.bind (keeps_writeInlineFiles _ _ _) fun _ => ?_)
    refine OnlyE.bind keeps_now fun _ => ?_
    exact OnlyE.bind (keeps_commit _ _) fun _ => trivial
  · trivial

private theorem hands_download {req : Download.Request} (hreq : req.bearer = some token) :
    wpE (exec cfg env) (fun _ c => c.Hands P L) (Download.downloadFile cfg req)
      (fun _ _ => True) (fun _ _ => True) s := by
  unfold Download.downloadFile
  rw [hreq]
  refine hands_verifyToken fun claims key htoken hkey => ?_
  obtain ⟨path, hpath, hp⟩ := hbound claims key htoken hkey
  rw [hpath]
  split
  · trivial
  · trivial
  · trivial
  · trivial
  rename_i bundlePath bundleId recipient fileNames hsome _ _ _
  obtain rfl := Option.some.inj hsome
  split
  · trivial
  split
  · trivial
  split
  · trivial
  split
  · trivial
  split
  · trivial
  refine OnlyE.bind (keeps_readMetaOr hp _) fun m => ?_
  split
  · trivial
  refine OnlyE.bind (keeps_ask ⟨hp, trivial⟩) fun r => ?_
  split
  · trivial
  · trivial
  · exact OnlyE.bind (keeps_sendHead _) fun _ => trivial

end Tokens

/-! ## Runs -/

namespace Overseen

/-- What holds between the events of a run. -/
structure Sound (cfg : Config) (w : Overseen) : Prop where
  standing : Standing w.sys.server
  signed : ∀ g ∈ w.signed, g.Confined cfg.backend
  streams : ∀ o, some o ∈ w.sys.streams → w.Signed cfg.backend o.stream.bundlePath

variable {w : Overseen} {e : Event}

/-- A token that is not forged is bound to a path the policy was asked about. -/
theorem Sound.bound (h : w.Sound cfg) {token : Token} (hv : w.Vouches token) :
    ∀ claims key, token = .signed claims key →
      (key = w.sys.server.slots.primary ∨ w.sys.server.slots.secondary = some key) →
        ∃ path, claims.bundlePath = some path ∧ w.Signed cfg.backend path := by
  rintro claims key rfl hkey
  obtain ⟨g, hg, rfl⟩ := List.mem_map.mp (hv hkey)
  obtain ⟨path, hpath, hcovers⟩ := h.signed g hg
  exact ⟨path, hpath, g, hg, hpath, hcovers⟩

/-- A path that is signed stays so. -/
theorem Signed.step {path : String} (h : w.Signed cfg.backend path) :
    (w.step cfg env e).Signed cfg.backend path := by
  obtain ⟨g, hg, hpath⟩ := h
  exact ⟨g, List.mem_append_left _ hg, hpath⟩

/-- An ordinary event keeps it. -/
theorem Sound.step (henv : env.Direct) (hroot : ∀ k ∈ cfg.backend.root, FileName k)
    (h : w.Sound cfg) (ho : w.Ordinary env e) : (w.step cfg env e).Sound cfg := by
  refine ⟨h.standing.step hroot e, fun g hg => ?_, fun o hmem => ?_⟩
  · rcases List.mem_append.mp hg with hold | hnew
    · exact h.signed g hold
    · exact confined_signings henv h.standing.named.tree ho g hnew
  · rcases System.step_streams hmem with ⟨o₀, hold, -, -, hpath, -⟩ |
      ⟨req, claims, m, t, rfl, hserved, -⟩
    · rw [hpath]
      exact (h.streams o₀ hold).step
    · obtain ⟨key, hbearer, hkey⟩ := hserved.bearer
      have hpath := hserved.path
      obtain ⟨path, hbound, hsigned⟩ := h.bound (ho _ hbearer) claims key rfl hkey
      obtain rfl := Option.some.inj (hpath.symm.trans hbound)
      exact hsigned.step

/-- Every call of an ordinary event is confined. -/
theorem Sound.confined (henv : env.Direct) (h : w.Sound cfg) (ho : w.Ordinary env e) :
    w.Confined cfg env e := by
  have hnamed := h.standing.named.tree
  unfold Overseen.Confined System.Calls
  cases e with
  | plain r =>
    refine (wpE_bind _ _ _).mpr (wpE_plain.mpr ?_)
    cases r with
    | mcpSendInline token files =>
      exact (wpE_bind _ _ _).mpr (hands_cassettaSendInline (h.bound ho) files)
    | sweep => exact wpE_trivial _
    | ttlCleanup => exact wpE_trivial _
    | _ => exact PlainRequest.covered hnamed henv ho trivial
  | list r => exact (wpE_bind _ _ _).mpr (ListRequest.covered hnamed ho)
  | read r => exact (wpE_bind _ _ _).mpr (ReadRequest.covered ho).from
  | pick r => exact (wpE_bind _ _ _).mpr (PickRequest.covered hnamed ho).from
  | download req =>
    refine (wpE_bind _ _ _).mpr (wpE_plain.mpr ?_)
    cases hbearer : req.bearer with
    | none =>
      unfold Download.downloadFile
      rw [hbearer]
      trivial
    | some token => exact hands_download (h.bound (ho token hbearer)) hbearer
  | chunk k =>
    simp only [Event.program]
    split
    · trivial
    rename_i o hopen
    split
    · have hmem : some o ∈ w.sys.streams := List.mem_of_getElem? (Option.join_eq_some_iff.mp hopen)
      exact (wpE_bind _ _ _).mpr (Download.keeps_finish (h.streams o hmem)).hands
    · trivial
  | uploadBegin bearer bundlePath =>
    refine (wpE_bind _ _ _).mpr (wpE_plain.mpr ?_)
    cases bearer with
    | none => trivial
    | some token => exact hands_begin (h.bound (ho token rfl)) bundlePath
  | uploadEntry k info =>
    simp only [Event.program]
    split
    · trivial
    · exact (wpE_bind _ _ _).mpr (wpE_plain.mpr keeps_streamEntry.hands)
  | uploadEnd k end_ =>
    simp only [Event.program]
    split
    · trivial
    · exact (wpE_bind _ _ _).mpr (wpE_plain.mpr keeps_uploadFinish.hands)
  | sweepClaims => exact wpE_trivial _
  | disconnect k => trivial
  | rotate file => trivial
  | setKeys keys => trivial
  | tick micros => trivial

end Overseen

/-- In every run of events with ordinary arguments and no forged tokens, every path that a request
hands to the storage leads strictly inside the store, or inside the one inbox that the policy was
asked about last, and every prefix to it or inside; a request with a token hands over a path that
the policy had been asked about when the token was signed. -/
theorem run_confined (cfg : Config) (env : Environment) (henv : env.Direct)
    (hroot : ∀ k ∈ cfg.backend.root, FileName k) (sys : System) (hs : Standing sys.server)
    (hstreams : sys.streams = []) (events : List Event)
    (hg : Runs.Guarded (Overseen.step cfg env) (Overseen.Ordinary env) ⟨sys, []⟩ events) :
    Runs.Guarded (Overseen.step cfg env) (Overseen.Confined cfg env) ⟨sys, []⟩ events :=
  hg.transfer (I := Overseen.Sound cfg) (fun _ _ h ho => h.step henv hroot ho)
    (fun _ _ h ho => h.confined henv ho) ⟨hs, by simp, by simp [hstreams]⟩

/-- The core defaults are plain. -/
theorem Environment.core_direct : Environment.core.Direct where
  visible _ _ _ h := by
    obtain rfl := Except.ok.inj h
    exact List.Subset.refl _
  inboxes keys name sender resolved h := by
    have hsome := Except.ok.inj h
    unfold defaultResolve at hsome
    split at hsome
    · split at hsome
      · rename_i hany
        obtain rfl := Option.some.inj hsome
        obtain ⟨k, -, hk⟩ := List.any_eq_true.mp hany
        obtain ⟨rfl, -⟩ := of_decide_eq_true hk
        intro target htarget
        exact ⟨k.label, k.fileName_label, List.mem_singleton.mp htarget⟩
      · cases hsome
    · cases hsome
  own keys k sender resolved h := by
    have hsome := Except.ok.inj h
    unfold defaultResolve at hsome
    split at hsome
    · split at hsome
      · obtain rfl := Option.some.inj hsome
        exact fun target htarget => List.mem_singleton.mp htarget
      · cases hsome
    · cases hsome

/-- A broadcast, a read that signs a token, the download under it, and a listing. -/
def directedRun : List Event :=
  [.plain (.broadcast alice "p" (.raw [1])), .read (.inbox bob "bob:b" "p"),
    .download firstDownload, .list (.rest bob "bob:b" "")]

/-- A run of a directed send, each path of which is tied to a question. -/
theorem run_confined_directed :
    Runs.Guarded (Overseen.step srvConfig .core) (Overseen.Confined srvConfig .core)
      ⟨srvSystem, []⟩ directedRun := by
  refine run_confined srvConfig .core Environment.core_direct (by decide) srvSystem
    standing_srvSystem rfl directedRun ⟨?_, ?_, ?_, ?_, trivial⟩
  · exact (by decide : steps "p" ≠ [])
  · exact (by decide : FileName "bob:b" ∧ Inward "p")
  · intro token htoken
    obtain rfl := Option.some.inj htoken
    intro _
    decide +kernel
  · exact (by decide : FileName "bob:b" ∧ Step.up ∉ steps "")

end Cassetta
