import Cassetta.Guarantee.Claiming
import Cassetta.Server.Looking

/-!
# What only reads

Reads and downloads share the endpoints, the tokens and the accounting of a pick. What tells
them apart is the sidecar a pick has written: a token that was signed for a read has a `jti`
under which there is none. This module carries that through every run of reads and downloads.
-/

namespace Cassetta

open Prog

variable {cfg : Config} {env : Environment}

/-! ## The property and the condition -/

/-- The bundle a read is after. -/
def ReadRequest.bundlePath : ReadRequest → String
  | .file _ path => storePath path
  | .mcpGet _ path => storePath path
  | .inbox _ agent path => inboxPath agent path

/-- A token as `prepare_send_init` signs it. -/
def Token.IsUpload (token : Token) : Prop :=
  ∃ bundlePath bundleId sender recipient mode manifest ttl iat key fresh,
    token = sign (uploadClaims bundlePath bundleId sender recipient mode manifest ttl iat) key fresh

/-- A listing, a peek, a read of a bundle that is not past its time, a download with a token
of one of those reads or with an upload token, or a step of such a download. -/
def System.ReadsOnly (cfg : Config) (sys : System) : Event → Prop
  | .plain (.listFiles ..) | .plain (.peekFile ..) | .plain (.peekInbox ..)
  | .plain (.mcpList ..) | .plain (.mcpPeek ..) => True
  | .list _ => True
  | .read r => ∀ m, cfg.backend.readBundleMeta sys.server.disk.tree r.bundlePath = some m →
      ¬PastTtl cfg m.createdAt sys.server.reading
  | .download req => ∀ token, req.bearer = some token →
      token.IsUpload ∨ ∃ t ∈ sys.handed, ∃ key, token = .signed t.claims key
  | .chunk _ | .disconnect _ | .tick _ => True
  | _ => False

/-- No bundle is deleted, no claim is created, changed or dropped, and no upload token is taken
for a download. -/
structure Unconsumed (cfg : Config) (env : Environment) (s₀ : Server) (sys : System) : Prop where
  disk : sys.server.disk = s₀.disk
  claims : sys.server.claims = s₀.claims
  refused : ∀ req token, req.bearer = some token → token.IsUpload →
    ∃ e s', runE (exec cfg env) (Download.downloadFile cfg req) sys.server = (.error e, s')

/-! ## Events that only look -/

section Events

variable {α β : Type} {s : Server}

/-- A handler makes calls that only look, from a state. -/
abbrev LooksFrom (cfg : Config) (env : Environment) (x : Handler α) (Q : α → Server → Prop)
    (s : Server) : Prop :=
  wpE (exec cfg env) (fun _ c => c.Looks) x Q (fun _ _ => True) s

/-- The access check looks at neither the disk nor the clock. -/
theorem looksFrom_enforce (identity : Identity) (resource : Resource) (action : Action)
    (denied : Exc) :
    LooksFrom cfg env (enforce identity resource action denied)
      (fun _ s' => s'.disk = s.disk ∧ s'.reading = s.reading) s := by
  simp only [LooksFrom, enforce, wpE_bind, wpE_check, wpE_orCollaborator]
  refine ⟨trivial, ?_⟩
  split
  · split
    · exact ⟨rfl, rfl⟩
    · trivial
  · trivial

private theorem looksFrom_validateOr (allowed : Char → Bool) (path : String)
    (refusal : PathValidationError → Exc) :
    LooksFrom cfg env (validateOr allowed path refusal) (fun _ s' => s' = s) s := by
  unfold validateOr
  split <;> trivial

/-- A read of a bundle that is not past its time deletes nothing. -/
theorem looksFrom_readFreshOr {path : String} (missing : Exc)
    (h : ∀ m, cfg.backend.readBundleMeta s.disk.tree path = some m →
      ¬PastTtl cfg m.createdAt s.reading) :
    LooksFrom cfg env (readFreshOr cfg path missing) (fun _ _ => True) s := by
  simp only [LooksFrom, readFreshOr, readMetaOr, wpE_bind, wpE_readBundleMeta]
  refine ⟨trivial, ?_⟩
  cases hm : cfg.backend.readBundleMeta s.disk.tree path with
  | none => trivial
  | some m =>
    have hfresh := h m hm
    simp only [wpE_pure]
    unfold isExpiredByMeta
    split
    · simp
    · rename_i httl
      have hnot : ¬m.createdAt + secondsToMicros cfg.defaultTtl < s.reading :=
        fun hlt => hfresh ⟨httl, hlt⟩
      simp only [wpE_bind, wpE_now_reading, wpE_pure]
      refine ⟨trivial, ?_⟩
      rw [if_neg fun hlt => hnot (of_decide_eq_true hlt)]
      trivial

/-- The rest of a get, after the access check. -/
theorem looksFrom_fresh {path : String} (missing : Exc) {f : BundleMeta → Handler β}
    (h : ∀ m, cfg.backend.readBundleMeta s.disk.tree path = some m →
      ¬PastTtl cfg m.createdAt s.reading) (hf : ∀ m, (f m).Looks) :
    LooksFrom cfg env (readFreshOr cfg path missing >>= f) (fun _ _ => True) s := by
  simp only [LooksFrom, wpE_bind]
  exact wpE_mono (fun m s' _ => (hf m).wpE s') (fun _ _ h => h) (looksFrom_readFreshOr missing h)

/-- A read of what has not expired changes nothing. -/
theorem ReadRequest.looks {r : ReadRequest}
    (h : ∀ m, cfg.backend.readBundleMeta s.disk.tree r.bundlePath = some m →
      ¬PastTtl cfg m.createdAt s.reading) :
    wpE (execAny cfg env) (fun _ c => c.Looks) (r.handler cfg) (fun _ _ => True) (fun _ _ => True)
      s := by
  cases r with
  | file identity path =>
    refine wpE_plain.mpr ?_
    refine (wpE_bind _ _ _).mpr (wpE_mono ?_ (fun _ _ h => h) (looksFrom_validateOr _ _ _))
    rintro _ _ rfl
    refine (wpE_bind _ _ _).mpr (wpE_mono ?_ (fun _ _ h => h) (looksFrom_enforce _ _ _ _))
    rintro _ s₁ ⟨hd, hr⟩
    rw [← hd, ← hr] at h
    refine looksFrom_fresh _ h fun m => ?_
    split
    · exact OnlyE.bind (looks_buildReferencePayloadForStore _ _ _) fun _ => trivial
    · exact OnlyE.bind (looks_collectBundleFiles _ _) fun _ => trivial
  | mcpGet caller path =>
    refine wpE_plain.mpr ?_
    refine (wpE_bind _ _ _).mpr (wpE_mono ?_ (fun _ _ h => h) (looksFrom_validateOr _ _ _))
    rintro _ _ rfl
    refine (wpE_bind _ _ _).mpr (wpE_mono ?_ (fun _ _ h => h) (looksFrom_enforce _ _ _ _))
    rintro _ s₁ ⟨hd, hr⟩
    rw [← hd, ← hr] at h
    refine looksFrom_fresh _ h fun m => ?_
    refine OnlyE.bind (looks_increment _) fun _ => ?_
    split
    · exact OnlyE.bind (looks_buildReferencePayloadForStore _ _ _) fun _ => trivial
    · refine OnlyE.bind (looks_collectBundleFiles _ _) fun _ => ?_
      exact OnlyE.bind (looks_increment _) fun _ => trivial
  | inbox identity agent path =>
    simp only [ReadRequest.handler, Inbox.getInboxFile, wpE_bind]
    refine wpE_plain.mpr (wpE_mono ?_ (fun _ _ h => h) (looksFrom_enforce _ _ _ _))
    rintro _ s₁ ⟨hd, hr⟩
    rw [← hd, ← hr] at h
    refine wpE_plain.mpr (wpE_mono (fun m s₂ _ => ?_) (fun _ _ h => h) (looksFrom_readFreshOr _ h))
    split
    · simp only [wpE_bind, wpE_pure, buildReferencePayloadForInbox_false]
      exact wpE_mono (fun _ _ _ => wpE_plain.mpr ((looks_sendHead _).wpE _)) (fun _ _ h => h)
        ((looks_buildReferencePayloadForStore _ _ _).wpE s₂)
    · simp only [wpE_bind, wpE_pure, wpE_plain]
      exact wpE_mono (fun _ _ _ => (looks_sendHead _).wpE _) (fun _ _ h => h)
        ((looks_collectBundleFiles _ _).wpE s₂)

private theorem Inbox.looks_listing (agent pre : String) :
    wpE (execAny cfg env) (fun _ c => c.Looks) (Inbox.listing cfg agent pre) (fun _ _ => True)
      (fun _ _ => True) s := by
  simp only [Inbox.listing, Inbox.hiddenPaths, wpE_bind, wpE_plain, wpE_pure, wpE_iterClaims,
    wpE_now]
  refine ⟨trivial, trivial, ?_⟩
  refine wpE_mono (fun refs s₂ _ => ?_) (fun _ _ h => h) ((looks_listBundles _ _).wpE _)
  exact (looks_listingEntries _ _).wpE s₂

/-- A listing changes nothing. -/
theorem ListRequest.looks (r : ListRequest) :
    wpE (execAny cfg env) (fun _ c => c.Looks) (r.handler cfg) (fun _ _ => True) (fun _ _ => True)
      s := by
  cases r with
  | rest identity agent pre =>
    simp only [ListRequest.handler, Inbox.listInbox, wpE_bind, wpE_plain]
    exact wpE_mono (fun _ s₁ _ => Inbox.looks_listing agent pre) (fun _ _ h => h)
      ((looks_enforce _ _ _ _).wpE s)
  | mcp caller agent pre =>
    simp only [ListRequest.handler, Mcp.cassettaInbox]
    split
    · trivial
    simp only [wpE_bind, wpE_plain]
    refine wpE_mono (fun _ s₁ _ => ?_) (fun _ _ h => h) ((looks_enforce _ _ _ _).wpE s)
    refine wpE_mono (fun entries s₂ _ => ?_) (fun _ _ h => h) (Inbox.looks_listing _ pre)
    split
    · trivial
    · simp only [wpE_bind, wpE_plain, wpE_pure]
      exact (looks_increment _).wpE s₂

/-- The accounting of a stream under whose `jti` there is no sidecar looks, and that is all. -/
theorem Download.looks_finish {st : Download.Stream} (h : s.claims.get st.jti = none) :
    wpE (execAny cfg env) (fun _ c => c.Looks) st.finish (fun _ _ => True) (fun _ _ => True) s := by
  unfold Download.Stream.finish
  split
  · simp only [Download.postStreamClaimAccounting, wpE_bind, wpE_getClaim, h]
    exact ⟨trivial, trivial⟩
  · trivial

/-- Such an event makes no other calls, as long as no stream that is under way has a sidecar. -/
theorem System.looks {sys : System} {e : Event} (h : sys.ReadsOnly cfg e)
    (hstreams : ∀ o, some o ∈ sys.streams → sys.server.claims.get o.stream.jti = none) :
    sys.Calls cfg env (fun _ c => c.Looks) e := by
  unfold System.Calls
  cases e with
  | plain r =>
    simp only [Event.program, wpE_bind, wpE_plain, wpE_pure]
    have hlooking : r.Looking := by cases r <;> trivial
    exact (PlainRequest.looks hlooking).wpE _
  | list r =>
    simp only [Event.program, wpE_bind, wpE_pure]
    exact r.looks
  | read r =>
    simp only [Event.program, wpE_bind, wpE_pure]
    exact ReadRequest.looks h
  | download req =>
    simp only [Event.program, wpE_bind, wpE_plain, wpE_pure]
    exact (Download.looks_downloadFile req).wpE _
  | chunk k =>
    simp only [Event.program]
    split
    · trivial
    · rename_i o ho
      split
      · simp only [wpE_bind, wpE_pure]
        exact Download.looks_finish
          (hstreams o (List.mem_of_getElem? (Option.join_eq_some_iff.mp ho)))
      · trivial
  | disconnect k => trivial
  | tick micros => trivial
  | _ => exact h.elim

end Events

/-! ## Runs -/

/-- Since a moment nothing has been consumed: all tokens and streams are younger than every
claim. -/
structure Younger (s₀ : Server) (sys : System) : Prop where
  disk : sys.server.disk = s₀.disk
  claims : sys.server.claims = s₀.claims
  nextId : s₀.nextId ≤ sys.server.nextId
  handed : ∀ t ∈ sys.handed, ∃ j, t.claims.jti = some j ∧ s₀.nextId ≤ j
  streams : ∀ o, some o ∈ sys.streams → s₀.nextId ≤ o.stream.jti

/-- An upload token has no file names. -/
theorem Token.IsUpload.fileNames {claims : Claims} {key : SigningKey}
    (h : (Token.signed claims key).IsUpload) : claims.fileNames = none := by
  obtain ⟨_, _, _, _, _, _, _, _, _, _, heq⟩ := h
  obtain ⟨rfl, -⟩ := Token.signed.inj heq
  rfl

/-- A stream of a later token has no claim of before. -/
theorem Younger.get {s₀ : Server} {sys : System} (h : Younger s₀ sys)
    (hfresh : ∀ c ∈ s₀.claims.sidecars, c.jti < s₀.nextId) (o : OpenStream)
    (ho : some o ∈ sys.streams) : sys.server.claims.get o.stream.jti = none := by
  rw [h.claims, ClaimStore.get, List.find?_eq_none]
  intro c hc
  have hlt := hfresh c hc
  have hge := h.streams o ho
  have hne : c.jti ≠ o.stream.jti := Nat.ne_of_lt (Nat.lt_of_lt_of_le hlt hge)
  simpa using hne

/-- A read keeps the streams younger. -/
theorem Younger.step {s₀ : Server} {sys : System} {e : Event} (h : Younger s₀ sys)
    (hfresh : ∀ c ∈ s₀.claims.sidecars, c.jti < s₀.nextId) (he : sys.ReadsOnly cfg e) :
    Younger s₀ (sys.step cfg env e) := by
  have hcalls : sys.Calls cfg env (fun _ c => c.Looks) e := System.looks he (h.get hfresh)
  obtain ⟨hd, hc, hn⟩ : (sys.step cfg env e).server.disk = s₀.disk ∧
      (sys.step cfg env e).server.claims = s₀.claims ∧
      s₀.nextId ≤ (sys.step cfg env e).server.nextId := by
    refine System.step_server (I := fun s => s.disk = s₀.disk ∧ s.claims = s₀.claims ∧
      s₀.nextId ≤ s.nextId) ?_ ?_ hcalls ⟨h.disk, h.claims, h.nextId⟩
    · rintro s c ⟨hd, hc, hn⟩ hlook
      obtain ⟨hd', hc'⟩ := @execAny_of_looks cfg env c hlook s
      exact ⟨hd'.trans hd, hc'.trans hc, hn.trans (execAny_nextId_le c s)⟩
    · rintro s ⟨hd, hc, hn⟩
      rw [Event.outside_disk, Event.outside_claims, Event.outside_nextId]
      exact ⟨hd, hc, hn⟩
  refine ⟨hd, hc, hn, fun t ht => ?_, fun o ho => ?_⟩
  · rcases System.step_handed ht with hold | ⟨path, hnew⟩
    · exact h.handed t hold
    · obtain ⟨j, hj, hge, -⟩ := hnew.jti
      exact ⟨j, hj, h.nextId.trans hge⟩
  · rcases System.step_streams ho with
      ⟨o₀, ho₀, -, hj, -⟩ | ⟨req, claims, m, t, rfl, hs, -⟩
    · rw [hj]
      exact h.streams o₀ ho₀
    · obtain ⟨key, hb, -⟩ := hs.bearer
      obtain ⟨names, hnames, -⟩ := hs.named
      rcases he _ hb with hup | ⟨t, ht, key', htok⟩
      · rw [hup.fileNames] at hnames
        cases hnames
      · obtain ⟨rfl, -⟩ := Token.signed.inj htok
        obtain ⟨j, hj, hge⟩ := h.handed t ht
        rw [hs.jti, hj]
        exact hge

/-- A download with an upload token is refused, in every state. -/
theorem Download.upload_refused {s : Server} {req : Download.Request} {token : Token}
    (hb : req.bearer = some token) (hup : token.IsUpload) :
    ∃ e s', runE (exec cfg env) (Download.downloadFile cfg req) s = (.error e, s') := by
  rcases hrun : runE (exec cfg env) (Download.downloadFile cfg req) s with ⟨r, s'⟩
  cases r with
  | error e => exact ⟨e, s', rfl⟩
  | ok st =>
    obtain ⟨-, claims, m, hs⟩ := wpE_ok (Download.ensures_downloadFile req) hrun
    obtain ⟨key, hb', -⟩ := hs.bearer
    obtain ⟨names, hnames, -⟩ := hs.named
    obtain rfl := Option.some.inj (hb.symm.trans hb')
    rw [hup.fileNames] at hnames
    cases hnames

/-- A run of listings, peeks, reads of bundles that are not past their time, and downloads with
the tokens of those reads or with upload tokens leaves every bundle and every claim as it was,
and takes no upload token for a download. -/
theorem run_unconsumed (cfg : Config) (env : Environment) {sys : System}
    (hstreams : sys.streams = []) (hhanded : sys.handed = [])
    (hfresh : ∀ c ∈ sys.server.claims.sidecars, c.jti < sys.server.nextId) {events : List Event}
    (h : Runs.Guarded (System.step cfg env) (System.ReadsOnly cfg) sys events) :
    Unconsumed cfg env sys.server (sys.run cfg env events) := by
  have hyounger : Younger sys.server (sys.run cfg env events) := by
    refine h.invariant (I := Younger sys.server) (fun _ e hy he => hy.step hfresh he) ?_
    exact ⟨rfl, rfl, le_rfl, by simp [hhanded], by simp [hstreams]⟩
  exact ⟨hyounger.disk, hyounger.claims, fun req token hb hup => Download.upload_refused hb hup⟩

/-! ## On a small server -/

/-- A server with a bundle that has been picked, as a new observer finds it. -/
def pickedSystem : System :=
  { srvSystem.run srvConfig .core
      [.plain (.broadcast alice "p" (.raw [1])), .pick (.rest bob "bob:b" "p")] with handed := [] }

/-- A read of the bundle beside the pick, and a download with its token to the end. -/
def readBesidePick : List Event :=
  [.read (.inbox bob "bob:b" "p"),
    .download { firstDownload with
      bearer := some (.signed { firstClaims with jti := some 2 } srvConfig.jwtPrimaryKey) },
    .chunk 0, .chunk 0]

/-- The file has gone out in full, and bundle and claim are as the pick left them. -/
theorem run_unconsumed_beside :
    (pickedSystem.run srvConfig .core readBesidePick).streamed.map (·.name) = ["p"] ∧
      Unconsumed srvConfig .core pickedSystem.server
        (pickedSystem.run srvConfig .core readBesidePick) := by
  have hhanded : { firstClaims with jti := some 2 } ∈
      (pickedSystem.step srvConfig .core (.read (.inbox bob "bob:b" "p"))).handed.map
        (·.claims) := by decide +kernel
  have hguard : Runs.Guarded (System.step srvConfig .core) (System.ReadsOnly srvConfig) pickedSystem
      readBesidePick := by
    refine ⟨fun _ _ hpast => hpast.1 rfl, ?_, trivial, trivial, trivial⟩
    intro token htoken
    obtain rfl := Option.some.inj htoken
    obtain ⟨t, ht, heq⟩ := List.mem_map.mp hhanded
    exact .inr ⟨t, ht, srvConfig.jwtPrimaryKey, by rw [heq]⟩
  exact ⟨by decide +kernel, run_unconsumed srvConfig .core (by decide +kernel) rfl
    (by decide +kernel) hguard⟩

end Cassetta
