import Cassetta.Server.Rules

/-!
# Where download tokens come from

Every token a read or a pick returns was signed for a bundle whose manifest is in place when
the answer goes out; a pick has put its claim into the store by then.
-/

namespace Cassetta

open Prog

variable {cfg : Config} {env : Environment} {s : Server}

/-- A manifest that can be read lies at its location. -/
theorem Backend.readBundleMeta_eq_some {b : Backend} {t : DataTree} {path : String}
    {m : BundleMeta} (h : b.readBundleMeta t path = some m) :
    ∃ blob, t.fileAt (b.location path ++ [bundleManifest]) = some blob ∧
      b.loadMeta blob = some m := by
  obtain ⟨blob, hr, hl⟩ := Option.bind_eq_some_iff.mp h
  refine ⟨blob, ?_, hl⟩
  rw [Backend.location, ← Backend.normalize_metaPath]
  exact FileTree.Tree.fileAt_eq_some_iff.mpr (FileTree.Tree.readFile_eq_some_iff.mp hr).2

/-- A token signed for the bundle in place at a path, between two states of one request. -/
structure SignedFor (cfg : Config) (s s' : Server) (path : String) (claims : Claims) : Prop where
  disk : s'.disk = s.disk
  wall : s.wall ≤ s'.wall
  minted : ∃ m recipient iat jti,
    claims = downloadClaims cfg path m recipient iat jti ∧
      cfg.backend.readBundleMeta s.disk.tree path = some m ∧
      s.nextId ≤ jti ∧ jti < s'.nextId ∧ secondsToMicros iat ≤ s'.wall

/-- The claim of a pick, put into the store while the request ran. -/
def Claimed (cfg : Config) (s s' : Server) (path : String) (claims : Claims) : Prop :=
  ∃ m recipient iat jti createdAt, claims = downloadClaims cfg path m recipient iat jti ∧
    secondsToMicros iat ≤ createdAt ∧ createdAt ≤ s'.wall ∧
    s.claims.issue ⟨jti, path, m.bundleId, recipient, createdAt, []⟩ = (.ok (), s'.claims)

/-- The token of an envelope, if it has one, was signed for the bundle at a path. -/
def Envelope.SignedFor (cfg : Config) (s s' : Server) (path : String) (envelope : Envelope) :
    Prop :=
  ∀ claims key, envelope.token = some (.signed claims key) → Cassetta.SignedFor cfg s s' path claims

@[simp] private theorem buildInlineEnvelope_token (m : BundleMeta)
    (payloads : List (String × Bytes)) :
    (buildInlineEnvelope m payloads).token = none := rfl

@[simp] private theorem reference_token (r : ReferenceEnvelope) :
    (Envelope.reference r).token = some r.downloadToken := rfl

/-! ## Reads -/

private theorem ensures_buildReferencePayloadForStore {s₀ : Server} {path : String} {m : BundleMeta}
    {recipient : String} (hl : Later s₀ s)
    (hm : cfg.backend.readBundleMeta s₀.disk.tree path = some m) :
    Ensures (exec cfg env) (buildReferencePayloadForStore cfg path m recipient)
      (fun r s' => (Envelope.reference r).SignedFor cfg s₀ s' path) s := by
  simp only [Ensures, buildReferencePayloadForStore, wpE_bind, wpE_pure]
  refine ensures_mono (ensures_mintDownload path m recipient) ?_
  rintro _ s' ⟨hl', iat, jti, hge, hlt, hiat, rfl⟩
  intro claims key htok
  cases htok
  exact ⟨(hl.trans hl').disk, (hl.trans hl').wall,
    m, recipient, iat, jti, rfl, hm, hl.nextId.trans hge, hlt, hiat⟩

/-- `GET /files` signs for the bundle of its path. -/
theorem Files.ensures_downloadFile (identity : Identity) (path : String) :
    Ensures (exec cfg env) (Files.downloadFile cfg identity path)
      (fun r s' => r.SignedFor cfg s s' (storePath path)) s := by
  simp only [Ensures, Files.downloadFile, wpE_bind]
  refine ensures_mono (ensures_validateOr _ _ _) ?_
  rintro _ _ ⟨rfl, -⟩
  refine ensures_mono (ensures_enforce _ _ _ _) fun _ s₁ hl₁ => ?_
  refine ensures_mono (ensures_readFreshOr _ _) ?_
  rintro m s₂ ⟨hl₂, hm⟩
  rw [hl₁.disk] at hm
  split
  · simp only [wpE_bind, wpE_pure]
    exact ensures_buildReferencePayloadForStore (hl₁.trans hl₂) hm
  · simp only [wpE_bind, wpE_pure]
    exact ensures_mono (wpE_trivial _) fun payloads s' _ claims key htok => by simp at htok

private theorem ensures_increment (counter : Counter) :
    Ensures (exec cfg env) (increment counter) (fun _ s' => s' = s) s := by
  simp only [Ensures, increment, wpE_bind, wpE_tryIncrement, true_and, wpE_orCollaborator]
  split <;> trivial

/-- `cassetta_get` signs for the bundle of its path. -/
theorem Mcp.ensures_cassettaGet (caller : Mcp.Caller) (path : String) :
    Ensures (exec cfg env) (Mcp.cassettaGet cfg caller path)
      (fun r s' => r.SignedFor cfg s s' (storePath path)) s := by
  simp only [Ensures, Mcp.cassettaGet, wpE_bind]
  refine ensures_mono (ensures_validateOr _ _ _) ?_
  rintro _ _ ⟨rfl, -⟩
  refine ensures_mono (ensures_enforce _ _ _ _) fun _ s₁ hl₁ => ?_
  refine ensures_mono (ensures_readFreshOr _ _) ?_
  rintro m s₂ ⟨hl₂, hm⟩
  rw [hl₁.disk] at hm
  refine ensures_mono (ensures_increment _) ?_
  rintro _ _ rfl
  split
  · simp only [wpE_bind, wpE_pure]
    exact ensures_buildReferencePayloadForStore (hl₁.trans hl₂) hm
  · simp only [wpE_bind, wpE_pure]
    exact ensures_mono (wpE_trivial _) fun payloads s' _ =>
      ensures_mono (wpE_trivial _) fun _ _ _ claims key htok => by simp at htok

/-- Without a claim, the inbox builder does what the store's does. -/
theorem buildReferencePayloadForInbox_false {path : String} {m : BundleMeta} {recipient : String}
    {guard : Server → AnyCall → Prop} {Q : ReferenceEnvelope → Server → Prop}
    {E : Exc → Server → Prop} :
    wpE (execAny cfg env) guard (buildReferencePayloadForInbox cfg path m recipient false) Q E s ↔
      wpE (exec cfg env) (fun s c => guard s (.plain c))
        (buildReferencePayloadForStore cfg path m recipient) Q E s := by
  simp only [buildReferencePayloadForInbox, buildReferencePayloadForStore, wpE_bind, wpE_plain,
    Bool.false_eq_true, if_false, wpE_pure]

/-- `GET /inbox` signs for the bundle of its path. -/
theorem Inbox.ensures_getInboxFile (identity : Identity) (agent path : String) :
    Ensures (execAny cfg env) (Inbox.getInboxFile cfg identity agent path)
      (fun r s' => r.SignedFor cfg s s' (inboxPath agent path)) s := by
  simp only [Ensures, Inbox.getInboxFile, wpE_bind, wpE_plain]
  refine ensures_mono (ensures_enforce _ _ _ _) fun _ s₁ hl₁ => ?_
  refine ensures_mono (ensures_readFreshOr _ _) ?_
  rintro m s₂ ⟨hl₂, hm⟩
  rw [hl₁.disk] at hm
  split
  · simp only [wpE_bind, wpE_pure, wpE_plain, buildReferencePayloadForInbox_false]
    exact ensures_mono (ensures_buildReferencePayloadForStore (hl₁.trans hl₂) hm)
      fun _ _ hsigned => ensures_sendHead hsigned
  · simp only [wpE_bind, wpE_plain, wpE_pure]
    refine ensures_mono (wpE_trivial _) fun payloads s' _ => ?_
    exact ensures_sendHead fun claims key htok => by simp at htok

/-- A read hands out a token for the bundle in place. -/
theorem ReadRequest.ensures_handler (r : ReadRequest) :
    Ensures (execAny cfg env) (r.handler cfg)
      (fun envelope s' => ∃ path, envelope.SignedFor cfg s s' path) s := by
  cases r with
  | file identity path =>
    exact wpE_plain.mpr
      (ensures_mono (Files.ensures_downloadFile identity path) fun _ _ h => ⟨_, h⟩)
  | mcpGet caller path =>
    exact wpE_plain.mpr (ensures_mono (Mcp.ensures_cassettaGet caller path) fun _ _ h => ⟨_, h⟩)
  | inbox identity agent path =>
    exact ensures_mono (Inbox.ensures_getInboxFile identity agent path) fun _ _ h => ⟨_, h⟩

/-! ## Picks -/

/-- The bundles a pick may be after: those a listing shows, or the one at the path. -/
def pickTargets (cfg : Config) (d : Disk) (agent path : String) : List String :=
  if path = "latest" then
    match cfg.backend.listBundles d (inboxPath agent "") false with
    | .ok refs => refs.map (·.path)
    | .error _ => []
  else [inboxPath agent path]

/-- A pick finds a bundle that is on disk, among those it may find. -/
theorem Inbox.ensures_resolvePick (agent path : String) (noFiles missing : Exc) :
    Ensures (exec cfg env) (Inbox.resolvePick cfg agent path noFiles missing)
      (fun r s' => Later s s' ∧ cfg.backend.readBundleMeta s.disk.tree r.1 = some r.2 ∧
        r.1 ∈ pickTargets cfg s.disk agent path) s := by
  unfold Inbox.resolvePick
  split
  · rename_i hlatest
    simp only [Ensures, wpE_bind]
    refine ensures_mono (ensures_listBundles _ _) ?_
    rintro refs _ ⟨rfl, hrefs⟩
    refine ensures_mono (ensures_newestBundle _ _) ?_
    rintro found s' ⟨hl, hfound⟩
    cases found with
    | none => trivial
    | some f =>
      rcases hfound f.1 f.2 rfl with hnone | ⟨hmem, hm⟩
      · cases hnone
      · exact ⟨hl, hm, by simpa only [pickTargets, if_pos hlatest, hrefs] using hmem⟩
  · rename_i hne
    simp only [Ensures, wpE_bind, wpE_pure]
    refine ensures_mono (ensures_readFreshOr _ _) ?_
    rintro m s' ⟨hl, hm⟩
    exact ⟨hl, hm, by simp [pickTargets, hne]⟩

/-- A pick hands out a token for the bundle in place, with its claim in the store. -/
def PickedFor (cfg : Config) (s s' : Server) (path : String) (envelope : Envelope) : Prop :=
  ∀ claims key, envelope.token = some (.signed claims key) →
    SignedFor cfg s s' path claims ∧ Claimed cfg s s' path claims

/-- What a pick by reference hands out for a path, and what it has put into the store. -/
def PackedFor (cfg : Config) (s s' : Server) (path recipient : String) (envelope : Envelope) :
    Prop :=
  ∀ ref, envelope = .reference ref → ∃ m iat jti createdAt,
    ref = buildReferenceEnvelopeWithPath cfg m path
        (.signed (downloadClaims cfg path m recipient iat jti) cfg.jwtPrimaryKey)
        (iat + cfg.limits.downloadClaimTtl) ∧
      SignedFor cfg s s' path (downloadClaims cfg path m recipient iat jti) ∧
      cfg.backend.readBundleMeta s.disk.tree path = some m ∧
      secondsToMicros iat ≤ createdAt ∧ createdAt ≤ s'.wall ∧
      s.claims.issue ⟨jti, path, m.bundleId, recipient, createdAt, []⟩ = (.ok (), s'.claims)

/-- An envelope that is packed for a bundle was picked for it. -/
theorem PackedFor.pickedFor {s' : Server} {path recipient : String} {envelope : Envelope}
    (h : PackedFor cfg s s' path recipient envelope) : PickedFor cfg s s' path envelope := by
  intro claims key htok
  cases envelope with
  | inline m files => cases htok
  | reference ref =>
    obtain ⟨m, iat, jti, createdAt, rfl, hsigned, -, hiat, hcreated, hissue⟩ := h ref rfl
    cases htok
    exact ⟨hsigned, m, recipient, iat, jti, createdAt, rfl, hiat, hcreated, hissue⟩

private theorem ensures_buildReferencePayloadForInbox_true {s₀ : Server} {path : String}
    {m : BundleMeta}
    {recipient : String} (hl : Later s₀ s)
    (hm : cfg.backend.readBundleMeta s₀.disk.tree path = some m) :
    Ensures (execAny cfg env) (buildReferencePayloadForInbox cfg path m recipient true)
      (fun r s' => PackedFor cfg s₀ s' path recipient (.reference r)) s := by
  simp only [Ensures, buildReferencePayloadForInbox, wpE_bind, wpE_plain]
  refine ensures_mono (ensures_mintDownload path m recipient) ?_
  rintro _ s₁ ⟨hl₁, iat, jti, hge, hlt, hiat, rfl⟩
  have hl₂ : Later s₁ (exec cfg env .now s₁).2 := later_now
  have hclaims := ((hl.trans hl₁).trans hl₂).claims
  simp only [if_true, wpE_bind, wpE_plain, wpE_now, true_and, wpE_issueClaim]
  split
  · rename_i hok
    rintro ref ⟨⟩
    refine ⟨m, iat, jti, (exec cfg env .now s₁).1, rfl, ?_, hm, hiat.trans hl₂.wall, le_rfl, ?_⟩
    · exact ⟨((hl.trans hl₁).trans hl₂).disk, ((hl.trans hl₁).trans hl₂).wall,
        m, recipient, iat, jti, rfl, hm, hl.nextId.trans hge, hlt, hiat.trans hl₂.wall⟩
    · rw [hclaims] at hok ⊢
      exact Prod.ext hok rfl
  · trivial

private theorem Inbox.ensures_consume {s₀ : Server} {agent path : String} {m : BundleMeta}
    {missing : Exc}
    (hl : Later s₀ s) (hm : cfg.backend.readBundleMeta s₀.disk.tree path = some m) :
    Ensures (execAny cfg env) (Inbox.consume cfg agent path m missing)
      (fun r s' => PackedFor cfg s₀ s' path agent r) s := by
  unfold Inbox.consume
  split
  · simp only [Ensures, wpE_bind, wpE_tryCatch, wpE_pure]
    refine wpE_mono (fun _ _ h => h) (fun e s' _ => ?_)
      (ensures_buildReferencePayloadForInbox_true hl hm)
    split <;> trivial
  · simp only [Ensures, wpE_bind, wpE_plain, wpE_pure]
    exact ensures_mono (wpE_trivial _) fun payloads s' _ =>
      ensures_mono (wpE_trivial _) fun _ _ _ ref href => by cases href

/-- Whose inbox a pick is from. -/
def PickRequest.agent : PickRequest → String
  | .rest _ agent _ => agent
  | .mcp caller _ => caller.target ""

/-- The bundles a pick request may be after. -/
def PickRequest.targets (cfg : Config) (d : Disk) : PickRequest → List String
  | .rest _ agent path => pickTargets cfg d agent path
  | .mcp caller path => pickTargets cfg d (caller.target "") path

/-- The path check of a pick changes nothing. -/
theorem Mcp.ensures_validatePickPath (path : String) :
    Ensures (exec cfg env) (Mcp.validatePickPath cfg path) (fun _ s' => s' = s) s := by
  unfold Mcp.validatePickPath
  split
  · rfl
  · exact ensures_mono (ensures_validateOr _ _ _) fun _ _ h => h.1

/-- A pick signs for a bundle that it may find. -/
theorem PickRequest.ensures_handler (r : PickRequest) :
    Ensures (execAny cfg env) (r.handler cfg)
      (fun envelope s' => ∃ path ∈ r.targets cfg s.disk, PackedFor cfg s s' path r.agent envelope)
      s := by
  cases r with
  | rest identity agent path =>
    simp only [Ensures, PickRequest.handler, Inbox.pickInboxFile, wpE_bind, wpE_plain, wpE_pure]
    refine ensures_mono (ensures_enforce _ _ _ _) fun _ s₁ hl₁ => ?_
    refine ensures_mono (Inbox.ensures_resolvePick _ _ _ _) ?_
    rintro ⟨p, m⟩ s₂ ⟨hl₂, hm, ht⟩
    simp only [hl₁.disk] at hm ht
    exact ensures_mono (Inbox.ensures_consume (hl₁.trans hl₂) hm) fun _ _ h => ⟨p, ht, h⟩
  | mcp caller path =>
    simp only [Ensures, PickRequest.handler, Mcp.cassettaPick]
    split
    · trivial
    · simp only [wpE_bind, wpE_plain]
      refine ensures_mono (ensures_enforce _ _ _ _) fun _ s₁ hl₁ => ?_
      refine ensures_mono (Mcp.ensures_validatePickPath path) ?_
      rintro _ _ rfl
      refine ensures_mono (Inbox.ensures_resolvePick _ _ _ _) ?_
      rintro ⟨p, m⟩ s₂ ⟨hl₂, hm, ht⟩
      simp only [hl₁.disk] at hm ht
      refine ensures_mono (Inbox.ensures_consume (hl₁.trans hl₂) hm) fun envelope s₃ h => ?_
      refine ensures_mono (ensures_increment _) ?_
      rintro _ _ rfl
      exact ⟨p, ht, h⟩

/-! ## Tokens that are noted down -/

/-- A token is past its time. -/
def Handed.Expired (t : Handed) (now : Nat) : Prop := ∀ e ∈ t.claims.exp, secondsToMicros e ≤ now

instance (t : Handed) (now : Nat) : Decidable (t.Expired now) :=
  inferInstanceAs (Decidable (∀ e ∈ t.claims.exp, _))

/-- A token that is over stays so. -/
theorem Handed.Expired.mono {t : Handed} {a b : Nat} (h : t.Expired a) (hab : a ≤ b) :
    t.Expired b := fun e he => (h e he).trans hab

/-- The location of the manifest a token leads to. -/
def Handed.manifestLoc (b : Backend) (t : Handed) : List String :=
  b.location (t.claims.bundlePath.getD "") ++ [bundleManifest]

/-- A token an event has handed out for the bundle at a path, between the state before the
event and the state after it. -/
structure HandedOut (cfg : Config) (s s' : Server) (e : Event) (path : String) (t : Handed) :
    Prop where
  signed : SignedFor cfg s s' path t.claims
  found : t.found = cfg.backend.manifestBlob s'.disk path
  claimed : t.picked = true →
    ∃ r, e = .pick r ∧ path ∈ r.targets cfg s.disk ∧ Claimed cfg s s' path t.claims
  unclaimed : t.picked = false → ∃ r, e = .read r

/-- The claims of a token name its bundle. -/
theorem SignedFor.bundlePath {s' : Server} {path : String} {claims : Claims}
    (h : SignedFor cfg s s' path claims) : claims.bundlePath = some path := by
  obtain ⟨m, recipient, iat, jti, rfl, -⟩ := h.minted
  rfl

private theorem mem_handedBy {d : Disk} {picked : Bool} {r : Except Exc Reply} {t : Handed}
    (h : t ∈ handedBy cfg d picked r) :
    ∃ envelope key, r = .ok (.envelope envelope) ∧ envelope.token = some (.signed t.claims key) ∧
      t.found = cfg.backend.manifestBlob d (t.claims.bundlePath.getD "") ∧ t.picked = picked := by
  unfold handedBy at h
  split at h
  · rename_i envelope
    split at h
    · rename_i claims key htok
      obtain rfl := List.mem_singleton.mp h
      exact ⟨envelope, key, rfl, htok, rfl, rfl⟩
    · cases h
  · cases h

/-- An event hands out at most one token. -/
theorem Event.hands_cases (cfg : Config) (e : Event) (d : Disk) (r : Except Exc Reply) :
    e.hands cfg d r = [] ∨ ∃ t, e.hands cfg d r = [t] := by
  have hby : ∀ picked, handedBy cfg d picked r = [] ∨ ∃ t, handedBy cfg d picked r = [t] := by
    intro picked
    unfold handedBy
    split
    · split
      · exact .inr ⟨_, rfl⟩
      · exact .inl rfl
    · exact .inl rfl
  cases e <;> first | exact hby _ | exact .inl rfl

/-- A token that an event hands out was handed out for a bundle. -/
theorem System.handedOut {sys : System} {e : Event} {t : Handed}
    (h : t ∈ e.hands cfg (runE (execAny cfg env) (e.program cfg sys) sys.server).2.disk
      (runE (execAny cfg env) (e.program cfg sys) sys.server).1) :
    ∃ path, HandedOut cfg sys.server (sys.step cfg env e).server e path t := by
  cases e with
  | read r =>
    obtain ⟨envelope, key, hr, htok, hfound, hpicked⟩ := mem_handedBy h
    have hens : Ensures (execAny cfg env) ((Event.read r).program cfg sys) (fun reply s' =>
        ∀ envelope, reply = .envelope envelope →
          ∃ path, envelope.SignedFor cfg sys.server s' path) sys.server := by
      simp only [Ensures, Event.program, wpE_bind, wpE_pure]
      refine ensures_mono (r.ensures_handler) ?_
      rintro envelope s' hs _ ⟨⟩
      exact hs
    obtain ⟨path, hsigned⟩ := wpE_ok hens (Prod.ext hr rfl) envelope rfl
    have hs := hsigned _ _ htok
    refine ⟨path, hs, ?_, by simp [hpicked], fun _ => ⟨r, rfl⟩⟩
    rw [hfound, hs.bundlePath]
    rfl
  | pick r =>
    obtain ⟨envelope, key, hr, htok, hfound, hpick⟩ := mem_handedBy h
    have hens : Ensures (execAny cfg env) ((Event.pick r).program cfg sys) (fun reply s' =>
        ∀ envelope, reply = .envelope envelope → ∃ path ∈ r.targets cfg sys.server.disk,
          PackedFor cfg sys.server s' path r.agent envelope) sys.server := by
      simp only [Ensures, Event.program, wpE_bind, wpE_pure]
      refine ensures_mono (r.ensures_handler) ?_
      rintro envelope s' hs _ ⟨⟩
      exact hs
    obtain ⟨path, htarget, hpicked⟩ := wpE_ok hens (Prod.ext hr rfl) envelope rfl
    obtain ⟨hs, hclaimed⟩ := hpicked.pickedFor _ _ htok
    refine ⟨path, hs, ?_, fun _ => ⟨r, rfl, htarget, hclaimed⟩, by simp [hpick]⟩
    rw [hfound, hs.bundlePath]
    rfl
  | _ => cases h

/-- Every token on the list was there before the event, or the event has handed it out. -/
theorem System.step_handed {sys : System} {e : Event} {t : Handed}
    (h : t ∈ (sys.step cfg env e).handed) :
    t ∈ sys.handed ∨ ∃ path, HandedOut cfg sys.server (sys.step cfg env e).server e path t :=
  (List.mem_append.mp h).imp_right System.handedOut

end Cassetta
