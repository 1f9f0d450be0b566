import Cassetta.Guarantee.Minting

/-!
# Who touches the claim store

What each event may do to the claim store, and what holds at the moment it does. Only a pick
issues a claim, under a fresh `jti`, for a bundle in place; only the end of a stream marks a
name as fetched; and a claim goes either when its stream has just deleted the bundle, or when
a sweep finds it old.
-/

namespace Cassetta

open Prog

variable {cfg : Config} {env : Environment} {sys : System} {s : Server}

/-- The claim-store calls of an event. -/
def ClaimUse (cfg : Config) (sys : System) (e : Event) (s : Server) : AnyCall → Prop
  | .plain _ => True
  | .claim (.issue c) => s.disk = sys.server.disk ∧ sys.server.nextId ≤ c.jti ∧ c.jti < s.nextId ∧
      c.filesFetched = [] ∧ (∃ r, e = .pick r ∧ c.bundlePath ∈ r.targets cfg s.disk) ∧
      ∃ m, cfg.backend.readBundleMeta s.disk.tree c.bundlePath = some m
  | .claim (.get _) => True
  | .claim (.markFetched jti name) => ∃ k o, e = .chunk k ∧ sys.openStream k = some o ∧
      o.stream.unread = [] ∧ jti = o.stream.jti ∧ name = o.stream.name
  | .claim (.delete jti) =>
    (∃ k o, e = .chunk k ∧ sys.openStream k = some o ∧ jti = o.stream.jti ∧
      ∃ t d, s.disk = (cfg.backend.deleteBundle t o.stream.bundlePath d).2) ∨
    (e = .sweepClaims ∧ ∃ c ∈ sys.server.claims.sidecars, c.jti = jti ∧
      c.createdAt + secondsToMicros cfg.limits.downloadClaimTtl ≤ s.wall)
  | .claim .iterAll => True

/-- A handler meets the rule. -/
abbrev UsesClaims (cfg : Config) (env : Environment) (sys : System) (e : Event) {α : Type}
    (x : ClaimHandler α) (s : Server) : Prop :=
  wpE (execAny cfg env) (ClaimUse cfg sys e) x (fun _ _ => True) (fun _ _ => True) s

/-- A handler without a claim store meets it. -/
theorem usesClaims_plain {e : Event} {α β : Type} {x : Handler α} {f : α → ClaimHandler β}
    {P : α → Server → Prop} (hx : Ensures (exec cfg env) x P s)
    (hf : ∀ a s', P a s' → UsesClaims cfg env sys e (f a) s') :
    UsesClaims cfg env sys e (plain x >>= f) s := by
  simp only [UsesClaims, wpE_bind, wpE_plain]
  exact ensures_mono hx hf

/-! ## Listings and reads -/

private theorem Inbox.usesClaims_listing {e : Event} (agent pre : String) :
    UsesClaims cfg env sys e (Inbox.listing cfg agent pre) s := by
  simp only [UsesClaims, Inbox.listing, Inbox.hiddenPaths, wpE_bind, wpE_plain, wpE_pure,
    wpE_iterClaims]
  refine ensures_mono (wpE_trivial _) fun t s₁ _ => ⟨trivial, ?_⟩
  refine ensures_mono (wpE_trivial _) fun refs s₂ _ => ?_
  exact wpE_trivial _

/-- A listing meets the rule. -/
theorem ListRequest.usesClaims {e : Event} (r : ListRequest) :
    UsesClaims cfg env sys e (r.handler cfg) s := by
  cases r with
  | rest identity agent pre =>
    exact usesClaims_plain (wpE_trivial _) fun _ _ _ => Inbox.usesClaims_listing agent pre
  | mcp caller agent pre =>
    simp only [ListRequest.handler, Mcp.cassettaInbox]
    split
    · trivial
    refine usesClaims_plain (wpE_trivial _) fun _ s₁ _ => ?_
    simp only [UsesClaims, wpE_bind]
    refine wpE_mono (fun entries s₂ _ => ?_) (fun _ _ h => h)
      (Inbox.usesClaims_listing (caller.target agent) pre)
    split
    · trivial
    · exact usesClaims_plain (wpE_trivial _) fun _ _ _ => trivial

/-- A read meets the rule. -/
theorem ReadRequest.usesClaims {e : Event} (r : ReadRequest) :
    UsesClaims cfg env sys e (r.handler cfg) s := by
  cases r with
  | file identity path => exact wpE_plain.mpr (wpE_trivial _)
  | mcpGet caller path => exact wpE_plain.mpr (wpE_trivial _)
  | inbox identity agent path =>
    refine usesClaims_plain (wpE_trivial _) fun _ s₁ _ => ?_
    refine usesClaims_plain (wpE_trivial _) fun m s₂ _ => ?_
    split
    · simp only [UsesClaims, wpE_bind, buildReferencePayloadForInbox_false, wpE_pure]
      exact ensures_mono (wpE_trivial _) fun _ _ _ => wpE_plain.mpr (wpE_trivial _)
    · refine usesClaims_plain (wpE_trivial _) fun _ _ _ => ?_
      exact usesClaims_plain (wpE_trivial _) fun _ _ _ => trivial

/-! ## Picks -/

private theorem usesClaims_buildReferencePayloadForInbox {r : PickRequest} {path : String}
    {m : BundleMeta}
    {recipient : String} (hl : Later sys.server s)
    (hm : cfg.backend.readBundleMeta sys.server.disk.tree path = some m)
    (ht : path ∈ r.targets cfg sys.server.disk) :
    UsesClaims cfg env sys (.pick r)
      (buildReferencePayloadForInbox cfg path m recipient true) s := by
  refine usesClaims_plain (ensures_mintDownload path m recipient) ?_
  rintro _ s₁ ⟨hl₁, iat, jti, hge, hlt, -, rfl⟩
  refine usesClaims_plain
    (P := fun t s₂ => Later s₁ s₂) ⟨trivial, later_now⟩ fun createdAt s₂ hl₂ => ?_
  have hl' := (hl.trans hl₁).trans hl₂
  simp only [UsesClaims, wpE_bind, wpE_issueClaim]
  refine ⟨⟨hl'.disk, hl.nextId.trans hge, hlt.trans_le hl₂.nextId, rfl, ⟨r, rfl, ?_⟩, m, ?_⟩, ?_⟩
  · rwa [hl'.disk]
  · rwa [hl'.disk]
  · split <;> trivial

private theorem Inbox.usesClaims_consume {r : PickRequest} {agent path : String} {m : BundleMeta}
    {missing : Exc} (hl : Later sys.server s)
    (hm : cfg.backend.readBundleMeta sys.server.disk.tree path = some m)
    (ht : path ∈ r.targets cfg sys.server.disk) :
    UsesClaims cfg env sys (.pick r) (Inbox.consume cfg agent path m missing) s := by
  unfold Inbox.consume
  split
  · simp only [UsesClaims, wpE_bind, wpE_tryCatch, wpE_pure]
    refine wpE_mono (fun _ _ h => h) (fun err s' _ => ?_)
      (usesClaims_buildReferencePayloadForInbox hl hm ht)
    split <;> trivial
  · refine usesClaims_plain (wpE_trivial _) fun _ s₁ _ => ?_
    exact usesClaims_plain (wpE_trivial _) fun _ _ _ => trivial

/-- A pick meets the rule: it issues a claim on a bundle that it may find. -/
theorem PickRequest.usesClaims (r : PickRequest) :
    UsesClaims cfg env sys (.pick r) (r.handler cfg) sys.server := by
  cases r with
  | rest identity agent path =>
    simp only [UsesClaims, PickRequest.handler, Inbox.pickInboxFile, wpE_bind, wpE_pure]
    refine wpE_plain.mpr (ensures_mono (ensures_enforce _ _ _ _) fun _ s₁ hl₁ => ?_)
    refine wpE_plain.mpr (ensures_mono (Inbox.ensures_resolvePick _ _ _ _) ?_)
    rintro ⟨p, m⟩ s₂ ⟨hl₂, hm, ht⟩
    simp only [hl₁.disk] at hm ht
    exact Inbox.usesClaims_consume (hl₁.trans hl₂) hm ht
  | mcp caller path =>
    simp only [PickRequest.handler, Mcp.cassettaPick]
    split
    · trivial
    refine usesClaims_plain (ensures_enforce _ _ _ _) fun _ s₁ hl₁ => ?_
    refine usesClaims_plain (Mcp.ensures_validatePickPath path) ?_
    rintro _ _ rfl
    refine usesClaims_plain (Inbox.ensures_resolvePick _ _ _ _) ?_
    rintro ⟨p, m⟩ s₂ ⟨hl₂, hm, ht⟩
    simp only [hl₁.disk] at hm ht
    simp only [UsesClaims, wpE_bind]
    refine wpE_mono (fun envelope s₃ _ => ?_) (fun _ _ h => h)
      (Inbox.usesClaims_consume (hl₁.trans hl₂) hm ht)
    simp only [wpE_plain, wpE_pure]
    exact wpE_trivial _

/-! ## Streams and sweeps -/

/-- Where `deleteQuiet` returns, it has called `delete_bundle`. -/
theorem ensures_deleteQuiet (path : String) :
    Ensures (exec cfg env) (deleteQuiet path)
      (fun _ s' => s' = s.setDisk (cfg.backend.deleteBundle s.wall path s.disk).2) s := by
  simp only [Ensures, deleteQuiet, wpE_bind, wpE_deleteBundle, true_and]
  split <;> trivial

private theorem Download.usesClaims_finish {k : Nat} {o : OpenStream}
    (ho : sys.openStream k = some o)
    (hend : o.stream.unread = []) :
    UsesClaims cfg env sys (.chunk k) o.stream.finish s := by
  unfold Download.Stream.finish
  split
  · simp only [UsesClaims, Download.postStreamClaimAccounting, wpE_bind, wpE_getClaim]
    refine ⟨trivial, ?_⟩
    split
    · trivial
    simp only [wpE_bind, wpE_markFetched]
    refine ⟨⟨k, o, rfl, ho, hend, rfl, rfl⟩, ?_⟩
    split
    · trivial
    split
    · refine usesClaims_plain (ensures_deleteQuiet o.stream.bundlePath) ?_
      rintro _ _ rfl
      exact ⟨.inl ⟨k, o, rfl, ho, rfl, _, _, rfl⟩, trivial⟩
    · trivial
  · trivial

private theorem Background.usesClaims_sweepClaim {t : Nat} {c : ClaimRecord}
    (hc : c ∈ sys.server.claims.sidecars) (ht : t ≤ s.wall) :
    wpE (execAny cfg env) (ClaimUse cfg sys .sweepClaims) (Background.sweepClaim cfg t c)
      (fun _ s' => t ≤ s'.wall) (fun _ _ => True) s := by
  unfold Background.sweepClaim
  split
  · exact ht
  rename_i hold
  have huse : ∀ s', t ≤ s'.wall → ClaimUse cfg sys .sweepClaims s' (.claim (.delete c.jti)) :=
    fun s' ht' => .inr ⟨rfl, c, hc, rfl, (not_lt.mp hold).trans ht'⟩
  simp only [wpE_bind, wpE_plain, wpE_readBundleMeta]
  refine ⟨trivial, ?_⟩
  cases cfg.backend.readBundleMeta s.disk.tree c.bundlePath with
  | none => exact ⟨huse s ht, ht⟩
  | some m =>
    simp only
    split
    · simp only [wpE_bind, wpE_plain, wpE_deleteBundle, wpE_deleteClaim]
      exact ⟨trivial, huse _ ht, ht⟩
    · exact ⟨huse s ht, ht⟩

private theorem Background.usesClaims_sweepEach {t : Nat} {claims : List ClaimRecord}
    (hc : ∀ c ∈ claims, c ∈ sys.server.claims.sidecars) (ht : t ≤ s.wall) :
    UsesClaims cfg env sys .sweepClaims (Background.sweepEach cfg t claims) s := by
  induction claims generalizing s with
  | nil => trivial
  | cons c rest ih =>
    simp only [UsesClaims, Background.sweepEach, wpE_bind]
    refine wpE_mono (fun _ s' ht' => ?_) (fun _ _ h => h)
      (Background.usesClaims_sweepClaim (hc c (by simp)) ht)
    exact ih (fun c' hc' => hc c' (by simp [hc'])) ht'

/-! ## Every event -/

/-- An event touches the claim store as the rule says. -/
theorem System.usesClaims (sys : System) (e : Event) :
    sys.Calls cfg env (ClaimUse cfg sys e) e := by
  cases e with
  | plain r => exact usesClaims_plain (wpE_trivial _) fun _ _ _ => trivial
  | list r =>
    simp only [System.Calls, Event.program, wpE_bind, wpE_pure]
    exact r.usesClaims
  | read r =>
    simp only [System.Calls, Event.program, wpE_bind, wpE_pure]
    exact r.usesClaims
  | pick r =>
    simp only [System.Calls, Event.program, wpE_bind, wpE_pure]
    exact r.usesClaims
  | download req => exact usesClaims_plain (wpE_trivial _) fun _ _ _ => trivial
  | chunk k =>
    simp only [System.Calls, Event.program]
    split
    · trivial
    · rename_i o ho
      split
      · rename_i hend
        simp only [wpE_bind, wpE_pure]
        exact Download.usesClaims_finish ho hend
      · trivial
  | uploadBegin token bundlePath => exact usesClaims_plain (wpE_trivial _) fun _ _ _ => trivial
  | uploadEntry k info =>
    simp only [System.Calls, Event.program]
    split
    · trivial
    · exact usesClaims_plain (wpE_trivial _) fun _ _ _ => trivial
  | uploadEnd k end_ =>
    simp only [System.Calls, Event.program]
    split
    · trivial
    · exact usesClaims_plain (wpE_trivial _) fun _ _ _ => trivial
  | sweepClaims =>
    simp only [System.Calls, Event.program, Background.sweepClaims, wpE_bind, wpE_pure,
      wpE_iterClaims]
    refine ⟨trivial, wpE_plain.mpr ⟨trivial, ?_⟩⟩
    exact Background.usesClaims_sweepEach (fun c hc => hc) le_rfl
  | disconnect k => trivial
  | rotate file => trivial
  | setKeys keys => trivial
  | tick micros => trivial

/-! ## Tokens, claims and streams -/

/-- The order of `jti`s ties tokens, claims and streams together: each token has its own, used
up by now; a claim belongs to the token of a pick, for the same path, and is released no
earlier than the token expires; and every stream runs under a token. -/
structure Known (cfg : Config) (sys : System) : Prop where
  sound : sys.server.claims.Sound
  used : ∀ t ∈ sys.handed, ∃ j, t.claims.jti = some j ∧ j < sys.server.nextId
  own : ∀ t ∈ sys.handed, ∀ t' ∈ sys.handed, t.claims.jti = t'.claims.jti → t = t'
  claimed : ∀ c ∈ sys.server.claims.sidecars, c.jti < sys.server.nextId
  paired : ∀ t ∈ sys.handed, ∀ c ∈ sys.server.claims.sidecars, t.claims.jti = some c.jti →
    t.claims.bundlePath = some c.bundlePath ∧ ∃ exp, t.claims.exp = some exp ∧
      secondsToMicros exp ≤ c.createdAt + secondsToMicros cfg.limits.downloadClaimTtl
  streams : ∀ o, some o ∈ sys.streams → ∃ t ∈ sys.handed,
    t.claims.jti = some o.stream.jti ∧ t.claims.bundlePath = some o.stream.bundlePath

/-- A claim that was in the store before, perhaps with fewer names fetched. -/
def StemsFrom (claims : List ClaimRecord) (c : ClaimRecord) : Prop :=
  ∃ c₀ ∈ claims, c.jti = c₀.jti ∧ c.bundlePath = c₀.bundlePath ∧ c.createdAt = c₀.createdAt

/-- Every claim stems from one before the event, or the event, a pick, has issued it. -/
def ClaimsFrom (sys : System) (e : Event) (s : Server) : Prop :=
  s.claims.Sound ∧ sys.server.nextId ≤ s.nextId ∧ ∀ c ∈ s.claims.sidecars,
    StemsFrom sys.server.claims.sidecars c ∨
      (∃ r, e = .pick r) ∧ sys.server.nextId ≤ c.jti ∧ c.jti < s.nextId

/-- A call keeps the claims among those of the system and the event. -/
theorem ClaimsFrom.execAny {e : Event} (s : Server) (c : AnyCall) (h : ClaimsFrom sys e s)
    (hg : ClaimUse cfg sys e s c) : ClaimsFrom sys e (execAny cfg env c s).2 := by
  obtain ⟨hs, hid, hfrom⟩ := h
  have hid' : sys.server.nextId ≤ (Cassetta.execAny cfg env c s).2.nextId :=
    hid.trans (execAny_nextId_le c s)
  cases c with
  | plain c =>
    refine ⟨by rwa [Cassetta.execAny, exec_claims], hid', fun k hk => ?_⟩
    rw [Cassetta.execAny, exec_claims] at hk
    exact (hfrom k hk).imp_right fun h => ⟨h.1, h.2.1, h.2.2.trans_le (exec_nextId_le c s)⟩
  | claim c =>
    cases c with
    | issue k =>
      refine ⟨hs.issue k, hid', fun k' hk' => ?_⟩
      obtain ⟨-, hge, hlt, -, ⟨r, hr, -⟩, -⟩ := hg
      change k' ∈ (s.claims.issue k).2.sidecars at hk'
      rcases ClaimStore.issue_cases k s.claims with heq | ⟨-, -, heq⟩
      · rw [heq] at hk'
        exact hfrom k' hk'
      · rw [heq] at hk'
        rcases List.mem_append.mp hk' with hold | hnew
        · exact hfrom k' hold
        · obtain rfl := List.mem_singleton.mp hnew
          exact .inr ⟨⟨r, hr⟩, hge, hlt⟩
    | get jti => exact ⟨hs, hid', hfrom⟩
    | iterAll => exact ⟨hs, hid', hfrom⟩
    | markFetched jti name =>
      refine ⟨hs.markFetched jti name, hid', fun k hk => ?_⟩
      rcases ClaimStore.mem_markFetched hs hk with ⟨hold, -⟩ | ⟨k₀, hk₀, -, rfl⟩
      · exact hfrom k hold
      · refine (hfrom k₀ hk₀).imp (fun h => by simpa [StemsFrom] using h) fun h => ?_
        rw [ClaimRecord.fetch_jti]
        exact h
    | delete jti =>
      refine ⟨hs.delete jti, hid', fun k hk => ?_⟩
      exact hfrom k (ClaimStore.mem_delete.mp hk).1

/-- What happens outside of the surfaces issues no claim. -/
theorem ClaimsFrom.outside {e e' : Event} {s : Server} (h : ClaimsFrom sys e s) :
    ClaimsFrom sys e (e'.outside cfg s) := by
  unfold ClaimsFrom
  rw [Event.outside_claims, Event.outside_nextId]
  exact h

/-- The claims after an event. -/
theorem System.step_claims (hsound : sys.server.claims.Sound) (e : Event) :
    ClaimsFrom sys e (sys.step cfg env e).server :=
  System.step_server ClaimsFrom.execAny (fun _ h => h.outside) (sys.usesClaims e)
    ⟨hsound, le_rfl, fun c hc => .inl ⟨c, hc, rfl, rfl, rfl⟩⟩

/-- A token an event hands out carries a `jti` that was not used before it. -/
theorem HandedOut.jti {s s' : Server} {e : Event} {path : String} {t : Handed}
    (h : HandedOut cfg s s' e path t) :
    ∃ j, t.claims.jti = some j ∧ s.nextId ≤ j ∧ j < s'.nextId := by
  obtain ⟨m, recipient, iat, jti, hclaims, -, hge, hlt, -⟩ := h.signed.minted
  exact ⟨jti, by rw [hclaims]; rfl, hge, hlt⟩

/-- The claim of a token that a pick hands out. -/
theorem HandedOut.paired {s s' : Server} {e : Event} {path : String} {t : Handed}
    (h : HandedOut cfg s s' e path t) (hpicked : t.picked = true)
    (hused : ∀ c ∈ s.claims.sidecars, c.jti < s.nextId) {c : ClaimRecord}
    (hc : c ∈ s'.claims.sidecars) (hj : t.claims.jti = some c.jti) :
    t.claims.bundlePath = some c.bundlePath ∧ ∃ exp, t.claims.exp = some exp ∧
      secondsToMicros exp ≤ c.createdAt + secondsToMicros cfg.limits.downloadClaimTtl := by
  obtain ⟨j, hj', hge, -⟩ := h.jti
  obtain ⟨r, -, -, m, recipient, iat, jti, createdAt, hclaims, hiat, -, hissue⟩ := h.claimed hpicked
  rcases ClaimStore.issue_cases ⟨jti, path, m.bundleId, recipient, createdAt, []⟩ s.claims with
    heq | ⟨-, -, heq⟩
  · rw [hissue] at heq
    cases heq
  · rw [hissue] at heq
    rw [(Prod.mk.inj heq).2] at hc
    rcases List.mem_append.mp hc with hold | hnew
    · rw [hj] at hj'
      obtain rfl := Option.some.inj hj'
      exact absurd (hused c hold) (not_lt.mpr hge)
    · obtain rfl := List.mem_singleton.mp hnew
      refine ⟨by rw [hclaims]; rfl, iat + cfg.limits.downloadClaimTtl, by rw [hclaims]; rfl, ?_⟩
      rw [secondsToMicros_add]
      exact Nat.add_le_add_right hiat _

/-- A download that is answered runs under a token that was handed out. -/
theorem System.Genuine.served {req : Download.Request} {t : Nat} {claims : Claims} {m : BundleMeta}
    {st : Download.Stream} (hg : sys.Genuine (.download req))
    (h : Served cfg sys.server t req claims m st) :
    ∃ t ∈ sys.handed, t.claims = claims ∧ t.claims.jti = some st.jti ∧
      t.claims.bundlePath = some st.bundlePath := by
  obtain ⟨key, hbearer, hkey⟩ := h.bearer
  obtain ⟨names, hnames, -⟩ := h.named
  rw [System.Genuine, hbearer] at hg
  obtain ⟨t, ht, rfl⟩ := List.mem_map.mp (hg hkey (by simp [hnames]))
  obtain ⟨-, -, -, jti, -, -, -, hjti, -⟩ := h.timely
  refine ⟨t, ht, rfl, ?_, h.path⟩
  rw [h.jti, hjti]
  rfl

/-- The streams after an event: those before it, some of them a chunk further on, and one that
a download opens. -/
theorem System.step_streams {e : Event} {o : OpenStream}
    (h : some o ∈ (sys.step cfg env e).streams) :
    (∃ o₀, some o₀ ∈ sys.streams ∧ o.found = o₀.found ∧ o.stream.jti = o₀.stream.jti ∧
        o.stream.bundlePath = o₀.stream.bundlePath ∧
        o.stream.manifestFiles = o₀.stream.manifestFiles) ∨
      ∃ req claims m t, e = .download req ∧ Served cfg sys.server t req claims m o.stream ∧
        o.found = cfg.backend.manifestBlob sys.server.disk o.stream.bundlePath ∧
        (sys.step cfg env e).server.claims = sys.server.claims ∧
        (sys.step cfg env e).server.disk = sys.server.disk := by
  have hold : some o ∈ sys.streams → ∃ o₀, some o₀ ∈ sys.streams ∧ o.found = o₀.found ∧
      o.stream.jti = o₀.stream.jti ∧ o.stream.bundlePath = o₀.stream.bundlePath ∧
      o.stream.manifestFiles = o₀.stream.manifestFiles := fun h => ⟨o, h, rfl, rfl, rfl, rfl⟩
  cases e with
  | download req =>
    rcases hrun : runE (execAny cfg env) ((Event.download req).program cfg sys) sys.server with
      ⟨r, s'⟩
    have hens : Ensures (execAny cfg env) ((Event.download req).program cfg sys) (fun reply s' =>
        ∀ st, reply = .stream st → Later sys.server s' ∧
          ∃ claims m, Served cfg sys.server s'.wall req claims m st) sys.server := by
      simp only [Ensures, Event.program, wpE_bind, wpE_plain, wpE_pure]
      refine ensures_mono (Download.ensures_downloadFile req) ?_
      rintro st s' hs _ ⟨⟩
      exact hs
    simp only [System.step, hrun] at h ⊢
    cases r with
    | error err => exact .inl (hold h)
    | ok reply =>
      cases reply with
      | stream st =>
        rcases List.mem_append.mp h with h | h
        · exact .inl (hold h)
        · right
          obtain ⟨hl, claims, m, hserved⟩ := wpE_ok hens hrun st rfl
          obtain rfl := Option.some.inj (List.mem_singleton.mp h)
          exact ⟨req, claims, m, s'.wall, rfl, hserved, by rw [hl.disk], hl.claims, hl.disk⟩
      | done => exact .inl (hold h)
      | envelope envelope => exact .inl (hold h)
      | upload task => exact .inl (hold h)
  | chunk k =>
    left
    simp only [System.step, System.streamsAfter] at h
    split at h
    · exact hold h
    · rename_i o₀ ho₀
      rcases List.mem_or_eq_of_mem_set h with h | h
      · exact hold h
      · split at h
        · cases h
        · obtain rfl := Option.some.inj h
          refine ⟨o₀, ?_, rfl, rfl, rfl, rfl⟩
          exact List.mem_of_getElem? (Option.join_eq_some_iff.mp ho₀)
  | disconnect k =>
    left
    rcases List.mem_or_eq_of_mem_set h with h | h
    · exact hold h
    · cases h
  | _ => exact .inl (hold h)

/-- What is known stays known, as long as tokens are not forged. -/
theorem Known.step {e : Event} (h : Known cfg sys) (hg : sys.Genuine e) :
    Known cfg (sys.step cfg env e) := by
  obtain ⟨hsound, hid, hfrom⟩ : ClaimsFrom sys e (sys.step cfg env e).server :=
    System.step_claims h.sound e
  have hhanded : ∀ t ∈ (sys.step cfg env e).handed, t ∈ sys.handed ∨
      ∃ path, HandedOut cfg sys.server (sys.step cfg env e).server e path t :=
    fun t => System.step_handed
  have hkeep : ∀ t ∈ sys.handed, t ∈ (sys.step cfg env e).handed :=
    fun t ht => List.mem_append_left _ ht
  have hcross : ∀ t ∈ sys.handed, ∀ t' ∈ (sys.step cfg env e).handed,
      t.claims.jti = t'.claims.jti → t = t' := by
    intro t ht t' ht' hj
    rcases hhanded t' ht' with hold | ⟨path, hnew⟩
    · exact h.own t ht t' hold hj
    · obtain ⟨j, hjt, hlt⟩ := h.used t ht
      obtain ⟨j', hjt', hge, -⟩ := hnew.jti
      rw [hjt, hjt'] at hj
      obtain rfl := Option.some.inj hj
      exact absurd hlt (not_lt.mpr hge)
  refine ⟨hsound, ?_, ?_, ?_, ?_, ?_⟩
  · intro t ht
    rcases hhanded t ht with hold | ⟨path, hnew⟩
    · obtain ⟨j, hj, hlt⟩ := h.used t hold
      exact ⟨j, hj, hlt.trans_le hid⟩
    · obtain ⟨j, hj, -, hlt⟩ := hnew.jti
      exact ⟨j, hj, hlt⟩
  · intro t ht t' ht' hj
    rcases List.mem_append.mp ht with hold | hnew
    · exact hcross t hold t' ht' hj
    rcases List.mem_append.mp ht' with hold' | hnew'
    · exact (hcross t' hold' t ht hj.symm).symm
    rcases e.hands_cases cfg _ _ with hnil | ⟨u, hu⟩
    · rw [hnil] at hnew
      cases hnew
    · rw [hu] at hnew hnew'
      exact (List.mem_singleton.mp hnew).trans (List.mem_singleton.mp hnew').symm
  · intro c hc
    rcases hfrom c hc with ⟨c₀, hc₀, hj, -⟩ | ⟨-, -, hlt⟩
    · exact hj ▸ (h.claimed c₀ hc₀).trans_le hid
    · exact hlt
  · intro t ht c hc hj
    rcases hhanded t ht with hold | ⟨path, hnew⟩
    · obtain ⟨j, hj', hlt⟩ := h.used t hold
      rcases hfrom c hc with ⟨c₀, hc₀, hcj, hcp, hcc⟩ | ⟨-, hge, -⟩
      · rw [hcp, hcc]
        exact h.paired t hold c₀ hc₀ (hcj ▸ hj)
      · rw [hj] at hj'
        obtain rfl := Option.some.inj hj'
        exact absurd hlt (not_lt.mpr hge)
    · cases hp : t.picked with
      | true => exact hnew.paired hp h.claimed hc hj
      | false =>
        obtain ⟨r, rfl⟩ := hnew.unclaimed hp
        obtain ⟨j, hj', hge, -⟩ := hnew.jti
        rcases hfrom c hc with ⟨c₀, hc₀, hcj, -⟩ | ⟨⟨r', hr'⟩, -⟩
        · rw [hj] at hj'
          obtain rfl := Option.some.inj hj'
          exact absurd (hcj ▸ h.claimed c₀ hc₀) (not_lt.mpr hge)
        · cases hr'
  · intro o ho
    rcases System.step_streams ho with ⟨o₀, ho₀, -, hj, hp, -⟩ | ⟨req, claims, m, t, rfl, hs, -⟩
    · obtain ⟨t, ht, htj, htp⟩ := h.streams o₀ ho₀
      exact ⟨t, hkeep t ht, by rw [hj, htj], by rw [hp, htp]⟩
    · obtain ⟨t, ht, -, htj, htp⟩ := hg.served hs
      exact ⟨t, hkeep t ht, htj, htp⟩

end Cassetta
