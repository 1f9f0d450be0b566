import Cassetta.Guarantee.ListPick
import Cassetta.Guarantee.TwoFactor
import Cassetta.Guarantee.Urls

/-!
# A delivery by reference, from the pick to the last byte

A pick by reference hands out URLs and a token and leaves the bundle where it is, under a claim.
Streams of its files may overlap, break off and be repeated. The one that completes the last
missing name takes bundle and claim away. This module follows a delivery through every run that
leaves the bundle alone otherwise, and says which bundles are delivered.
-/

namespace Cassetta

open Prog FileTree

variable {cfg : Config} {env : Environment}

/-! ## What events leave alone -/

section Events

variable {sys : System} {e : Event}

private theorem exec_primary (c : Call) (s : Server) :
    (exec cfg env c s).2.slots.primary = s.slots.primary := by
  cases c with
  | verifyKeys => exact (resolveSecondary_snd s.slots s.mono).1
  | _ => rfl

/-- Only a rotation changes the key that signs. -/
theorem System.step_primary (he : ∀ file, e ≠ .rotate file) :
    (sys.step cfg env e).server.slots.primary = sys.server.slots.primary := by
  have htrue : sys.Calls cfg env (fun _ _ => True) e := wpE_trivial _
  refine System.step_server (I := fun s => s.slots.primary = sys.server.slots.primary) ?_ ?_ htrue
    rfl
  · rintro s (c | c) hs -
    · exact (exec_primary c s).trans hs
    · have hclaim : (execClaim c s).2.slots = s.slots := by cases c <;> rfl
      exact (congrArg JWTKeySlots.primary hclaim).trans hs
  · intro s hs
    cases e with
    | rotate file => exact absurd rfl (he file)
    | _ => exact hs

private theorem System.step_wall_le : sys.server.wall ≤ (sys.step cfg env e).server.wall := by
  have htrue : sys.Calls cfg env (fun _ _ => True) e := wpE_trivial _
  exact System.step_server (I := fun s => sys.server.wall ≤ s.wall)
    (fun s c hs _ => hs.trans (execAny_wall_le c s)) (fun s hs => hs.trans (e.le_outside_wall s))
    htrue le_rfl

/-- What has been streamed after an event. -/
theorem System.step_streamed :
    (sys.step cfg env e).streamed = sys.streamed ++ sys.streamedBy e := rfl

end Events

/-! ## What is delivered -/

/-- What a pick by reference hands out: an envelope, and the claims of its token. -/
structure Parcel where
  envelope : ReferenceEnvelope
  claims : Claims

namespace Parcel

variable (p : Parcel)

def path : String := p.claims.bundlePath.getD ""

def loc (b : Backend) : List String := b.location p.path

def bundle : BundleMeta := p.envelope.bundle

def jti : Id := p.claims.jti.getD 0

/-- When the token is past its time. -/
def deadline : Nat := secondsToMicros (p.claims.exp.getD 0)

/-- A GET on the URL of a file, with the token of the envelope. -/
structure Asks (cfg : Config) (name : String) (req : Download.Request) : Prop where
  url : ∃ f ∈ p.envelope.files, f.name = name ∧
    rstripSlash cfg.publicBaseUrl ++ req.rawPath = f.url
  bearer : req.bearer = some p.envelope.downloadToken

/-- A GET on the URL of a file, with the token of the envelope and the label of the recipient. -/
structure Fetches (cfg : Config) (name : String) (req : Download.Request) : Prop
    extends p.Asks cfg name req where
  sender : req.sender = p.claims.recipient

/-- A GET of the recipient as it comes in: its label has come through where a head can carry it,
and else something other than the label has. -/
structure Arrives (cfg : Config) (name : String) (req : Download.Request) : Prop
    extends p.Asks cfg name req where
  sender : req.sender = p.claims.recipient ↔ ∀ r, p.claims.recipient = some r → fieldValue r = true

/-- GETs of the recipient can be served: the route matches every URL, every type can stand in the
head of an answer, and the label of the recipient in the head of a request, if it matters. -/
structure Servable (cfg : Config) : Prop where
  routed : ∀ n ∈ p.bundle.names, (pathParam (p.path ++ "/" ++ n)).isSome
  typed : ∀ f ∈ p.bundle.files, headValue (Download.contentType f) = true
  addressed : cfg.devMode = true ∨ ∀ r, p.claims.recipient = some r → fieldValue r = true

/-- What is stored under a name. -/
def stored (cfg : Config) (s : Server) (name : String) : Option Bytes :=
  cfg.backend.openBundleFileRead s.disk.tree p.path name

/-- The names that have been streamed to the last byte under the token since a system. -/
def fetched (start sys : System) : List String :=
  ((sys.streamed.drop start.streamed.length).filter (·.jti = p.jti)).map (·.name)

/-- Bundle and claim are there. -/
structure There (cfg : Config) (s : Server) : Prop where
  bundle : cfg.backend.readBundleMeta s.disk.tree p.path = some p.bundle
  sidecar : ∃ c ∈ s.claims.sidecars, c.jti = p.jti ∧ c.bundlePath = p.path
  lock : s.claims.locked p.path = true

/-- The directory of the bundle is gone, and with it sidecar and lock. -/
structure Gone (cfg : Config) (s : Server) : Prop where
  dir : s.disk.tree.get (p.loc cfg.backend) = none
  sidecar : ∀ c ∈ s.claims.sidecars, c.jti ≠ p.jti ∧ c.bundlePath ≠ p.path
  lock : s.claims.locked p.path = false

/-- The bundle has been committed with these files, and none of them has changed since. -/
def Written (cfg : Config) (files : List (String × Bytes)) (s : Server) : Prop :=
  ∃ now before after, cfg.backend.writeWhole now p.path files p.bundle before = .ok after ∧
    ∀ n ∈ p.bundle.names,
      p.stored cfg s n = cfg.backend.openBundleFileRead after.tree p.path n

/-- How a system stands to a delivery that has begun. -/
structure Delivers (cfg : Config) (env : Environment) (files : List (String × Bytes))
    (start sys : System) : Prop where
  /-- As long as the bundle is there every GET is answered, with the bytes of the file. -/
  answers : sys.server.disk.tree.get (p.loc cfg.backend) = some .dir →
    sys.server.reading < p.deadline → ∀ name req, p.Arrives cfg name req →
      ∃ data, (name, data) ∈ files ∧
        Returns (exec cfg env) (Download.getDownload cfg req) (fun st _ => st.name = name ∧
          st.sent = [] ∧ st.unread = data ∧ st.contentLength = data.length) sys.server
  /-- What has gone out of a stream and what is still to come are these bytes. -/
  streams : ∀ o, some o ∈ sys.streams → o.stream.jti = p.jti →
    (o.stream.name, o.stream.sent ++ o.stream.unread) ∈ files
  /-- The claim counts the names that have been streamed to the end, and no others. -/
  counted : ∀ c ∈ sys.server.claims.sidecars, c.jti = p.jti →
    ∀ n, n ∈ c.filesFetched ↔ n ∈ p.fetched start sys
  /-- Bundle and claim are there as long as a name is missing. -/
  kept : (∃ n ∈ p.bundle.names, n ∉ p.fetched start sys) → p.There cfg sys.server
  /-- They are gone once none is. -/
  gone : (∀ n ∈ p.bundle.names, n ∈ p.fetched start sys) → p.Gone cfg sys.server

/-! ## Runs that leave the bundle alone -/

/-- An event that does not touch the bundle, its claim, the keys or the streams under the
token. -/
structure Aside (cfg : Config) (sys sys' : System) : Prop where
  place : ∀ q, p.loc cfg.backend <+: q →
    sys'.server.disk.tree.get q = sys.server.disk.tree.get q
  stored : ∀ n ∈ p.bundle.names, p.stored cfg sys'.server n = p.stored cfg sys.server n
  sidecar : sys'.server.claims.get p.jti = sys.server.claims.get p.jti
  lock : sys'.server.claims.locked p.path = sys.server.claims.locked p.path
  keys : sys'.server.slots.primary = sys.server.slots.primary
  streams : ∀ o, some o ∈ sys'.streams → o.stream.jti = p.jti → some o ∈ sys.streams

/-- A stream under the token goes on, comes to its end or is broken off. -/
def Streams (sys : System) (e : Event) : Prop :=
  ∃ k o, (e = .chunk k ∨ e = .disconnect k) ∧ sys.openStream k = some o ∧ o.stream.jti = p.jti

variable {p} in
/-- A chunk or the breaking off of a stream that is open under the token. -/
theorem streams_of_any {sys : System} {k : Nat} {e : Event}
    (he : e = .chunk k ∨ e = .disconnect k)
    (h : (sys.openStream k).any (·.stream.jti = p.jti) = true) : p.Streams sys e := by
  obtain ⟨o, ho, hj⟩ := (Option.any_eq_true _ _).mp h
  exact ⟨k, o, he, ho, of_decide_eq_true hj⟩

/-- An event of a run in which nothing but GETs of the recipient touches the bundle, no key is
rotated and the clock stays before the deadline. -/
def Undisturbed (cfg : Config) (env : Environment) (sys : System) (e : Event) : Prop :=
  (∃ name req, e = .download req ∧ p.Fetches cfg name req ∧ sys.server.reading < p.deadline) ∨
    p.Streams sys e ∨ p.Aside cfg sys (sys.step cfg env e)

/-- The delivery begins: a pick has handed the parcel out. -/
structure PickedIn (cfg : Config) (env : Environment) (files : List (String × Bytes))
    (sys : System) (r : PickRequest) : Prop where
  answered : (runE (execAny cfg env) (r.handler cfg) sys.server).1 = .ok (.reference p.envelope)
  token : ∃ key, p.envelope.downloadToken = .signed p.claims key
  /-- The path is one below `inbox/` that does not lead up again. -/
  isInbox : startsWith p.path "inbox/" = true
  straight : Step.up ∉ steps p.path
  written : p.Written cfg files sys.server
  addressed : p.claims.recipient ≠ some ""
  /-- No stream under way has the `jti` of a token that is still to come. -/
  used : ∀ o, some o ∈ sys.streams → o.stream.jti < sys.server.nextId
  /-- No key has been rotated, and the clock is before the deadline. -/
  keys : (sys.step cfg env (.pick r)).server.slots.primary = cfg.jwtPrimaryKey
  timely : (sys.step cfg env (.pick r)).server.reading < p.deadline

/-! ## The start -/

/-- What is known once a parcel has been handed out. -/
structure Begun (cfg : Config) (files : List (String × Bytes)) (start : System) : Prop where
  standing : Standing start.server
  minted : ∃ recipient iat jti, recipient ≠ "" ∧ secondsToMicros iat ≤ start.server.wall ∧
    p.claims = downloadClaims cfg p.path p.bundle recipient iat jti
  envelope : ∃ expiresAt, p.envelope = buildReferenceEnvelopeWithPath cfg p.bundle p.path
    (.signed p.claims cfg.jwtPrimaryKey) expiresAt
  spelled : cfg.backend.resolve p.path = spell (p.loc cfg.backend)
  placed : p.loc cfg.backend ≠ []
  isInbox : startsWith p.path "inbox/" = true
  written : p.Written cfg files start.server
  there : p.There cfg start.server
  claim : ∃ c, start.server.claims.get p.jti = some c ∧ c.bundlePath = p.path ∧
    c.filesFetched = []
  streams : ∀ o, some o ∈ start.streams → o.stream.jti ≠ p.jti
  keys : start.server.slots.primary = cfg.jwtPrimaryKey

variable {p} {files : List (String × Bytes)} {start : System}

/-! What a commit has checked -/

section Written

variable {s : Server}

/-- A bundle that was written has passed the checks of its commit. -/
theorem Written.checked (h : p.Written cfg files s) :
    p.bundle.files ≠ [] ∧ p.bundle.names.Nodup ∧
      (∀ n, n ∈ p.bundle.names ↔ n ∈ files.map Prod.fst) ∧
      ∀ f ∈ p.bundle.files, ∃ data, (f.name, data) ∈ files ∧ (data.length : Int) = f.size := by
  obtain ⟨now, before, after, hwhole, -⟩ := h
  obtain ⟨handle, d₁, d₂, hopen, hwrite, hcommit⟩ := Backend.writeWhole_parts hwhole
  obtain ⟨hcheck, -⟩ := Backend.committed_ok hopen hwrite hcommit
  exact Backend.commitCheck_ok hcheck

/-- The files of a bundle that was written have different names. -/
theorem Written.one_of_name (h : p.Written cfg files s) : (files.map Prod.fst).Nodup := by
  obtain ⟨now, before, after, hwhole, -⟩ := h
  obtain ⟨handle, d₁, d₂, hopen, hwrite, -⟩ := Backend.writeWhole_parts hwhole
  exact Backend.writeAll_nodup (Backend.writer_of_opened hopen) List.nodup_nil hwrite

/-- The files read back exactly if no names meet on disk. -/
theorem Written.apart_iff (h : p.Written cfg files s) :
    (∀ e ∈ files, p.stored cfg s e.1 = some e.2) ↔
      cfg.backend.Apart (p.loc cfg.backend) p.bundle files := by
  have hnames := h.checked.2.2.1
  obtain ⟨now, before, after, hwhole, hkept⟩ := h
  refine Iff.trans ?_ (Backend.read_back_iff hwhole)
  refine forall₂_congr fun e he => ?_
  rw [hkept e.1 ((hnames e.1).mpr (List.mem_map_of_mem he))]

end Written

/-- A path below `inbox/` that does not lead up is spelled out on disk. -/
theorem resolve_spelled {b : Backend} {path : String} (hinbox : startsWith path "inbox/" = true)
    (hup : Step.up ∉ steps path) :
    b.resolve path = spell (b.location path) ∧ b.location path ≠ [] := by
  have hrel : isAbsolute path = false := by
    obtain ⟨rest, hrest⟩ := List.isPrefixOf_iff_prefix.mp hinbox
    simp [isAbsolute, startsWith, ← hrest, List.isPrefixOf]
  have hresolve : b.resolve path = spell (b.dataLoc ++ below path) := by
    rw [Backend.resolve, joinPath, hrel, spell_append, ← b.dataRoot_eq]
    show b.dataRoot ++ steps path = b.dataRoot ++ spell (below path)
    rw [eq_spell_normalize hup]
    rfl
  have hloc : b.location path = b.dataLoc ++ below path := by
    rw [Backend.location, hresolve, normalize_spell]
  refine ⟨hloc ▸ hresolve, ?_⟩
  rw [hloc, Backend.dataLoc]
  simp

/-- A pick by reference begins a course. -/
theorem PickedIn.begun {sys : System} {r : PickRequest}
    (hroot : ∀ k ∈ cfg.backend.root, FileName k) (hs : Standing sys.server)
    (h : p.PickedIn cfg env files sys r) : p.Begun cfg files (sys.step cfg env (.pick r)) := by
  rcases hrun : runE (execAny cfg env) (r.handler cfg) sys.server with ⟨res, s'⟩
  obtain rfl : res = .ok (.reference p.envelope) := by
    rw [← h.answered, hrun]
  obtain ⟨path, -, hpacked⟩ := wpE_ok (PickRequest.ensures_handler r) hrun
  obtain ⟨hspell, hplaced⟩ := @resolve_spelled cfg.backend p.path h.isInbox h.straight
  obtain ⟨m, iat, jti, createdAt, henvelope, hsigned, hread, hiat, hcreated, hissue⟩ :=
    hpacked p.envelope rfl
  obtain ⟨key, htoken⟩ := h.token
  have hclaims : p.claims = downloadClaims cfg path m r.agent iat jti := by
    have hsame := congrArg ReferenceEnvelope.downloadToken henvelope
    rw [htoken] at hsame
    exact (Token.signed.inj hsame).1
  have hbundle : p.bundle = m := congrArg ReferenceEnvelope.bundle henvelope
  obtain rfl : path = p.path := by
    rw [Parcel.path, hclaims]
    rfl
  subst hbundle
  have hprogram : runE (execAny cfg env) ((Event.pick r).program cfg sys) sys.server =
      (.ok (.envelope (.reference p.envelope)), s') := runE_bind_ok hrun
  have hserver : (sys.step cfg env (.pick r)).server = s' := by
    rw [System.step, hprogram]
    rfl
  have hstreams : (sys.step cfg env (.pick r)).streams = sys.streams := by
    rw [System.step, hprogram]
    rfl
  have hstanding : Standing (sys.step cfg env (.pick r)).server := hs.step hroot (.pick r)
  have hkeys := h.keys
  obtain ⟨hdisk, -, m', recipient', iat', jti', hsame, -, hge, hlt, -⟩ := hsigned
  obtain rfl : jti = jti' := Option.some.inj (congrArg Claims.jti hsame)
  rw [hserver] at hstanding hkeys
  have hjti : p.jti = jti := by
    rw [Parcel.jti, hclaims]
    rfl
  have hread' : cfg.backend.readBundleMeta s'.disk.tree p.path = some p.bundle := by
    rw [hdisk]
    exact hread
  rcases ClaimStore.issue_cases ⟨jti, p.path, p.bundle.bundleId, r.agent, createdAt, []⟩
    sys.server.claims with hrefused | ⟨-, hfree, hdone⟩
  · rw [hissue] at hrefused
    cases hrefused
  have hcs : s'.claims = _ := congrArg Prod.snd (hissue.symm.trans hdone)
  have hmem : (⟨jti, p.path, p.bundle.bundleId, r.agent, createdAt, []⟩ : ClaimRecord) ∈
      s'.claims.sidecars := by
    rw [hcs]
    exact List.mem_append_right _ (List.mem_singleton_self _)
  constructor
  · rwa [hserver]
  · refine ⟨r.agent, iat, jti, ?_, ?_, hclaims⟩
    · rintro hempty
      refine h.addressed ?_
      rw [hclaims, ← hempty]
      rfl
    · rw [hserver]
      exact hiat.trans hcreated
  · refine ⟨iat + cfg.limits.downloadClaimTtl, ?_⟩
    rw [hclaims]
    exact henvelope
  · exact hspell
  · exact hplaced
  · exact h.isInbox
  · rw [hserver]
    obtain ⟨now, before, after, hwhole, hkept⟩ := h.written
    refine ⟨now, before, after, hwhole, fun n hn => ?_⟩
    rw [Parcel.stored, hdisk]
    exact hkept n hn
  · rw [hserver]
    exact ⟨hread', ⟨_, hmem, hjti.symm, rfl⟩, hstanding.paired.locked_iff.mpr ⟨_, hmem, rfl⟩⟩
  · rw [hserver, hjti]
    exact ⟨_, (ClaimStore.get_eq_some hstanding.paired.toSound).mpr ⟨hmem, rfl⟩, rfl, rfl⟩
  · intro o ho hj
    rw [hstreams] at ho
    rw [hjti] at hj
    exact absurd (hj ▸ h.used o ho) (not_lt.mpr hge)
  · rw [hserver]
    exact hkeys

/-! ## How a delivery stands -/

/-- What is known of a stream under the token. -/
structure OnTheWay (cfg : Config) (p : Parcel) (start : System) (st : Download.Stream) : Prop where
  path : st.bundlePath = p.path
  isInbox : st.isInbox = true
  listed : st.name ∈ p.bundle.names
  files : st.manifestFiles = p.bundle.files
  content : p.stored cfg start.server st.name = some (st.sent ++ st.unread)

/-- A name is missing: the bundle is as it was, and its claim notes what has been fetched. -/
structure Pending (cfg : Config) (p : Parcel) (start sys : System) : Prop where
  place : ∀ q, p.loc cfg.backend <+: q →
    sys.server.disk.tree.get q = start.server.disk.tree.get q
  stored : ∀ n ∈ p.bundle.names, p.stored cfg sys.server n = p.stored cfg start.server n
  claim : ∃ c, sys.server.claims.get p.jti = some c ∧ c.bundlePath = p.path ∧
    ∀ n, n ∈ c.filesFetched ↔ n ∈ p.fetched start sys
  missing : ∃ n ∈ p.bundle.names, n ∉ p.fetched start sys

/-- No name is missing any more, and everything is gone. -/
structure Done (cfg : Config) (p : Parcel) (start sys : System) : Prop where
  gone : p.Gone cfg sys.server
  fetched : ∀ n ∈ p.bundle.names, n ∈ p.fetched start sys

/-- What holds at any time of a delivery. -/
structure Course (cfg : Config) (p : Parcel) (start sys : System) : Prop where
  standing : Standing sys.server
  keys : sys.server.slots.primary = cfg.jwtPrimaryKey
  wall : start.server.wall ≤ sys.server.wall
  noted : start.streamed.length ≤ sys.streamed.length
  streams : ∀ o, some o ∈ sys.streams → o.stream.jti = p.jti → OnTheWay cfg p start o.stream
  stage : Pending cfg p start sys ∨ Done cfg p start sys

private theorem fetched_start (p : Parcel) (start : System) : p.fetched start start = [] := by
  simp [fetched]

/-- Further notes are further names, if they are under the token. -/
theorem fetched_append {start sys sys' : System} {extra : List Streamed}
    (hlen : start.streamed.length ≤ sys.streamed.length)
    (h : sys'.streamed = sys.streamed ++ extra) :
    p.fetched start sys' =
      p.fetched start sys ++ (extra.filter (·.jti = p.jti)).map (·.name) := by
  rw [fetched, h, List.drop_append_of_le_length hlen, List.filter_append, List.map_append]
  rfl

/-- The manifest of a parcel is read at its location. -/
theorem Begun.readMeta (h : p.Begun cfg files start) (t : DataTree) :
    cfg.backend.readBundleMeta t p.path = cfg.backend.metaAt t (p.loc cfg.backend) :=
  Backend.readBundleMeta_eq h.spelled

/-- A course begins where it begins. -/
theorem Begun.course (h : p.Begun cfg files start) : Course cfg p start start := by
  refine ⟨h.standing, h.keys, le_rfl, le_rfl, fun o ho hj => absurd hj (h.streams o ho), .inl ?_⟩
  obtain ⟨c, hget, hpath, hnone⟩ := h.claim
  refine ⟨fun _ _ => rfl, fun _ _ => rfl, ⟨c, hget, hpath, fun n => ?_⟩, ?_⟩
  · rw [hnone, fetched_start]
  · obtain ⟨f, rest, hfiles⟩ := List.exists_cons_of_ne_nil h.written.checked.1
    refine ⟨f.name, ?_, ?_⟩
    · rw [BundleMeta.names, hfiles]
      exact List.mem_cons_self
    · rw [fetched_start]
      exact List.not_mem_nil

/-- The bundle is where it was as long as a name is missing. -/
theorem Pending.there {start sys : System} (hb : p.Begun cfg files start) (hs : Standing sys.server)
    (h : Pending cfg p start sys) : p.There cfg sys.server := by
  obtain ⟨c, hget, hpath, -⟩ := h.claim
  obtain ⟨hmem, hj⟩ := (ClaimStore.get_eq_some hs.paired.toSound).mp hget
  refine ⟨?_, ⟨c, hmem, hj, hpath⟩, hs.paired.locked_iff.mpr ⟨c, hmem, hpath⟩⟩
  have hfile : sys.server.disk.tree.fileAt (p.loc cfg.backend ++ [bundleManifest]) =
      start.server.disk.tree.fileAt (p.loc cfg.backend ++ [bundleManifest]) := by
    rw [Tree.fileAt, Tree.fileAt, h.place _ (List.prefix_append _ _)]
  rw [hb.readMeta, Backend.metaAt, hfile, ← Backend.metaAt, ← hb.readMeta]
  exact hb.there.bundle

/-! ## A GET -/

/-- The path of a URL, below the public base. -/
theorem Begun.rawPath (hb : p.Begun cfg files start) {name : String}
    {req : Download.Request} (hreq : p.Asks cfg name req) :
    name ∈ p.bundle.names ∧
      req.rawPath = "/download/" ++ Percent.quote p.path ++ "/" ++ Percent.quote name := by
  obtain ⟨expiresAt, henvelope⟩ := hb.envelope
  obtain ⟨f, hf, rfl, hurl⟩ := hreq.url
  have hfiles := congrArg ReferenceEnvelope.files henvelope
  rw [hfiles] at hf
  obtain ⟨g, hg, rfl⟩ := List.mem_map.mp hf
  refine ⟨List.mem_map_of_mem hg, ?_⟩
  have hpath : rstripSlash cfg.publicBaseUrl ++ req.rawPath = rstripSlash cfg.publicBaseUrl ++
      ("/download/" ++ Percent.quote p.path ++ "/" ++ Percent.quote g.name) := by
    rw [hurl, buildDownloadUrl]
    simp only [String.append_assoc]
  exact (String.append_right_inj _).mp hpath

/-- A request for a file carries the token of the parcel. -/
theorem Asks.bearer_eq (hb : p.Begun cfg files start) {name : String}
    {req : Download.Request} (hreq : p.Asks cfg name req) :
    req.bearer = some (.signed p.claims cfg.jwtPrimaryKey) := by
  obtain ⟨expiresAt, henvelope⟩ := hb.envelope
  exact hreq.bearer.trans (congrArg (fun e => some (ReferenceEnvelope.downloadToken e)) henvelope)

/-- The sender of a request is let pass as the recipient of the parcel. -/
def Lets (cfg : Config) (p : Parcel) (req : Download.Request) : Prop :=
  ∃ recipient, p.claims.recipient = some recipient ∧ Download.Passes cfg req.sender recipient

/-- The recipient is let pass, and so is everybody in dev mode. -/
theorem Begun.lets (hb : p.Begun cfg files start) {req : Download.Request}
    (h : cfg.devMode = true ∨ req.sender = p.claims.recipient) : Lets cfg p req := by
  obtain ⟨recipient, iat, jti, hne, -, hclaims⟩ := hb.minted
  have hrecipient : p.claims.recipient = some recipient := by
    rw [hclaims]
    rfl
  refine ⟨recipient, hrecipient, ?_⟩
  unfold Download.Passes Download.resolveIdentityLabel
  by_cases hdev : cfg.devMode = true
  · exact ⟨"*", if_pos hdev, .inl rfl⟩
  · refine ⟨recipient, ?_, .inr rfl⟩
    rw [if_neg hdev, h.resolve_left hdev, hrecipient]
    simp [hne]

/-- A GET with the token, whose sender is let pass, is answered with the file that the manifest
lists, if the file can be read and its type stand in a head. -/
theorem Begun.returns_get_iff (hb : p.Begun cfg files start) {s : Server}
    (hkeys : s.slots.primary = cfg.jwtPrimaryKey) (hwall : start.server.wall ≤ s.wall)
    (htime : s.reading < p.deadline)
    (hread : cfg.backend.readBundleMeta s.disk.tree p.path = some p.bundle)
    {name : String} {req : Download.Request} (hreq : p.Asks cfg name req) (hlets : Lets cfg p req)
    {Q : Download.Stream → Prop} :
    Returns (exec cfg env) (Download.downloadFile cfg req) (fun st _ => Q st) s ↔
      ∃ f ∈ p.bundle.files, f.name = name ∧ headValue (Download.contentType f) = true ∧
        ∃ data, p.stored cfg s name = some data ∧
          Q { jti := p.jti, bundlePath := p.path, bundleId := p.bundle.bundleId, name := name
              manifestFiles := p.bundle.files, isInbox := true, mime := Download.contentType f
              contentLength := f.size, unread := data } := by
  obtain ⟨hname, hraw⟩ := hb.rawPath hreq
  obtain ⟨recipient, iat, jti, hne, hiat, hclaims⟩ := hb.minted
  have htimely : p.claims.Timely s.reading := by
    rw [Parcel.deadline, hclaims] at htime
    have hiat' : reached s.reading iat = true :=
      decide_eq_true (hiat.trans (hwall.trans (Nat.le_add_right _ _)))
    rw [hclaims]
    exact ⟨iat + cfg.limits.downloadClaimTtl, iat, iat, jti, rfl, rfl, rfl, rfl, hiat', hiat',
      decide_eq_false (not_le.mpr htime)⟩
  obtain ⟨recipient', hrecipient, label, hresolve, hadmitted⟩ := hlets
  obtain rfl : recipient = recipient' := by
    rw [hclaims] at hrecipient
    exact Option.some.inj hrecipient
  have hmeta : runE (exec cfg env) (readMetaOr p.path (Download.notFound "bundle_gone"))
      (s.verified cfg env) = (.ok p.bundle, s.verified cfg env) := by
    have hcall := @runE_readBundleMeta_plain cfg env p.path (s.verified cfg env)
    have hdisk : (s.verified cfg env).disk = s.disk := rfl
    rw [readMetaOr, runE_bind_ok hcall, hdisk, hread]
    rfl
  rw [Download.downloadFile, hreq.bearer_eq hb]
  refine (wpE_bind _ _ _).trans ((returns_verifyToken htimely).trans ?_)
  rw [and_iff_right (.inl hkeys.symm), hraw]
  simp only [hclaims, downloadClaims, buildClaims, splitRawPath_quote, ne_eq, not_true_eq_false,
    if_false, hname, hresolve]
  rw [if_neg (by rintro ⟨hstar, hother⟩; exact hadmitted.elim hstar hother)]
  refine (wpE_bind _ _ _).trans ((returns_of_run hmeta).trans ?_)
  cases hfind : p.bundle.files.find? (·.name = name) with
  | none =>
    obtain ⟨f, hf, hfn⟩ := List.mem_map.mp hname
    exact absurd (List.find?_eq_none.mp hfind f hf) (by simp [hfn])
  | some f =>
    have hf := List.mem_of_find?_eq_some hfind
    have hfn : f.name = name := by simpa using List.find?_some hfind
    have honly : ∀ g ∈ p.bundle.files, g.name = name → g = f := fun g hg hgn =>
      List.inj_on_of_nodup_map hb.written.checked.2.1 hg hf (hgn.trans hfn.symm)
    refine (wpE_bind _ _ _).trans (wpE_openBundleFileRead.trans ?_)
    have hstored : cfg.backend.openBundleFileRead (s.verified cfg env).disk.tree p.path name =
        p.stored cfg s name := rfl
    rw [true_and, hstored]
    cases p.stored cfg s name with
    | none => simp
    | some data =>
      have hjti : p.jti = jti := by
        rw [Parcel.jti, hclaims]
        rfl
      dsimp only
      rw [hb.isInbox, Option.getD_some, ← hjti, wpE_bind, wpE_sendHead]
      simp only [List.all_cons, List.all_nil, Bool.and_true, imp_false, not_not, wpE_pure]
      constructor
      · exact fun ⟨hq, htype⟩ => ⟨f, hf, hfn, htype, data, rfl, hq htype⟩
      · rintro ⟨g, hg, hgn, htype, data', hdata, hq⟩
        obtain rfl := honly g hg hgn
        obtain rfl := Option.some.inj hdata
        exact ⟨fun _ => hq, htype⟩

/-- What the route matches of the GETs of a parcel. -/
theorem Begun.returns_getDownload (hb : p.Begun cfg files start) {name : String}
    {req : Download.Request} (hreq : p.Asks cfg name req) {Q : Download.Stream → Server → Prop}
    {s : Server} :
    Returns (exec cfg env) (Download.getDownload cfg req) Q s ↔
      (pathParam (p.path ++ "/" ++ name)).isSome ∧
        Returns (exec cfg env) (Download.downloadFile cfg req) Q s := by
  rw [Download.getDownload, (hb.rawPath hreq).2, takeWhile_download, String.ofList_toList,
    routeParam_download, returns_routed, Option.isSome_iff_exists, exists_and_right]

/-! ## The end of a stream -/

/-- The server once a stream has noted its name in the claim. -/
def noted (p : Parcel) (s : Server) (name : String) : Server :=
  s.setClaims (s.claims.markFetched p.jti name).2

/-- The server once it has removed the bundle and the claim as well. -/
def cleared (cfg : Config) (p : Parcel) (s : Server) (name : String) : Server :=
  let s₁ := (p.noted s name).setDisk (cfg.backend.deleteBundle s.wall p.path s.disk).2
  s₁.setClaims (s₁.claims.delete p.jti)

section Ending

variable {start : System} {s : Server} {st : Download.Stream}

/-- A stream that ends when the claim is gone does nothing. -/
theorem OnTheWay.runE_finish_gone (h : OnTheWay cfg p start st) (hj : st.jti = p.jti)
    (hget : s.claims.get p.jti = none) : runE (execAny cfg env) st.finish s = (.ok (), s) := by
  have hcall : runE (execAny cfg env) (getClaim p.jti) s = (.ok none, s) := by
    rw [← hget]
    rfl
  rw [Download.Stream.finish, if_pos h.isInbox, hj, Download.postStreamClaimAccounting,
    runE_bind_ok hcall]
  rfl

/-- A stream that ends notes its name, and clears up if none is missing. -/
theorem OnTheWay.runE_finish (hb : p.Begun cfg files start) (h : OnTheWay cfg p start st)
    (hj : st.jti = p.jti) {c : ClaimRecord} (hget : s.claims.get p.jti = some c) :
    runE (execAny cfg env) st.finish s =
      (.ok (), if ∀ n ∈ p.bundle.names, n ∈ (c.fetch st.name).filesFetched then
        p.cleared cfg s st.name else p.noted s st.name) := by
  have hcall : runE (execAny cfg env) (getClaim p.jti) s = (.ok (some c), s) := by
    rw [← hget]
    rfl
  have hmark : runE (execAny cfg env) (markFetched p.jti st.name) s =
      (.ok (.ok (c.fetch st.name)), p.noted s st.name) := by
    rw [← (ClaimStore.markFetched_of_get hget st.name).1]
    rfl
  have hall : (p.bundle.files.all fun f => f.name ∈ (c.fetch st.name).filesFetched) = true ↔
      ∀ n ∈ p.bundle.names, n ∈ (c.fetch st.name).filesFetched := by
    simp [BundleMeta.names]
  rw [Download.Stream.finish, if_pos h.isInbox, hj, Download.postStreamClaimAccounting,
    runE_bind_ok hcall]
  dsimp only
  rw [runE_bind_ok hmark, h.path, h.files]
  dsimp only
  by_cases hcomplete : ∀ n ∈ p.bundle.names, n ∈ (c.fetch st.name).filesFetched
  · have hdelete := (@runE_execAny_plain cfg _ env (deleteQuiet p.path) (p.noted s st.name)).trans
      (runE_deleteQuiet_spelled hb.spelled hb.placed _)
    rw [if_pos (hall.mpr hcomplete), if_pos hcomplete, runE_bind_ok hdelete]
    rfl
  · rw [if_neg fun ha => hcomplete (hall.mp ha), if_neg hcomplete]
    rfl

/-- Clearing up leaves nothing of bundle and claim. -/
theorem gone_cleared (hb : p.Begun cfg files start) (ht : p.There cfg s) (hs : Standing s)
    {c : ClaimRecord} (hget : s.claims.get p.jti = some c) (hpath : c.bundlePath = p.path)
    {name : String} (hs' : Standing (p.cleared cfg s name)) :
    p.Gone cfg (p.cleared cfg s name) := by
  have hmarked := hs.paired.toSound.markFetched p.jti name
  have hours := (ClaimStore.markFetched_of_get hget name).2
  have hsidecar : ∀ d ∈ (p.cleared cfg s name).claims.sidecars,
      d.jti ≠ p.jti ∧ d.bundlePath ≠ p.path := by
    intro d hd
    obtain ⟨hmem, hne⟩ := ClaimStore.mem_delete.mp hd
    refine ⟨hne, fun hsame => hne ?_⟩
    have heq := List.inj_on_of_nodup_map hmarked.paths hmem hours
      (hsame.trans ((ClaimRecord.fetch_bundlePath c name).trans hpath).symm)
    rw [heq, ClaimRecord.fetch_jti]
    exact ((ClaimStore.get_eq_some hs.paired.toSound).mp hget).2
  refine ⟨?_, hsidecar, ?_⟩
  · have hbundle := ht.bundle
    rw [hb.readMeta] at hbundle
    have htree := @Backend.deleteBundle_tree cfg.backend s.disk s.wall p.path _ hb.spelled hb.placed
    rw [if_pos (Tree.dirAt_iff.mpr (Backend.dir_of_metaAt hbundle))] at htree
    show (cfg.backend.deleteBundle s.wall p.path s.disk).2.tree.get _ = none
    rw [htree, Tree.get_remove _ _ hb.placed, if_pos (List.prefix_refl _)]
  · rw [← Bool.not_eq_true, hs'.paired.locked_iff]
    rintro ⟨d, hd, hsame⟩
    exact (hsidecar d hd).2 hsame

end Ending

/-! ## One event -/

section Step

variable {start sys : System} {e : Event}

/-- An event that leaves bundle and claim as they are, and ends no stream under the token. -/
theorem Course.carry (hroot : ∀ k ∈ cfg.backend.root, FileName k) (h : Course cfg p start sys)
    (hplace : ∀ q, p.loc cfg.backend <+: q →
      (sys.step cfg env e).server.disk.tree.get q = sys.server.disk.tree.get q)
    (hstored : ∀ n ∈ p.bundle.names,
      p.stored cfg (sys.step cfg env e).server n = p.stored cfg sys.server n)
    (hget : (sys.step cfg env e).server.claims.get p.jti = sys.server.claims.get p.jti)
    (hlock : (sys.step cfg env e).server.claims.locked p.path = sys.server.claims.locked p.path)
    (hkeys : (sys.step cfg env e).server.slots.primary = sys.server.slots.primary)
    (hnotes : (sys.streamedBy e).filter (·.jti = p.jti) = [])
    (hstreams : ∀ o, some o ∈ (sys.step cfg env e).streams → o.stream.jti = p.jti →
      OnTheWay cfg p start o.stream) : Course cfg p start (sys.step cfg env e) := by
  have hfetched : p.fetched start (sys.step cfg env e) = p.fetched start sys := by
    rw [fetched_append h.noted System.step_streamed, hnotes]
    simp
  have hstanding := @Standing.step cfg env sys hroot h.standing e
  refine ⟨hstanding, hkeys.trans h.keys, h.wall.trans System.step_wall_le, ?_, hstreams, ?_⟩
  · rw [System.step_streamed, List.length_append]
    exact h.noted.trans (Nat.le_add_right _ _)
  rcases h.stage with hpending | hdone
  · left
    obtain ⟨c, hc, hpath, hnames⟩ := hpending.claim
    refine ⟨fun q hq => (hplace q hq).trans (hpending.place q hq),
      fun n hn => (hstored n hn).trans (hpending.stored n hn),
      ⟨c, hget.trans hc, hpath, ?_⟩, ?_⟩
    · rwa [hfetched]
    · rw [hfetched]
      exact hpending.missing
  · right
    have hunlocked := hlock.trans hdone.gone.lock
    refine ⟨⟨(hplace _ (List.prefix_refl _)).trans hdone.gone.dir, fun c hc => ⟨?_, ?_⟩,
      hunlocked⟩, ?_⟩
    · intro hj
      have hsome := (ClaimStore.get_eq_some hstanding.paired.toSound).mpr ⟨hc, hj⟩
      rw [hget] at hsome
      obtain ⟨hmem, hj'⟩ := (ClaimStore.get_eq_some h.standing.paired.toSound).mp hsome
      exact (hdone.gone.sidecar c hmem).1 hj'
    · intro hpath
      have hlocked := hstanding.paired.locked_iff.mpr ⟨c, hc, hpath⟩
      rw [hunlocked] at hlocked
      cases hlocked
    · rw [hfetched]
      exact hdone.fetched

/-- A stream that a GET opens is one of what was stored. -/
theorem Course.onTheWay (hb : p.Begun cfg files start) (h : Course cfg p start sys) {name : String}
    {req : Download.Request} (hreq : p.Fetches cfg name req) {st : Download.Stream} {s' : Server}
    (hrun : runE (exec cfg env) (Download.downloadFile cfg req) sys.server = (.ok st, s')) :
    OnTheWay cfg p start st := by
  obtain ⟨-, claims, m, hserved⟩ := wpE_ok (Download.ensures_downloadFile req) hrun
  obtain ⟨key, hbearer, -⟩ := hserved.bearer
  obtain ⟨recipient, iat, jti, -, -, hclaims⟩ := hb.minted
  obtain rfl : p.claims = claims := by
    rw [hreq.bearer_eq hb] at hbearer
    exact (Token.signed.inj (Option.some.inj hbearer)).1
  have hpath : st.bundlePath = p.path := by
    have hpath := hserved.path
    rw [hclaims] at hpath
    exact (Option.some.inj hpath).symm
  have hmanifest := hserved.manifest
  rw [hpath] at hmanifest
  rcases h.stage with hpending | hdone
  · obtain rfl := Option.some.inj ((hpending.there hb h.standing).bundle.symm.trans hmanifest)
    refine ⟨hpath, ?_, hserved.listed, hserved.files, ?_⟩
    · rw [hserved.isInbox, hpath]
      exact hb.isInbox
    · rw [← hpending.stored _ hserved.listed, hserved.unsent, List.nil_append, Parcel.stored,
        ← hpath]
      exact hserved.content
  · rw [hb.readMeta] at hmanifest
    have hdir := Backend.dir_of_metaAt hmanifest
    rw [hdone.gone.dir] at hdir
    cases hdir

/-- A GET opens a stream of what is stored, or none. -/
theorem Course.download (hroot : ∀ k ∈ cfg.backend.root, FileName k) (hb : p.Begun cfg files start)
    (h : Course cfg p start sys) {name : String} {req : Download.Request}
    (hreq : p.Fetches cfg name req) : Course cfg p start (sys.step cfg env (.download req)) := by
  have hlooks : sys.Calls cfg env (fun _ c => c.Looks) (.download req) := by
    simp only [System.Calls, Event.program, wpE_bind, wpE_plain, wpE_pure]
    exact (Download.looks_downloadFile req).wpE _
  have hsame : (sys.step cfg env (.download req)).server.disk = sys.server.disk ∧
      (sys.step cfg env (.download req)).server.claims = sys.server.claims := by
    refine System.step_server
      (I := fun s => s.disk = sys.server.disk ∧ s.claims = sys.server.claims) ?_ ?_ hlooks
      ⟨rfl, rfl⟩
    · intro s c hs hc
      obtain ⟨hdisk, hclaims⟩ := @execAny_of_looks cfg env c hc s
      exact ⟨hdisk.trans hs.1, hclaims.trans hs.2⟩
    · exact fun s hs => hs
  apply h.carry hroot
  · exact fun q _ => by rw [hsame.1]
  · exact fun n _ => by rw [Parcel.stored, Parcel.stored, hsame.1]
  · rw [hsame.2]
  · rw [hsame.2]
  · exact System.step_primary (by rintro _ ⟨⟩)
  · rfl
  · intro o ho hj
    rcases hrun : runE (exec cfg env) (Download.downloadFile cfg req) sys.server with ⟨e | st, s'⟩
    · have hprogram : runE (execAny cfg env) ((Event.download req).program cfg sys) sys.server =
          (.error e, s') := by
        rw [Event.program, runE_bind, runE_execAny_plain, hrun]
      rw [System.step, hprogram] at ho
      exact h.streams o ho hj
    · have hprogram : runE (execAny cfg env) ((Event.download req).program cfg sys) sys.server =
          (.ok (.stream st), s') := by
        rw [Event.program, runE_bind, runE_execAny_plain, hrun]
        rfl
      rw [System.step, hprogram] at ho
      rcases List.mem_append.mp ho with hold | hnew
      · exact h.streams o hold hj
      · obtain rfl := Option.some.inj (List.mem_singleton.mp hnew)
        exact h.onTheWay hb hreq hrun

section Streaming

variable {k : Nat} {o : OpenStream} (ho : sys.openStream k = some o) (hj : o.stream.jti = p.jti)
include ho

/-- A stream of the token is on the way. -/
theorem Course.stream (h : Course cfg p start sys) (hj : o.stream.jti = p.jti) :
    OnTheWay cfg p start o.stream :=
  h.streams o (List.mem_of_getElem? (Option.join_eq_some_iff.mp ho)) hj

include hj

/-- What is noted once a stream under the token has come to its end. -/
theorem Course.fetched_end (h : Course cfg p start sys) (hend : o.stream.unread = []) :
    p.fetched start (sys.step cfg env (.chunk k)) = p.fetched start sys ++ [o.stream.name] := by
  have hnote : sys.streamedBy (.chunk k) = [⟨o.stream.jti, o.stream.name, o.found⟩] := by
    simp [System.streamedBy, ho, hend]
  rw [fetched_append h.noted System.step_streamed, hnote]
  simp [hj]

/-- A stream under the token comes to its end. -/
theorem Course.ended (hroot : ∀ k ∈ cfg.backend.root, FileName k) (hb : p.Begun cfg files start)
    (h : Course cfg p start sys) (hend : o.stream.unread = []) :
    Course cfg p start (sys.step cfg env (.chunk k)) := by
  have hot := h.stream ho hj
  have hfetched := @Course.fetched_end cfg env p start sys k o ho hj h hend
  have hstanding := @Standing.step cfg env sys hroot h.standing (.chunk k)
  have hserver : ∀ s', runE (execAny cfg env) o.stream.finish sys.server = (.ok (), s') →
      (sys.step cfg env (.chunk k)).server = s' := by
    intro s' hrun
    have hprogram : runE (execAny cfg env) ((Event.chunk k).program cfg sys) sys.server =
        (.ok .done, s') := by
      simp only [Event.program, ho, hend, if_true]
      exact runE_bind_ok hrun
    rw [System.step, hprogram]
    rfl
  have hkeys : (sys.step cfg env (.chunk k)).server.slots.primary = sys.server.slots.primary :=
    System.step_primary (by rintro _ ⟨⟩)
  refine ⟨hstanding, hkeys.trans h.keys, h.wall.trans System.step_wall_le, ?_, ?_, ?_⟩
  · rw [System.step_streamed, List.length_append]
    exact h.noted.trans (Nat.le_add_right _ _)
  · intro o' ho' hj'
    have hafter : some o' ∈ sys.streams.set k none := by
      simpa [System.step, System.streamsAfter, ho, hend] using ho'
    rcases List.mem_or_eq_of_mem_set hafter with hold | hnone
    · exact h.streams o' hold hj'
    · cases hnone
  rcases h.stage with hpending | hdone
  · obtain ⟨c, hget, hpath, hnames⟩ := hpending.claim
    have hrun := @OnTheWay.runE_finish cfg env p files start sys.server o.stream hb hot hj c hget
    have hcomplete : (∀ n ∈ p.bundle.names, n ∈ (c.fetch o.stream.name).filesFetched) ↔
        ∀ n ∈ p.bundle.names, n ∈ p.fetched start (sys.step cfg env (.chunk k)) := by
      simp only [ClaimRecord.mem_fetch, hnames, hfetched, List.mem_append, List.mem_singleton]
    by_cases hall : ∀ n ∈ p.bundle.names, n ∈ (c.fetch o.stream.name).filesFetched
    · rw [if_pos hall] at hrun
      right
      refine ⟨?_, hcomplete.mp hall⟩
      rw [hserver _ hrun] at hstanding ⊢
      exact gone_cleared hb (hpending.there hb h.standing) h.standing hget hpath hstanding
    · rw [if_neg hall] at hrun
      left
      rw [hcomplete] at hall
      push Not at hall
      have hs' := hserver _ hrun
      refine ⟨?_, ?_, ?_, hall⟩
      · rw [hs']
        exact hpending.place
      · rw [hs']
        exact hpending.stored
      · refine ⟨c.fetch o.stream.name, ?_, ?_, ?_⟩
        · rw [hs'] at hstanding ⊢
          refine (ClaimStore.get_eq_some hstanding.paired.toSound).mpr ⟨?_, ?_⟩
          · exact (ClaimStore.markFetched_of_get hget o.stream.name).2
          · rw [ClaimRecord.fetch_jti]
            exact ((ClaimStore.get_eq_some h.standing.paired.toSound).mp hget).2
        · rw [ClaimRecord.fetch_bundlePath, hpath]
        · intro n
          rw [ClaimRecord.mem_fetch, hnames, hfetched, List.mem_append, List.mem_singleton]
  · right
    have hnone : sys.server.claims.get p.jti = none := by
      refine Option.eq_none_iff_forall_ne_some.mpr fun c hc => ?_
      obtain ⟨hmem, hcj⟩ := (ClaimStore.get_eq_some h.standing.paired.toSound).mp hc
      exact (hdone.gone.sidecar c hmem).1 hcj
    refine ⟨?_, fun n hn => ?_⟩
    · rw [hserver _ (hot.runE_finish_gone hj hnone)]
      exact hdone.gone
    · rw [hfetched]
      exact List.mem_append_left _ (hdone.fetched n hn)

/-- A stream under the token goes on, comes to its end or is broken off. -/
theorem Course.streaming (hroot : ∀ k ∈ cfg.backend.root, FileName k) (hb : p.Begun cfg files start)
    (h : Course cfg p start sys) (he : e = .chunk k ∨ e = .disconnect k) :
    Course cfg p start (sys.step cfg env e) := by
  have hcarry : ∀ e', (sys.step cfg env e').server = sys.server → sys.streamedBy e' = [] →
      (∀ o', some o' ∈ (sys.step cfg env e').streams → o'.stream.jti = p.jti →
        OnTheWay cfg p start o'.stream) → Course cfg p start (sys.step cfg env e') := by
    intro e' hserver hnotes hstreams
    apply h.carry hroot
    · exact fun q _ => by rw [hserver]
    · exact fun n _ => by rw [hserver]
    · rw [hserver]
    · rw [hserver]
    · rw [hserver]
    · rw [hnotes]
      rfl
    · exact hstreams
  rcases he with rfl | rfl
  · by_cases hend : o.stream.unread = []
    · exact h.ended ho hj hroot hb hend
    · have hprogram : runE (execAny cfg env) ((Event.chunk k).program cfg sys) sys.server =
          (.ok .done, sys.server) := by
        simp only [Event.program, ho, hend, if_false]
        rfl
      refine hcarry _ ?_ ?_ fun o' ho' hj' => ?_
      · rw [System.step, hprogram]
        rfl
      · simp [System.streamedBy, ho, hend]
      · have hafter : some o' ∈ sys.streams.set k (some { o with stream := o.stream.advance }) := by
          simpa [System.step, System.streamsAfter, ho, hend] using ho'
        rcases List.mem_or_eq_of_mem_set hafter with hold | hnew
        · exact h.streams o' hold hj'
        · obtain rfl := Option.some.inj hnew
          have hot := h.stream ho hj
          refine ⟨hot.path, hot.isInbox, hot.listed, hot.files, ?_⟩
          rw [Download.Stream.advance_content]
          exact hot.content
  · refine hcarry _ rfl rfl fun o' ho' hj' => ?_
    rcases List.mem_or_eq_of_mem_set ho' with hold | hnone
    · exact h.streams o' hold hj'
    · cases hnone

end Streaming

/-- Every event of an undisturbed run keeps to the course of the delivery. -/
theorem Course.step (hroot : ∀ k ∈ cfg.backend.root, FileName k) (hb : p.Begun cfg files start)
    (h : Course cfg p start sys) (hg : p.Undisturbed cfg env sys e) :
    Course cfg p start (sys.step cfg env e) := by
  by_cases hstream : p.Streams sys e
  · obtain ⟨k, o, he, ho, hj⟩ := hstream
    exact h.streaming ho hj hroot hb he
  rcases hg with ⟨name, req, rfl, hreq, -⟩ | hstream' | haside
  · exact h.download hroot hb hreq
  · exact absurd hstream' hstream
  · refine h.carry hroot haside.place haside.stored haside.sidecar haside.lock haside.keys ?_
      fun o ho hj => h.streams o (haside.streams o ho hj) hj
    rw [List.filter_eq_nil_iff]
    intro x hx
    simp only [decide_eq_true_eq]
    intro hj
    cases e with
    | chunk k =>
      simp only [System.streamedBy] at hx
      split at hx
      · cases hx
      · rename_i o ho
        split at hx
        · obtain rfl := List.mem_singleton.mp hx
          exact hstream ⟨k, o, .inl rfl, ho, hj⟩
        · cases hx
    | _ => cases hx

end Step

/-! ## Whole runs -/

section Run

variable {start : System}

/-- Wherever a delivery stands, it delivers, if the files read back and can be served. -/
theorem Course.delivers {sys : System} (hb : p.Begun cfg files start) (h : Course cfg p start sys)
    (hback : ∀ e ∈ files, p.stored cfg start.server e.1 = some e.2) (hserve : p.Servable cfg) :
    p.Delivers cfg env files start sys := by
  obtain ⟨-, -, hnames, hsizes⟩ := hb.written.checked
  refine ⟨?_, fun o ho hj => ?_, fun c hc hcj n => ?_, ?_, fun hall => ?_⟩
  · intro hdir htime name req hreq
    have hpending : Pending cfg p start sys := by
      rcases h.stage with hpending | hdone
      · exact hpending
      · rw [hdone.gone.dir] at hdir
        cases hdir
    obtain ⟨hname, -⟩ := hb.rawPath hreq.toAsks
    obtain ⟨f, hf, hfn⟩ := List.mem_map.mp hname
    obtain ⟨data, hmem, hlen⟩ := hsizes f hf
    rw [hfn] at hmem
    refine ⟨data, hmem, ?_⟩
    have hlets := hb.lets (hserve.addressed.imp_right hreq.sender.mpr)
    rw [hb.returns_getDownload hreq.toAsks, and_iff_right (hserve.routed name hname)]
    refine (hb.returns_get_iff h.keys h.wall htime (hpending.there hb h.standing).bundle
      hreq.toAsks hlets).mpr ⟨f, hf, hfn, hserve.typed f hf, data, ?_, rfl, rfl, rfl, hlen.symm⟩
    rw [hpending.stored name hname]
    exact hback (name, data) hmem
  · have hot := h.streams o ho hj
    obtain ⟨⟨name, data⟩, hmem, hname⟩ := List.mem_map.mp ((hnames _).mp hot.listed)
    have hcontent := hot.content
    rw [← hname, hback (name, data) hmem] at hcontent
    rw [← Option.some.inj hcontent, ← hname]
    exact hmem
  · rcases h.stage with hpending | hdone
    · obtain ⟨c', hget, -, hnoted⟩ := hpending.claim
      have hsame := (ClaimStore.get_eq_some h.standing.paired.toSound).mpr ⟨hc, hcj⟩
      rw [hget] at hsame
      obtain rfl := Option.some.inj hsame
      exact hnoted n
    · exact absurd hcj (hdone.gone.sidecar c hc).1
  · rintro ⟨n, hn, hmissing⟩
    rcases h.stage with hpending | hdone
    · exact hpending.there hb h.standing
    · exact absurd (hdone.fetched n hn) hmissing
  · rcases h.stage with hpending | hdone
    · obtain ⟨n, hn, hmissing⟩ := hpending.missing
      exact absurd (hall n hn) hmissing
    · exact hdone.gone

/-- The URL of a file, as a GET sends it. -/
def request (p : Parcel) (name : String) : Download.Request where
  bearer := some p.envelope.downloadToken
  sender := p.claims.recipient
  rawPath := "/download/" ++ Percent.quote p.path ++ "/" ++ Percent.quote name

/-- A request for a file of the parcel is one. -/
theorem Begun.fetches (hb : p.Begun cfg files start) {f : FileRecord}
    (hf : f ∈ p.bundle.files) : p.Fetches cfg f.name (p.request f.name) := by
  obtain ⟨expiresAt, henvelope⟩ := hb.envelope
  have hfiles := congrArg ReferenceEnvelope.files henvelope
  refine ⟨⟨?_, rfl⟩, rfl⟩
  rw [hfiles]
  refine ⟨_, List.mem_map_of_mem hf, rfl, ?_⟩
  rw [request, buildDownloadUrl]
  simp only [String.append_assoc]

/-- The same request as it arrives, without the label if no head can carry it. -/
def arriving (p : Parcel) (name : String) : Download.Request :=
  { p.request name with sender := p.claims.recipient.filter fieldValue }

/-- What is sent for a file of the parcel arrives. -/
theorem Begun.arrives (hb : p.Begun cfg files start) {f : FileRecord}
    (hf : f ∈ p.bundle.files) : p.Arrives cfg f.name (p.arriving f.name) := by
  have hasks := (hb.fetches hf).toAsks
  refine ⟨⟨hasks.url, hasks.bearer⟩, ?_⟩
  show p.claims.recipient.filter fieldValue = p.claims.recipient ↔ _
  cases p.claims.recipient with
  | none => simp
  | some r => simp [Option.filter]

/-- What an answered GET says of its file and its sender. -/
structure Answered (cfg : Config) (p : Parcel) (files : List (String × Bytes)) (start : System)
    (f : FileRecord) : Prop where
  routed : (pathParam (p.path ++ "/" ++ f.name)).isSome
  typed : headValue (Download.contentType f) = true
  lets : Lets cfg p (p.arriving f.name)
  stored : ∃ data, (f.name, data) ∈ files ∧ p.stored cfg start.server f.name = some data

/-- A request whose sender is not let pass is not answered. -/
theorem Begun.lets_of_returns (hb : p.Begun cfg files start) {s : Server} {name : String}
    {req : Download.Request} (hreq : p.Asks cfg name req) {Q : Download.Stream → Server → Prop}
    (h : Returns (exec cfg env) (Download.downloadFile cfg req) Q s) : Lets cfg p req := by
  obtain ⟨st, s', hrun, -⟩ := returns_iff_run.mp h
  obtain ⟨claims, path, nm, m, hadm, -, ⟨recipient, hrec, hpass⟩, -⟩ :=
    Download.streams_iff.mp ⟨st, s', hrun⟩
  obtain ⟨key, hbearer, -⟩ := hadm.signed
  rw [hreq.bearer_eq hb] at hbearer
  obtain ⟨rfl, -⟩ := Token.signed.inj (Option.some.inj hbearer)
  exact ⟨recipient, hrec, hpass⟩

/-- If all GETs at the start are answered in full, each of them has been let through. -/
theorem Begun.answered (hb : p.Begun cfg files start)
    (htime : start.server.reading < p.deadline) (h : p.Delivers cfg env files start start)
    {f : FileRecord} (hf : f ∈ p.bundle.files) : Answered cfg p files start f := by
  have hbundle := hb.there.bundle
  rw [hb.readMeta] at hbundle
  have harrives := hb.arrives hf
  obtain ⟨data, hmem, hreturns⟩ :=
    h.answers (Backend.dir_of_metaAt hbundle) htime f.name _ harrives
  obtain ⟨hrouted, hreturns⟩ := (hb.returns_getDownload harrives.toAsks).mp hreturns
  have hlets := hb.lets_of_returns harrives.toAsks hreturns
  obtain ⟨g, hg, hgn, htyped, bytes, hstored, -, -, hbytes, -⟩ := (hb.returns_get_iff hb.keys
    le_rfl htime hb.there.bundle harrives.toAsks hlets).mp hreturns
  obtain rfl := List.inj_on_of_nodup_map hb.written.checked.2.1 hg hf hgn
  exact ⟨hrouted, htyped, hlets, data, hmem, hbytes ▸ hstored⟩

/-- Then the files read back and can be served. -/
theorem Begun.reads_back (hb : p.Begun cfg files start)
    (htime : start.server.reading < p.deadline) (h : p.Delivers cfg env files start start) :
    (∀ e ∈ files, p.stored cfg start.server e.1 = some e.2) ∧ p.Servable cfg := by
  have hanswered : ∀ f ∈ p.bundle.files, Answered cfg p files start f :=
    fun f hf => hb.answered htime h hf
  refine ⟨?_, fun n hn => ?_, fun f hf => (hanswered f hf).typed, ?_⟩
  · rintro ⟨name, data⟩ he
    obtain ⟨f, hf, rfl⟩ := List.mem_map.mp
      ((hb.written.checked.2.2.1 name).mpr (List.mem_map_of_mem he))
    obtain ⟨data', hmem, hstored⟩ := (hanswered f hf).stored
    have honce := List.inj_on_of_nodup_map hb.written.one_of_name he hmem rfl
    rw [hstored, (Prod.mk.inj honce).2]
  · obtain ⟨f, hf, rfl⟩ := List.mem_map.mp hn
    exact (hanswered f hf).routed
  · obtain ⟨f, rest, hfiles⟩ := List.exists_cons_of_ne_nil hb.written.checked.1
    obtain ⟨recipient, hrec, label, hlabel, -⟩ :=
      (hanswered f (hfiles ▸ List.mem_cons_self)).lets
    refine (Bool.eq_false_or_eq_true cfg.devMode).imp_right fun hdev r hr => ?_
    rw [Download.resolveIdentityLabel, hdev] at hlabel
    have hsender := (Option.filter_eq_some_iff.mp hlabel).1
    obtain ⟨hlabelled, hfield⟩ := Option.filter_eq_some_iff.mp hsender
    rw [hr] at hlabelled
    exact Option.some.inj hlabelled ▸ hfield

end Run

end Parcel

/-- After any pick by reference of a committed bundle: in every run in which nothing but GETs with
the token touches it, each GET brings the bytes of its file, bundle and claim stay as long as a
name is missing, and are gone once none is; exactly when no names of the bundle meet on disk and
the recipient's GETs can be served. -/
theorem reference_delivery_iff (hroot : ∀ k ∈ cfg.backend.root, FileName k) (p : Parcel)
    (files : List (String × Bytes)) (sys : System) (hs : Standing sys.server) (r : PickRequest)
    (hpick : p.PickedIn cfg env files sys r) :
    (∀ events, Runs.Guarded (System.step cfg env) (p.Undisturbed cfg env)
        (sys.step cfg env (.pick r)) events →
      p.Delivers cfg env files (sys.step cfg env (.pick r))
        ((sys.step cfg env (.pick r)).run cfg env events)) ↔
      cfg.backend.Apart (p.loc cfg.backend) p.bundle files ∧ p.Servable cfg := by
  have hb := hpick.begun hroot hs
  rw [← hb.written.apart_iff]
  constructor
  · intro h
    exact hb.reads_back hpick.timely (h [] trivial)
  · rintro ⟨hback, hserve⟩ events hg
    have hcourse := hg.invariant (fun _ _ h hu => h.step hroot hb hu) hb.course
    exact hcourse.delivers hb hback hserve

/-! ## On a small server -/

deriving instance DecidableEq for Envelope

/-- The server after `alice` has broadcast one byte at a path. -/
def broadcastSystem (path : String) : System :=
  srvSystem.run srvConfig .core [.plain (.broadcast alice path (.raw [1]))]

/-- What `bob` gets when he picks it. -/
def firstParcel (path : String) : Parcel :=
  let bundle : BundleMeta := ⟨1, 0, some "alice:a", 5000000, "application/octet-stream", 1,
    [⟨path, 1, "application/octet-stream"⟩]⟩
  let claims : Claims :=
    { buildClaims (inboxPath "bob:b" path) bundle "bob:b" 300 5 with jti := some 1 }
  ⟨buildReferenceEnvelopeWithPath srvConfig bundle (inboxPath "bob:b" path)
    (.signed claims srvConfig.jwtPrimaryKey) 305, claims⟩

/-- The pick, and the system it leaves. -/
def pickedUp (path : String) : System :=
  (broadcastSystem path).step srvConfig .core (.pick (.rest bob "bob:b" path))

/-- What has been stored of the broadcast is what a write of the one file leaves. -/
theorem written_first {path : String}
    (h : (srvBackend.writeWhole 0 (inboxPath "bob:b" path) [(path, [1])] (firstParcel path).bundle
      (Disk.init srvTree)).toOption.any (fun after => (firstParcel path).bundle.names.all fun n =>
        (firstParcel path).stored srvConfig (broadcastSystem path).server n =
          srvBackend.openBundleFileRead after.tree (inboxPath "bob:b" path) n) = true) :
    (firstParcel path).Written srvConfig [(path, [1])] (broadcastSystem path).server := by
  obtain ⟨after, hafter, hsame⟩ := exists_ok_of_any h
  refine ⟨0, Disk.init srvTree, after, hafter, fun n hn => ?_⟩
  exact of_decide_eq_true (List.all_eq_true.mp hsame n hn)

/-- A small parcel that was picked. -/
theorem picked_small : (firstParcel "p").PickedIn srvConfig .core [("p", [1])]
    (broadcastSystem "p") (.rest bob "bob:b" "p") where
  answered := by decide +kernel
  token := ⟨srvConfig.jwtPrimaryKey, rfl⟩
  isInbox := by decide +kernel
  straight := by decide +kernel
  written := written_first (by decide +kernel)
  addressed := by decide
  used o ho := by
    have hnone : (broadcastSystem "p").streams = [] := by decide +kernel
    rw [hnone] at ho
    cases ho
  keys := by decide +kernel
  timely := by decide +kernel

/-- A small parcel that can be served. -/
theorem servable_small : (firstParcel "p").Servable srvConfig where
  routed := by decide +kernel
  typed := by decide +kernel
  addressed := by
    right
    rintro r hr
    obtain rfl : r = "bob:b" := (Option.some.inj hr).symm
    decide

/-- A server after a broadcast is standing. -/
theorem standing_broadcast (path : String) : Standing (broadcastSystem path).server :=
  @Standing.step srvConfig .core srvSystem (by decide) standing_srvSystem
    (.plain (.broadcast alice path (.raw [1])))

/-- One GET, streamed to its end, and the bundle and its claim are gone. -/
theorem reference_delivery_small :
    (firstParcel "p").Gone srvConfig ((pickedUp "p").run srvConfig .core
      [.download ((firstParcel "p").request "p"), .chunk 0, .chunk 0]).server := by
  have hguard : Runs.Guarded (System.step srvConfig .core)
      ((firstParcel "p").Undisturbed srvConfig .core) (pickedUp "p")
      [.download ((firstParcel "p").request "p"), .chunk 0, .chunk 0] := by
    refine ⟨.inl ⟨"p", _, rfl, ?_, by decide +kernel⟩,
      .inr (.inl (Parcel.streams_of_any (.inl rfl) (by decide +kernel))),
      .inr (.inl (Parcel.streams_of_any (.inl rfl) (by decide +kernel))), trivial⟩
    exact (picked_small.begun (by decide) (standing_broadcast "p")).fetches
      (List.mem_singleton_self _)
  have hdelivers := (reference_delivery_iff (by decide) (firstParcel "p") [("p", [1])]
    (broadcastSystem "p") (standing_broadcast "p") _ picked_small).mpr
      ⟨⟨by decide +kernel, by decide +kernel, by decide +kernel⟩, servable_small⟩ _ hguard
  exact hdelivers.gone (by decide +kernel)

/-- The file at the name of the temporary manifest has gone with the commit: no GET is answered. -/
theorem reference_delivery_lost :
    (firstParcel ".meta.json.tmp").PickedIn srvConfig .core [(".meta.json.tmp", [1])]
        (broadcastSystem ".meta.json.tmp") (.rest bob "bob:b" ".meta.json.tmp") ∧
      ¬∀ events, Runs.Guarded (System.step srvConfig .core)
          ((firstParcel ".meta.json.tmp").Undisturbed srvConfig .core)
          (pickedUp ".meta.json.tmp") events →
        (firstParcel ".meta.json.tmp").Delivers srvConfig .core [(".meta.json.tmp", [1])]
          (pickedUp ".meta.json.tmp")
          ((pickedUp ".meta.json.tmp").run srvConfig .core events) := by
  have hpick : (firstParcel ".meta.json.tmp").PickedIn srvConfig .core [(".meta.json.tmp", [1])]
      (broadcastSystem ".meta.json.tmp") (.rest bob "bob:b" ".meta.json.tmp") := by
    refine ⟨by decide +kernel, ⟨srvConfig.jwtPrimaryKey, rfl⟩, by decide +kernel,
      by decide +kernel, written_first (by decide +kernel), by decide, fun o ho => ?_,
      by decide +kernel, by decide +kernel⟩
    have hnone : (broadcastSystem ".meta.json.tmp").streams = [] := by decide +kernel
    rw [hnone] at ho
    cases ho
  refine ⟨hpick, fun h => ?_⟩
  have hb := hpick.begun (by decide) (standing_broadcast _)
  obtain ⟨data, -, hreturns⟩ := (h [] trivial).answers (by decide +kernel) hpick.timely _ _
    (hb.arrives (List.mem_singleton_self _))
  have hrefused : ¬Returns (exec srvConfig .core) (Download.getDownload srvConfig
      ((firstParcel ".meta.json.tmp").arriving ".meta.json.tmp")) (fun _ _ => True)
      (pickedUp ".meta.json.tmp").server := by decide +kernel
  exact hrefused (wpE_mono (fun _ _ _ => trivial) (fun _ _ he => he) hreturns)

end Cassetta
