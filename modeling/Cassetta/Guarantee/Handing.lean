import Cassetta.Guarantee.ListPick
import Cassetta.Server.Quiet
import Cassetta.Server.StoreWrite

/-!
# Paths that are handed to the storage

A handler asks the access policy about a resource, and hands paths to the storage. A call is
covered when every path in it leads strictly inside the resource that was asked about last. The
parts that the surfaces share ask nothing, so they are covered wherever their paths keep to one
resource.
-/

namespace Cassetta

open Prog FileTree

variable {cfg : Config} {env : Environment} {α β : Type}

/-! ## Resources -/

/-- The directory a resource lies in. -/
def Backend.rootOf (b : Backend) : Resource → List String
  | .files _ => b.storeLoc
  | .inbox agent => b.inboxLoc agent

/-- A bundle path leads strictly inside. -/
def Backend.Covers (b : Backend) (resource : Resource) (path : String) : Prop :=
  StrictlyInside (b.rootOf resource) (b.location path)

/-- A prefix to list leads there or inside. -/
def Backend.Spans (b : Backend) (resource : Resource) (pre : String) : Prop :=
  b.rootOf resource <+: b.location pre

instance (b : Backend) (resource : Resource) (path : String) : Decidable (b.Covers resource path) :=
  inferInstanceAs (Decidable (StrictlyInside _ _))

instance (b : Backend) (resource : Resource) (pre : String) : Decidable (b.Spans resource pre) :=
  inferInstanceAs (Decidable (_ <+: _))

/-! ## Calls -/

/-- The paths and the prefixes that a call hands over are of a kind. -/
def Call.Hands (P L : String → Prop) : Call → Prop
  | .openBundleWrite path | .readBundleMeta path | .openBundleFileRead path _ |
    .deleteBundle path => P path
  | .listBundles pre _ => L pre
  | _ => True

instance (P L : String → Prop) [DecidablePred P] [DecidablePred L] :
    ∀ c : Call, Decidable (c.Hands P L)
  | .openBundleWrite path | .readBundleMeta path | .openBundleFileRead path _ |
    .deleteBundle path => inferInstanceAs (Decidable (P path))
  | .listBundles pre _ => inferInstanceAs (Decidable (L pre))
  | .now | .newId | .check .. | .visibleAgents .. | .resolve .. | .listKeys | .checkRateLimit |
    .increment _ | .verifyKeys | .writeFile .. | .commit .. | .abort _ => .isTrue trivial

/-- The claim store is handed no path of the storage. -/
def AnyCall.Hands (P L : String → Prop) : AnyCall → Prop
  | .plain c => c.Hands P L
  | .claim _ => True

instance (P L : String → Prop) [DecidablePred P] [DecidablePred L] :
    ∀ c : AnyCall, Decidable (c.Hands P L)
  | .plain c => inferInstanceAs (Decidable (c.Hands P L))
  | .claim _ => .isTrue trivial

/-- A call that asks the access policy nothing, and hands over one kind of path. -/
def Call.Keeps (P L : String → Prop) (c : Call) : Prop :=
  c.Hands P L ∧ match c with
    | .check .. => False
    | _ => True

def AnyCall.Keeps (P L : String → Prop) : AnyCall → Prop
  | .plain c => c.Keeps P L
  | .claim _ => True

/-! ## The shared parts -/

section Parts

variable {P L : String → Prop} {path : String}

abbrev Handler.Keeps (P L : String → Prop) (x : Handler α) : Prop := OnlyE (·.Keeps P L) x

abbrev ClaimHandler.Keeps (P L : String → Prop) (x : ClaimHandler α) : Prop :=
  OnlyE (·.Keeps P L) x

/-- A handler that keeps to the paths does so among those with the claim store. -/
theorem Handler.Keeps.plain {x : Handler α} (h : x.Keeps P L) :
    ClaimHandler.Keeps P L (Cassetta.plain x) := OnlyE.embedE h

/-- A call that keeps to the paths does so as a handler. -/
theorem keeps_ask {c : Call} (h : c.Keeps P L) : Handler.Keeps P L (ask c) := onlyE_performE h

private theorem keeps_askClaims (c : ClaimCall) : ClaimHandler.Keeps P L (askClaims c) :=
  onlyE_performE trivial

private theorem keeps_orRaise (r : Except StorageError α) : Handler.Keeps P L (orRaise r) := by
  cases r <;> trivial

private theorem keeps_orCollaborator (r : Except Unit α) :
    Handler.Keeps P L (orCollaborator r) := by
  cases r <;> trivial

/-- Sending the head of an answer names no path. -/
theorem keeps_sendHead (values : List String) : Handler.Keeps P L (sendHead values) := by
  unfold sendHead
  split <;> trivial

/-- Reading the clock names no path. -/
theorem keeps_now : Handler.Keeps P L now := keeps_ask ⟨trivial, trivial⟩

/-- Drawing an identifier names no path. -/
theorem keeps_newId : Handler.Keeps P L newId := keeps_ask ⟨trivial, trivial⟩

/-- Counting names no path. -/
theorem keeps_increment (counter : Counter) : (increment counter).Keeps P L :=
  OnlyE.bind (keeps_ask ⟨trivial, trivial⟩) fun _ => keeps_orCollaborator _

private theorem keeps_isExpiredByMeta (createdAt : Nat) :
    (isExpiredByMeta cfg createdAt).Keeps P L := by
  unfold isExpiredByMeta
  split
  · trivial
  · exact OnlyE.bind keeps_now fun _ => trivial

private theorem keeps_computeRemainingTtl (createdAt : Nat) :
    (computeRemainingTtl cfg createdAt).Keeps P L := by
  unfold computeRemainingTtl
  split
  · trivial
  · exact OnlyE.bind keeps_now fun _ => trivial

private theorem keeps_mintDownload (path : String) (m : BundleMeta) (recipient : String) :
    (mintDownload cfg path m recipient).Keeps P L :=
  OnlyE.bind keeps_now fun _ => OnlyE.bind keeps_newId fun _ => trivial

/-- A reference payload for the store names no path to the storage. -/
theorem keeps_buildReferencePayloadForStore (path : String) (m : BundleMeta) (recipient : String) :
    (buildReferencePayloadForStore cfg path m recipient).Keeps P L :=
  OnlyE.bind (keeps_mintDownload _ _ _) fun _ => trivial

/-- A reference payload for an inbox names no path to the storage. -/
theorem keeps_buildReferencePayloadForInbox (path : String) (m : BundleMeta) (recipient : String)
    (writeClaim : Bool) :
    (buildReferencePayloadForInbox cfg path m recipient writeClaim).Keeps P L := by
  refine OnlyE.bind (keeps_mintDownload _ _ _).plain fun minted => ?_
  obtain ⟨token, expiresAt⟩ := minted
  dsimp only
  split
  · refine OnlyE.bind keeps_now.plain fun createdAt => ?_
    refine OnlyE.bind (keeps_askClaims _) fun r => ?_
    split <;> trivial
  · trivial

/-- Verifying a token names no path. -/
theorem keeps_verifyToken (token : Token) (refusal : TokenError → Exc) :
    (verifyToken token refusal).Keeps P L := by
  refine OnlyE.bind (keeps_ask ⟨trivial, trivial⟩) fun keys => ?_
  refine OnlyE.bind keeps_now fun t => ?_
  split <;> trivial

/-- Writing a file to an open bundle names no path. -/
theorem keeps_writeFile (handle : Nat) (name : String) (data : Bytes) :
    (writeFile handle name data).Keeps P L :=
  OnlyE.bind (keeps_ask ⟨trivial, trivial⟩) fun _ => keeps_orRaise _

/-- Committing an open bundle names no path. -/
theorem keeps_commit (handle : Nat) (m : BundleMeta) : (commit handle m).Keeps P L :=
  OnlyE.bind (keeps_ask ⟨trivial, trivial⟩) fun _ => keeps_orRaise _

/-- Giving up an open bundle names no path. -/
theorem keeps_orAbort {handle : Nat} {x : Handler α} (h : x.Keeps P L) :
    (Upload.orAbort handle x).Keeps P L :=
  OnlyE.tryCatch h fun _ => OnlyE.bind (keeps_ask ⟨trivial, trivial⟩) fun _ => trivial

private theorem keeps_writeFiles (handle : Nat) (files : List FilePart) :
    (writeFiles cfg handle files).Keeps P L := by
  induction files with
  | nil => trivial
  | cons f rest ih =>
    exact OnlyE.bind (keeps_writeFile _ _ _) fun _ => OnlyE.bind ih fun _ => trivial

variable (hp : P path)
include hp

/-- A manifest is read at a path of the kept ones. -/
theorem keeps_readBundleMeta : (readBundleMeta path).Keeps P L := keeps_ask ⟨hp, trivial⟩

/-- A bundle is opened at a path of the kept ones. -/
theorem keeps_openBundleWrite : (openBundleWrite path).Keeps P L := keeps_ask ⟨hp, trivial⟩

/-- A manifest is read at a path of the kept ones, or an exception is raised. -/
theorem keeps_readMetaOr (missing : Exc) : (readMetaOr path missing).Keeps P L := by
  refine OnlyE.bind (keeps_readBundleMeta hp) fun r => ?_
  split <;> trivial

/-- A bundle is deleted at a path of the kept ones, or an exception is raised. -/
theorem keeps_deleteOr (missing : Exc) : (deleteOr path missing).Keeps P L := by
  refine OnlyE.bind (keeps_ask ⟨hp, trivial⟩) fun r => ?_
  split <;> trivial

/-- A bundle is deleted at a path of the kept ones, where there is one. -/
theorem keeps_deleteQuiet : (deleteQuiet path).Keeps P L := by
  refine OnlyE.bind (keeps_ask ⟨hp, trivial⟩) fun r => ?_
  split <;> trivial

/-- A fresh manifest is read at a path of the kept ones. -/
theorem keeps_readFreshOr (missing : Exc) : (readFreshOr cfg path missing).Keeps P L := by
  refine OnlyE.bind (keeps_readMetaOr hp _) fun m => ?_
  refine OnlyE.bind (keeps_isExpiredByMeta _) fun expired => ?_
  split
  · exact OnlyE.bind (keeps_deleteQuiet hp) fun _ => trivial
  · trivial

/-- A peek is at a path of the kept ones. -/
theorem keeps_peekFreshOr (missing : Exc) : (peekFreshOr cfg path missing).Keeps P L := by
  refine OnlyE.bind (keeps_readMetaOr hp _) fun m => ?_
  refine OnlyE.bind (keeps_isExpiredByMeta _) fun expired => ?_
  split <;> trivial

/-- The files that are collected lie in a bundle of the kept paths. -/
theorem keeps_collectBundleFiles (files : List FileRecord) :
    (collectBundleFiles path files).Keeps P L := by
  induction files with
  | nil => trivial
  | cons f rest ih =>
    refine OnlyE.bind (keeps_ask ⟨hp, trivial⟩) fun r => ?_
    refine OnlyE.bind (keeps_orRaise _) fun data => ?_
    exact OnlyE.bind ih fun _ => trivial

/-- A bundle is written at a path of the kept ones. -/
theorem keeps_writeBundle (files : List FilePart) (sender : Option String) (contentType : String)
    (bundleId : Id) : (writeBundle cfg path files sender contentType bundleId).Keeps P L := by
  refine OnlyE.bind (keeps_openBundleWrite hp) fun r => ?_
  refine OnlyE.bind (keeps_orRaise _) fun handle => keeps_orAbort ?_
  refine OnlyE.bind (keeps_writeFiles _ _) fun records => ?_
  refine OnlyE.bind keeps_now fun createdAt => ?_
  exact OnlyE.bind (keeps_commit _ _) fun _ => trivial

omit hp

/-- The entries of a listing are read at paths of the kept ones. -/
theorem keeps_listingEntries (base : String) {paths : List String} (hp : ∀ path ∈ paths, P path) :
    (listingEntries cfg base paths).Keeps P L := by
  induction paths with
  | nil => trivial
  | cons path rest ih =>
    have ih' := ih fun path hpath => hp path (List.mem_cons_of_mem _ hpath)
    refine OnlyE.bind (keeps_readBundleMeta (hp path List.mem_cons_self)) fun r => ?_
    split
    · exact ih'
    · trivial
    refine OnlyE.bind (keeps_isExpiredByMeta _) fun expired => ?_
    split
    · exact ih'
    · exact OnlyE.bind (keeps_computeRemainingTtl _) fun _ => OnlyE.bind ih' fun _ => trivial

/-- The newest bundle is sought among paths of the kept ones. -/
theorem keeps_newestBundle (best : Option (String × BundleMeta)) {paths : List String}
    (hp : ∀ path ∈ paths, P path) : (newestBundle cfg best paths).Keeps P L := by
  induction paths generalizing best with
  | nil => trivial
  | cons path rest ih =>
    have ih' := fun best => ih best fun path hpath => hp path (List.mem_cons_of_mem _ hpath)
    refine OnlyE.bind (keeps_readBundleMeta (hp path List.mem_cons_self)) fun r => ?_
    split
    · exact ih' best
    · trivial
    refine OnlyE.bind (keeps_isExpiredByMeta _) fun expired => ?_
    split
    · exact ih' best
    split
    · split <;> exact ih' _
    · exact ih' _

/-- A delivery writes below each target, at paths of the kept ones. -/
theorem keeps_deliverTo {path : String} (files : List FilePart) (sender : Option String)
    {targets : List String} (hp : ∀ target ∈ targets, P (broadcastPath target path)) :
    (deliverTo cfg path files sender targets).Keeps P L := by
  induction targets with
  | nil => trivial
  | cons target rest ih =>
    have htarget := hp target List.mem_cons_self
    refine OnlyE.bind (keeps_deleteQuiet htarget) fun _ => ?_
    refine OnlyE.bind keeps_newId fun bundleId => ?_
    refine OnlyE.bind (keeps_writeBundle htarget _ _ _ _) fun _ => ?_
    exact ih fun target h => hp target (List.mem_cons_of_mem _ h)

/-- The end of a download deletes at the path of its bundle. -/
theorem Download.keeps_finish {st : Download.Stream} (hp : P st.bundlePath) :
    ClaimHandler.Keeps P L st.finish := by
  unfold Download.Stream.finish Download.postStreamClaimAccounting
  split
  · refine OnlyE.bind (keeps_askClaims _) fun claim => ?_
    split
    · trivial
    refine OnlyE.bind (keeps_askClaims _) fun r => ?_
    split
    · trivial
    split
    · exact OnlyE.bind (keeps_deleteQuiet hp).plain fun _ => keeps_askClaims _
    · trivial
  · trivial

end Parts

/-! ## The guard -/

/-- Something holds of the resource that the policy has been asked about last, since `before`. -/
def LastAsked (before : List Resource) (s : Server) (holds : Resource → Prop) : Prop :=
  match s.asked with
  | [] => False
  | resource :: rest => before <:+ rest ∧ holds resource

instance (before : List Resource) (s : Server) (holds : Resource → Prop) [DecidablePred holds] :
    Decidable (LastAsked before s holds) := by
  unfold LastAsked
  split
  · exact .isFalse not_false
  · infer_instance

/-- Every path that a call hands over leads strictly inside the resource that was asked about
last, and every prefix to it or inside. -/
def AnyCall.Covered (b : Backend) (before : List Resource) (s : Server) (c : AnyCall) : Prop :=
  c.Hands (fun path => LastAsked before s (b.Covers · path))
    (fun pre => LastAsked before s (b.Spans · pre))

/-- A call that keeps to the paths keeps to more of them. -/
theorem Call.Hands.mono {P P' L L' : String → Prop} {c : Call} (h : c.Hands P L)
    (hP : ∀ path, P path → P' path) (hL : ∀ pre, L pre → L' pre) : c.Hands P' L' := by
  cases c with
  | openBundleWrite path => exact hP path h
  | readBundleMeta path => exact hP path h
  | openBundleFileRead path name => exact hP path h
  | deleteBundle path => exact hP path h
  | listBundles pre orphans => exact hL pre h
  | _ => trivial

/-- A call that keeps to the paths hands no other to the storage. -/
theorem AnyCall.Keeps.hands {P L : String → Prop} {c : AnyCall} (h : c.Keeps P L) :
    c.Hands P L := by
  cases c with
  | plain c => exact h.1
  | claim c => trivial

/-- A call that keeps to the paths does not ask the policy. -/
theorem AnyCall.Keeps.asked {P L : String → Prop} {c : AnyCall} (h : c.Keeps P L) (s : Server) :
    (execAny cfg env c s).2.asked = s.asked := by
  rcases c with c | c
  · cases c <;> first | rfl | exact h.2.elim
  · cases c <;> rfl

/-- The server once the policy has been asked. -/
def Server.havingAsked (s : Server) (resource : Resource) : Server :=
  { s with asked := resource :: s.asked }

section Asked

variable {b : Backend} {before rest : List Resource} {resource : Resource} {s : Server}

/-- A program that keeps to a resource is covered once the policy has been asked about it, and
asks nothing more. -/
theorem ClaimHandler.Keeps.covered_then {x : ClaimHandler α}
    (hx : x.Keeps (b.Covers resource) (b.Spans resource)) (hs : s.asked = resource :: rest)
    (hb : before <:+ rest) {Q : α → Server → Prop}
    (hQ : ∀ a s', s'.asked = resource :: rest → Q a s') :
    wpE (execAny cfg env) (fun s c => c.Covered b before s) x Q (fun _ _ => True) s := by
  have hlast : ∀ (s' : Server) (holds : Resource → Prop), s'.asked = resource :: rest →
      holds resource → LastAsked before s' holds := by
    intro s' holds hs' hh
    rw [LastAsked, hs']
    exact ⟨hb, hh⟩
  rw [wpE_iff_run]
  constructor
  · refine wp_guard_mono (I := fun s => s.asked = resource :: rest) ?_ (hx.wpE s) hs
    intro s' c hs' hc
    refine ⟨?_, (hc.asked s').trans hs'⟩
    rcases c with c | c
    · exact hc.1.mono (fun path => hlast s' (b.Covers · path) hs')
        fun pre => hlast s' (b.Spans · pre) hs'
    · trivial
  · have hasked : (runE (execAny cfg env) x s).2.asked = resource :: rest :=
      runE_invariant (I := fun s => s.asked = resource :: rest)
        (fun s' c hs' hc => (hc.asked s').trans hs') (hx.wpE s) hs
    rcases hrun : runE (execAny cfg env) x s with ⟨e | a, s'⟩
    · trivial
    · rw [hrun] at hasked
      exact hQ a s' hasked

/-- A handler that keeps to what a resource covers is covered by a question about it. -/
theorem ClaimHandler.Keeps.covered {x : ClaimHandler α}
    (hx : x.Keeps (b.Covers resource) (b.Spans resource)) (hs : s.asked = resource :: rest)
    (hb : before <:+ rest) :
    wpE (execAny cfg env) (fun s c => c.Covered b before s) x (fun _ _ => True) (fun _ _ => True)
      s :=
  ClaimHandler.Keeps.covered_then hx hs hb fun _ _ _ => trivial

/-- A part that keeps to what a resource covers is covered, and no question is added in it. -/
theorem Handler.Keeps.covered_then {x : Handler α}
    (hx : x.Keeps (b.Covers resource) (b.Spans resource)) (hs : s.asked = resource :: rest)
    (hb : before <:+ rest) {Q : α → Server → Prop}
    (hQ : ∀ a s', s'.asked = resource :: rest → Q a s') :
    wpE (exec cfg env) (fun s c => (AnyCall.plain c).Covered b before s) x Q (fun _ _ => True) s :=
  wpE_plain.mp (ClaimHandler.Keeps.covered_then hx.plain hs hb hQ)

/-- A part that keeps to what a resource covers is covered by a question about it. -/
theorem Handler.Keeps.covered {x : Handler α}
    (hx : x.Keeps (b.Covers resource) (b.Spans resource)) (hs : s.asked = resource :: rest)
    (hb : before <:+ rest) :
    wpE (exec cfg env) (fun s c => (AnyCall.plain c).Covered b before s) x (fun _ _ => True)
      (fun _ _ => True) s :=
  hx.covered_then hs hb fun _ _ _ => trivial

/-- The same with what is known of the value. -/
theorem Handler.Keeps.covered_ensures {x : Handler α}
    (hx : x.Keeps (b.Covers resource) (b.Spans resource)) (hs : s.asked = resource :: rest)
    (hb : before <:+ rest) {R Q : α → Server → Prop} (hens : Ensures (exec cfg env) x R s)
    (hQ : ∀ a s', s'.asked = resource :: rest → R a s' → Q a s') :
    wpE (exec cfg env) (fun s c => (AnyCall.plain c).Covered b before s) x Q (fun _ _ => True)
      s := by
  have hcov := @Handler.Keeps.covered_then cfg env α b before rest resource s x hx hs hb
    (fun _ s' => s'.asked = resource :: rest) fun _ _ h => h
  rw [wpE_iff_run] at hcov ⊢
  refine ⟨hcov.1, ?_⟩
  have hend := hcov.2
  rcases hrun : runE (exec cfg env) x s with ⟨e | a, s'⟩
  · trivial
  · rw [hrun] at hend
    exact hQ a s' hend (wpE_ok hens hrun)

/-- What follows an access check that was passed. -/
theorem wpE_enforce_asked {guard : Server → Call → Prop}
    (hguard : ∀ s identity resource action, guard s (.check identity resource action))
    {identity : Identity} {action : Action} {denied : Exc} {Q : Unit → Server → Prop}
    (hQ : Q () (s.havingAsked resource)) :
    wpE (exec cfg env) guard (enforce identity resource action denied) Q (fun _ _ => True) s := by
  simp only [enforce, wpE_bind, wpE_check]
  refine ⟨hguard _ _ _ _, ?_⟩
  cases env.check identity resource action with
  | error e => trivial
  | ok allowed =>
    cases allowed with
    | false => trivial
    | true => exact hQ

/-- What a listing of a resource finds is covered by it. -/
theorem covers_of_listed (hnamed : Named s.disk.tree) {pre : String} (hspan : b.Spans resource pre)
    {orphans : Bool} {refs : List Backend.BundleRef}
    (hrefs : b.listBundles s.disk pre orphans = .ok refs) :
    ∀ path ∈ refs.map (·.path), b.Covers resource path := by
  intro path hpath
  obtain ⟨ref, href, rfl⟩ := List.mem_map.mp hpath
  obtain ⟨x, hv, hresolve, -⟩ := Backend.resolve_of_mem_listBundles hnamed hrefs href
  rw [Backend.Covers, Backend.location_of_resolve hresolve]
  have hin : StrictlyInside (b.location pre) (b.location pre ++ x) := by
    refine ⟨List.prefix_append _ _, ?_⟩
    simpa using hv.1
  refine ⟨hspan.trans hin.1, fun hsame => hin.2 ?_⟩
  have hlen := hspan.length_le
  rw [← hsame] at hlen
  exact (hin.1.eq_of_length_le hlen).symm

/-- A listing, and what is done with what it finds. -/
theorem wpE_listBundles_covered (hs : s.asked = resource :: rest) (hb : before <:+ rest)
    (hnamed : Named s.disk.tree) {pre : String} (hspan : cfg.backend.Spans resource pre)
    {orphans : Bool} {Q : List Backend.BundleRef → Server → Prop}
    (hQ : ∀ refs : List Backend.BundleRef,
      (∀ path ∈ refs.map (·.path), cfg.backend.Covers resource path) → Q refs s) :
    wpE (exec cfg env) (fun s c => (AnyCall.plain c).Covered cfg.backend before s)
      (listBundles pre orphans) Q (fun _ _ => True) s := by
  simp only [listBundles, wpE_bind, wpE_tryListBundles, wpE_orRaise]
  refine ⟨?_, ?_⟩
  · show LastAsked before s _
    rw [LastAsked, hs]
    exact ⟨hb, hspan⟩
  · split
    · rename_i refs hrefs
      exact hQ refs (covers_of_listed hnamed hspan hrefs)
    · trivial

end Asked

end Cassetta
