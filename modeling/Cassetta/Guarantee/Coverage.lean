import Cassetta.Guarantee.Handing
import Cassetta.Guarantee.Metrics
import Cassetta.Guarantee.PrefixListing
import Cassetta.Guarantee.Recipient
import Cassetta.Guarantee.TokenBinding

/-!
# Where bundle paths lead

Every surface puts a bundle path together from strings that a client sends, some of them
validated and some not, and asks the access policy about a resource before it hands the path to
the storage. This module says of each surface when its paths stay with that resource.
-/

namespace Cassetta

open Prog FileTree

variable {cfg : Config} {env : Environment} {α : Type}

/-! ## Where paths lead -/

section Places

variable {b : Backend} {resource : Resource} {path x : String}

/-- A path that leads down, and somewhere. -/
def Inward (path : String) : Prop := Step.up ∉ steps path ∧ steps path ≠ []

instance (path : String) : Decidable (Inward path) := inferInstanceAs (Decidable (_ ∧ _))

private theorem inward_of_validatePath {allowed : Char → Bool}
    (h : validatePath allowed path = .ok ())
    (hne : steps path ≠ []) : Inward path :=
  ⟨up_not_mem_steps (validatePath_ok h).2.2.1, hne⟩

private theorem location_of_steps (h : b.resolve path = spell (b.rootOf resource) ++ steps x)
    (hup : Step.up ∉ steps x) : b.location path = b.rootOf resource ++ below x := by
  have hdown : steps x = spell (below x) := eq_spell_normalize hup
  rw [Backend.location, h, hdown, ← spell_append, normalize_spell]

private theorem covers_of_steps (h : b.resolve path = spell (b.rootOf resource) ++ steps x)
    (hx : Inward x) : b.Covers resource path := by
  have hdown : steps x = spell (below x) := eq_spell_normalize hx.1
  rw [Backend.Covers, location_of_steps h hx.1]
  refine ⟨List.prefix_append _ _, ?_⟩
  intro hnil
  have hbelow : below x = [] := by simpa using hnil
  rw [hbelow] at hdown
  exact hx.2 hdown

private theorem spans_of_steps (h : b.resolve path = spell (b.rootOf resource) ++ steps x)
    (hup : Step.up ∉ steps x) : b.Spans resource path := by
  rw [Backend.Spans, location_of_steps h hup]
  exact List.prefix_append _ _

private theorem covers_store (p : String) (hx : Inward x) : b.Covers (.files p) (storePath x) :=
  covers_of_steps (resolve_storeSteps x) hx

private theorem covers_inbox {agent : String} (hagent : FileName agent) (hx : Inward x) :
    b.Covers (.inbox agent) (inboxPath agent x) :=
  covers_of_steps (resolve_inboxSteps hagent x) hx

private theorem spans_inbox {agent : String} (hagent : FileName agent) (hup : Step.up ∉ steps x) :
    b.Spans (.inbox agent) (inboxPath agent x) :=
  spans_of_steps (resolve_inboxSteps hagent x) hup

private theorem spans_store (p : String) (hup : Step.up ∉ steps (lstripSlash x)) :
    b.Spans (.files p) (storeScanPrefix x) :=
  spans_of_steps (resolve_storeSteps (lstripSlash x)) hup

end Places

/-! ## The surfaces that ask -/

section Surfaces

variable {s : Server}

/-- Every call of a handler is covered by what the policy has been asked about since it began. -/
abbrev Handler.CoveredFrom (cfg : Config) (env : Environment) (s : Server) (x : Handler α) : Prop :=
  wpE (exec cfg env) (fun s' c => (AnyCall.plain c).Covered cfg.backend s.asked s') x
    (fun _ _ => True) (fun _ _ => True) s

abbrev ClaimHandler.CoveredFrom (cfg : Config) (env : Environment) (s : Server)
    (x : ClaimHandler α) : Prop :=
  wpE (execAny cfg env) (fun s' c => c.Covered cfg.backend s.asked s') x (fun _ _ => True)
    (fun _ _ => True) s

/-- Some paths lead strictly inside the resource that the policy has been asked about, after what
it had been asked before. -/
def Backend.Leads (b : Backend) (before : List Resource) (paths : List String) (s : Server) :
    Prop :=
  ∃ resource, s.asked = resource :: before ∧ ∀ path ∈ paths, b.Covers resource path

/-- The same, with the paths a handler is left with. -/
abbrev Handler.CoveredFor (cfg : Config) (env : Environment) (s : Server) (paths : List String)
    (x : Handler α) : Prop :=
  wpE (exec cfg env) (fun s' c => (AnyCall.plain c).Covered cfg.backend s.asked s') x
    (fun _ => cfg.backend.Leads s.asked paths) (fun _ _ => True) s

abbrev ClaimHandler.CoveredFor (cfg : Config) (env : Environment) (s : Server)
    (paths : List String) (x : ClaimHandler α) : Prop :=
  wpE (execAny cfg env) (fun s' c => c.Covered cfg.backend s.asked s') x
    (fun _ => cfg.backend.Leads s.asked paths) (fun _ _ => True) s

/-- A handler that is covered and leads to certain paths is covered. -/
theorem ClaimHandler.CoveredFor.from {x : ClaimHandler α} {paths : List String}
    (h : x.CoveredFor cfg env s paths) : x.CoveredFrom cfg env s :=
  wpE_mono (fun _ _ _ => trivial) (fun _ _ h => h) h

/-- Coverage of a handler without the claim store, with the paths it leads to. -/
theorem Handler.CoveredFor.plain {x : Handler α} {paths : List String}
    (h : x.CoveredFor cfg env s paths) :
    ClaimHandler.CoveredFor cfg env s paths (Cassetta.plain x) := wpE_plain.mpr h

/-- Coverage of a handler without the claim store. -/
theorem Handler.CoveredFrom.plain {x : Handler α} (h : x.CoveredFrom cfg env s) :
    ClaimHandler.CoveredFrom cfg env s (Cassetta.plain x) := wpE_plain.mpr h

/-- Coverage does not depend on what is returned. -/
theorem Handler.CoveredFrom.discard {x : Handler α} (h : x.CoveredFrom cfg env s) :
    (discard x).CoveredFrom cfg env s := (wpE_bind _ _ _).mpr h

private theorem wpE_validateOr {guard : Server → Call → Prop} {allowed : Char → Bool}
    {path : String}
    {refusal : PathValidationError → Exc} {Q : Unit → Server → Prop}
    (hQ : validatePath allowed path = .ok () → Q () s) :
    wpE (exec cfg env) guard (validateOr allowed path refusal) Q (fun _ _ => True) s := by
  unfold validateOr
  split
  · rename_i h
    exact hQ h
  · trivial

/-- A handler that asks about a resource and keeps to it. -/
theorem wpE_enforce_covered {identity : Identity} {resource : Resource} {action : Action}
    {denied : Exc} {f : Unit → Handler α} {Q : α → Server → Prop}
    (hf : (f ()).Keeps (cfg.backend.Covers resource) (cfg.backend.Spans resource))
    (hQ : ∀ a s', s'.asked = resource :: s.asked → Q a s') :
    wpE (exec cfg env) (fun s' c => (AnyCall.plain c).Covered cfg.backend s.asked s')
      (enforce identity resource action denied >>= f) Q (fun _ _ => True) s :=
  (wpE_bind _ _ _).mpr (wpE_enforce_asked (fun _ _ _ _ => trivial)
    (hf.covered_then rfl (List.suffix_refl _) hQ))

private theorem covered_enforce {identity : Identity} {resource : Resource} {action : Action}
    {denied : Exc}
    {f : Unit → Handler α}
    (hf : (f ()).Keeps (cfg.backend.Covers resource) (cfg.backend.Spans resource)) :
    (enforce identity resource action denied >>= f).CoveredFrom cfg env s :=
  wpE_enforce_covered hf fun _ _ _ => trivial

/-- A handler that validates a path, asks about the file there, and keeps to it. -/
theorem wpE_validated_covered {identity : Identity} {action : Action} {denied : Exc} {path : String}
    {allowed : Char → Bool} {refusal : PathValidationError → Exc} (hne : steps path ≠ [])
    {f : Unit → Handler α} {Q : α → Server → Prop}
    (hf : cfg.backend.Covers (.files path) (storePath path) →
      (f ()).Keeps (cfg.backend.Covers (.files path)) (cfg.backend.Spans (.files path)))
    (hQ : cfg.backend.Covers (.files path) (storePath path) →
      ∀ a s', s'.asked = .files path :: s.asked → Q a s') :
    wpE (exec cfg env) (fun s' c => (AnyCall.plain c).Covered cfg.backend s.asked s')
      (validateOr allowed path refusal >>= fun _ =>
        enforce identity (.files path) action denied >>= f) Q (fun _ _ => True) s := by
  refine (wpE_bind _ _ _).mpr (wpE_validateOr fun hpath => ?_)
  have hcovers := @covers_store cfg.backend path path (inward_of_validatePath hpath hne)
  exact wpE_enforce_covered (hf hcovers) (hQ hcovers)

private theorem covered_validated {identity : Identity} {action : Action} {denied : Exc}
    {path : String}
    {allowed : Char → Bool} {refusal : PathValidationError → Exc} (hne : steps path ≠ [])
    {f : Unit → Handler α}
    (hf : cfg.backend.Covers (.files path) (storePath path) →
      (f ()).Keeps (cfg.backend.Covers (.files path)) (cfg.backend.Spans (.files path))) :
    (validateOr allowed path refusal >>= fun _ =>
      enforce identity (.files path) action denied >>= f).CoveredFrom cfg env s :=
  wpE_validated_covered hne hf fun _ _ _ _ => trivial

/-- A read of a file, which is left with its path. -/
theorem coveredFor_validated {identity : Identity} {action : Action} {denied : Exc} {path : String}
    {allowed : Char → Bool} {refusal : PathValidationError → Exc} (hne : steps path ≠ [])
    {f : Unit → Handler α}
    (hf : cfg.backend.Covers (.files path) (storePath path) →
      (f ()).Keeps (cfg.backend.Covers (.files path)) (cfg.backend.Spans (.files path))) :
    (validateOr allowed path refusal >>= fun _ =>
      enforce identity (.files path) action denied >>= f).CoveredFor cfg env s [storePath path] :=
  wpE_validated_covered hne hf fun hcovers _ _ hs' =>
    ⟨_, hs', fun _ hp => List.mem_singleton.mp hp ▸ hcovers⟩

namespace Files

variable {identity : Identity} {path : String}

/-- `PUT /files` is covered. -/
theorem covered_uploadFile (hne : steps path ≠ []) (body : Body) :
    (uploadFile cfg identity path body).CoveredFrom cfg env s := by
  refine (wpE_bind _ _ _).mpr (wpE_validateOr fun hpath => ?_)
  have hcovers := @covers_store cfg.backend path path (inward_of_validatePath hpath hne)
  split
  · trivial
  refine covered_enforce ?_
  dsimp only
  split
  · trivial
  split
  · trivial
  have hwrite : ∀ {f : Id → BundleMeta → Uploaded}, Handler.Keeps
      (cfg.backend.Covers (.files path)) (cfg.backend.Spans (.files path)) (do
        let bundleId ← newId
        let m ← writeBundle cfg (storePath path) (body.fileParts path) none
          "application/octet-stream" bundleId
        pure (f bundleId m)) := fun {_} =>
    OnlyE.bind keeps_newId fun _ => OnlyE.bind (keeps_writeBundle hcovers _ _ _ _) fun _ => trivial
  refine OnlyE.bind (keeps_readBundleMeta hcovers) fun r => ?_
  split <;> refine OnlyE.bind trivial fun existed => ?_ <;> split
  all_goals first
    | exact OnlyE.bind (keeps_deleteQuiet hcovers) fun _ => hwrite
    | exact hwrite

/-- A peek into the store is covered. -/
theorem covered_peekStoreFile (hne : steps path ≠ []) :
    (peekStoreFile cfg identity path).CoveredFrom cfg env s :=
  covered_validated hne fun hcovers => keeps_peekFreshOr hcovers _

/-- `DELETE /files` is covered. -/
theorem covered_deleteFile (hne : steps path ≠ []) :
    (deleteFile identity path).CoveredFrom cfg env s :=
  covered_validated hne fun hcovers => keeps_deleteOr hcovers _

/-- `GET /files` is covered, and leads to its bundle alone. -/
theorem covered_downloadFile (hne : steps path ≠ []) :
    (downloadFile cfg identity path).CoveredFor cfg env s [storePath path] := by
  refine coveredFor_validated hne fun hcovers => ?_
  refine OnlyE.bind (keeps_readFreshOr hcovers _) fun m => ?_
  split
  · exact OnlyE.bind (keeps_buildReferencePayloadForStore _ _ _) fun _ => trivial
  · exact OnlyE.bind (keeps_collectBundleFiles hcovers _) fun _ => trivial

end Files

/-- A listing of the store, over either surface. -/
theorem covered_storeListing {identity : Identity} {denied : Exc} {pre : String}
    (hnamed : Named s.disk.tree) (hup : Step.up ∉ steps (lstripSlash pre))
    {g : List Backend.BundleRef → Handler α}
    (hg : ∀ refs : List Backend.BundleRef,
      (∀ path ∈ refs.map (·.path), cfg.backend.Covers (.files "*") path) →
        (g refs).Keeps (cfg.backend.Covers (.files "*")) (cfg.backend.Spans (.files "*"))) :
    (enforce identity (.files "*") .list denied >>= fun _ =>
      listBundles (storeScanPrefix pre) false >>= g).CoveredFrom cfg env s := by
  refine (wpE_bind _ _ _).mpr (wpE_enforce_asked (fun _ _ _ _ => trivial) ?_)
  refine (wpE_bind _ _ _).mpr (wpE_listBundles_covered
    (s := s.havingAsked (.files "*")) rfl (List.suffix_refl _) hnamed
    (spans_store "*" hup) fun refs h => ?_)
  exact (hg refs h).covered rfl (List.suffix_refl _)

/-- The listing of the store is covered, unless its prefix steps up. -/
theorem Files.covered_listFiles {identity : Identity} {pre : String} (hnamed : Named s.disk.tree)
    (hup : Step.up ∉ steps (lstripSlash pre)) :
    (Files.listFiles cfg identity pre).CoveredFrom cfg env s :=
  covered_storeListing hnamed hup fun _ h => keeps_listingEntries _ h

/-! Inboxes -/

namespace Inbox

variable {identity : Identity} {agent path : String}

/-- A peek into an inbox is covered. -/
theorem covered_peekInboxFile (hagent : FileName agent) (hpath : Inward path) :
    (peekInboxFile cfg identity agent path).CoveredFrom cfg env s :=
  covered_enforce (OnlyE.bind (keeps_peekFreshOr (covers_inbox hagent hpath) _) fun _ =>
    OnlyE.bind (keeps_sendHead _) fun _ => trivial)

/-- `DELETE /inbox` is covered. -/
theorem covered_deleteInboxFile (hagent : FileName agent) (hpath : Inward path) :
    (deleteInboxFile identity agent path).CoveredFrom cfg env s :=
  covered_enforce (keeps_deleteOr (covers_inbox hagent hpath) _)

/-- `GET /inbox` is covered, and leads to its bundle alone. -/
theorem covered_getInboxFile (hagent : FileName agent) (hpath : Inward path) :
    (getInboxFile cfg identity agent path).CoveredFor cfg env s [inboxPath agent path] := by
  have hcovers := @covers_inbox cfg.backend path agent hagent hpath
  have hasked : (s.havingAsked (.inbox agent)).asked = .inbox agent :: s.asked := rfl
  refine (wpE_bind _ _ _).mpr (wpE_plain.mpr (wpE_enforce_asked (fun _ _ _ _ => trivial) ?_))
  refine ClaimHandler.Keeps.covered_then ?_ hasked
    (List.suffix_refl _) fun _ s' hs' => ⟨_, hs', fun _ hp => List.mem_singleton.mp hp ▸ hcovers⟩
  refine OnlyE.bind (keeps_readFreshOr hcovers _).plain fun m => ?_
  split
  · refine OnlyE.bind (keeps_buildReferencePayloadForInbox _ _ _ _) fun _ => ?_
    exact OnlyE.bind (keeps_sendHead _).plain fun _ => trivial
  · refine OnlyE.bind (keeps_collectBundleFiles hcovers _).plain fun _ => ?_
    exact OnlyE.bind (keeps_sendHead _).plain fun _ => trivial

private theorem keeps_consume {P L : String → Prop} {bundlePath : String} (hp : P bundlePath)
    (agent : String) (m : BundleMeta) (missing : Exc) :
    (consume cfg agent bundlePath m missing).Keeps P L := by
  unfold consume
  split
  · refine OnlyE.bind (OnlyE.tryCatch (keeps_buildReferencePayloadForInbox _ _ _ _) fun e => ?_)
      fun _ => trivial
    split <;> trivial
  · refine OnlyE.bind (keeps_collectBundleFiles hp _).plain fun _ => ?_
    exact OnlyE.bind (keeps_deleteQuiet hp).plain fun _ => trivial

/-- The listing of an inbox that the policy has been asked about. -/
theorem wpE_listing_covered {before rest : List Resource} (hs : s.asked = .inbox agent :: rest)
    (hb : before <:+ rest) (hnamed : Named s.disk.tree) (hagent : FileName agent) {pre : String}
    (hup : Step.up ∉ steps pre) {Q : List ListingEntry → Server → Prop}
    (hQ : ∀ entries s', s'.asked = .inbox agent :: rest → Q entries s') :
    wpE (execAny cfg env) (fun s c => c.Covered cfg.backend before s) (listing cfg agent pre) Q
      (fun _ _ => True) s := by
  refine (wpE_bind _ _ _).mpr ?_
  simp only [hiddenPaths, wpE_bind, wpE_plain, wpE_now, wpE_iterClaims, wpE_pure]
  refine ⟨trivial, trivial, ?_⟩
  refine wpE_listBundles_covered (s := (exec cfg env .now s).2) hs hb hnamed
    (spans_inbox hagent hup) fun refs hrefs => ?_
  refine Handler.Keeps.covered_then (s := (exec cfg env .now s).2)
    (keeps_listingEntries _ fun path hpath => ?_) hs hb fun entries s' hs' => hQ _ s' hs'
  exact hrefs path (List.mem_of_mem_filter hpath)

/-- The listing of an inbox is covered, unless its prefix steps up. -/
theorem covered_listInbox {identity : Identity} {pre : String} (hnamed : Named s.disk.tree)
    (hagent : FileName agent) (hup : Step.up ∉ steps pre) :
    (listInbox cfg identity agent pre).CoveredFrom cfg env s :=
  (wpE_bind _ _ _).mpr (wpE_plain.mpr (wpE_enforce_asked (fun _ _ _ _ => trivial)
    (wpE_listing_covered (s := s.havingAsked (.inbox agent)) rfl (List.suffix_refl _) hnamed
      hagent hup fun _ _ _ => trivial)))

/-- What a pick may name: the newest bundle, or a path that leads down. -/
def Pickable (path : String) : Prop := path = "latest" ∨ Inward path

instance (path : String) : Decidable (Pickable path) := inferInstanceAs (Decidable (_ ∨ _))

/-- The search of a pick, in an inbox that the policy has been asked about. -/
theorem wpE_resolvePick_covered {before rest : List Resource}
    (hs : s.asked = .inbox agent :: rest) (hb : before <:+ rest) (hnamed : Named s.disk.tree)
    (hagent : FileName agent) (hpath : Pickable path) {noFiles missing : Exc}
    {Q : String × BundleMeta → Server → Prop}
    (hQ : ∀ found s', s'.asked = .inbox agent :: rest →
      cfg.backend.Covers (.inbox agent) found.1 → Q found s') :
    wpE (exec cfg env) (fun s c => (AnyCall.plain c).Covered cfg.backend before s)
      (resolvePick cfg agent path noFiles missing) Q (fun _ _ => True) s := by
  unfold resolvePick
  split
  · have hempty : Step.up ∉ steps "" := by decide
    refine (wpE_bind _ _ _).mpr (wpE_listBundles_covered hs hb hnamed
      (spans_inbox hagent hempty) fun refs hrefs => ?_)
    have hkeeps := @keeps_newestBundle cfg (cfg.backend.Covers (.inbox agent))
      (cfg.backend.Spans (.inbox agent)) none _ hrefs
    refine (wpE_bind _ _ _).mpr (Handler.Keeps.covered_ensures hkeeps hs hb
      (ensures_newestBundle _ none) fun found s' hs' hfound => ?_)
    cases found with
    | none => trivial
    | some found =>
      obtain ⟨path, m⟩ := found
      refine hQ _ s' hs' ?_
      rcases hfound.2 path m rfl with hbest | ⟨hmem, -⟩
      · cases hbest
      · exact hrefs path hmem
  · rename_i hlatest
    have hcovers := @covers_inbox cfg.backend path agent hagent (hpath.resolve_left hlatest)
    refine (wpE_bind _ _ _).mpr
      ((keeps_readFreshOr hcovers _).covered_then hs hb fun m s' hs' => ?_)
    exact hQ _ s' hs' hcovers

/-- The bundles a pick may be after. -/
theorem leads_pickTargets (hnamed : Named s.disk.tree) (hagent : FileName agent)
    (hpath : Pickable path) {s' : Server} {before : List Resource}
    (hs' : s'.asked = .inbox agent :: before) :
    cfg.backend.Leads before (pickTargets cfg s.disk agent path) s' := by
  refine ⟨.inbox agent, hs', fun p hp => ?_⟩
  unfold pickTargets at hp
  split at hp
  · split at hp
    · rename_i refs hrefs
      exact covers_of_listed hnamed (spans_inbox hagent (by decide)) hrefs p hp
    · cases hp
  · rename_i hlatest
    obtain rfl := List.mem_singleton.mp hp
    exact covers_inbox hagent (hpath.resolve_left hlatest)

/-- A pick is covered, and leads to the bundles it may find. -/
theorem covered_pickInboxFile {identity : Identity} (hnamed : Named s.disk.tree)
    (hagent : FileName agent) (hpath : Pickable path) :
    (pickInboxFile cfg identity agent path).CoveredFor cfg env s
      (pickTargets cfg s.disk agent path) := by
  refine (wpE_bind _ _ _).mpr (wpE_plain.mpr (wpE_enforce_asked (fun _ _ _ _ => trivial) ?_))
  refine (wpE_bind _ _ _).mpr (wpE_plain.mpr (wpE_resolvePick_covered
    (s := s.havingAsked (.inbox agent)) rfl (List.suffix_refl _) hnamed hagent hpath
    fun found s' hs' hcovers => ?_))
  obtain ⟨bundlePath, m⟩ := found
  refine ClaimHandler.Keeps.covered_then ?_ hs' (List.suffix_refl _) fun _ _ hs'' =>
    leads_pickTargets hnamed hagent hpath hs''
  exact OnlyE.bind (keeps_consume hcovers _ _ _) fun _ => trivial

end Inbox

/-! Broadcasts -/

/-- What is relied on of the policy and the resolver: the visible labels are among those it was
asked for, and an alias stands for inboxes, a label for its own. -/
structure Environment.Direct (env : Environment) : Prop where
  visible : ∀ identity labels visible,
    env.visibleAgents identity labels = .ok visible → visible ⊆ labels
  inboxes : ∀ keys name sender resolved, env.resolve keys name sender = .ok (some resolved) →
    ∀ target ∈ resolved.inboxTargets, ∃ agent, FileName agent ∧ target = "inbox/" ++ agent ++ "/"
  own : ∀ keys (k : KeyInfo) sender resolved,
    env.resolve keys k.label sender = .ok (some resolved) →
      ∀ target ∈ resolved.inboxTargets, target = "inbox/" ++ k.label ++ "/"

private theorem not_mem_of_matchesClass {allowed : Char → Bool} {l : List Char}
    (h : matchesClass allowed l = true) {c : Char} (hc : allowed c = false) (hn : c ≠ '\n') :
    c ∉ l := by
  have hnot : ∀ l' : List Char, l'.all allowed = true → c ∉ l' := by
    intro l' hall hmem
    have hin := List.all_eq_true.mp hall c hmem
    rw [hc] at hin
    cases hin
  simp only [matchesClass, Bool.or_eq_true, Bool.and_eq_true, decide_eq_true_eq] at h
  rcases h with ⟨-, hall⟩ | ⟨⟨hlast, -⟩, hall⟩
  · exact hnot l hall
  · intro hmem
    have hsplit := List.dropLast_append_getLast? '\n' hlast
    rw [← hsplit, List.mem_append, List.mem_singleton] at hmem
    exact hmem.elim (hnot _ hall) hn

/-- The label of a key is the name of a file. -/
theorem KeyInfo.fileName_label (k : KeyInfo) : FileName k.label := by
  have hcolon : ':' ∈ k.label.toList := by simp [KeyInfo.label]
  have hother : ∀ t : String, ':' ∉ t.toList → k.label ≠ t := by
    rintro t ht rfl
    exact ht hcolon
  have hslash : '/' ∉ k.label.toList := by
    have hhost := not_mem_of_matchesClass k.host.property (c := '/') (by decide) (by decide)
    have hproject := not_mem_of_matchesClass k.project.property (c := '/') (by decide) (by decide)
    simp [KeyInfo.label, hhost, hproject]
  refine ⟨?_, hslash⟩
  rw [component, if_neg, if_neg (hother ".." (by simp))]
  exact not_or.mpr ⟨hother "" (by simp), hother "." (by simp)⟩

/-- A file name, as an alias spells it. -/
def FileName.toLabel {agent : String} (h : FileName agent) : Label where
  name := agent
  ends := by
    obtain ⟨hname, hslash⟩ := h
    cases hl : agent.toList.getLast? with
    | none =>
      have hempty : agent = "" := by simpa using hl
      subst hempty
      cases hname
    | some c =>
      have hc : c ≠ '/' := fun he => hslash (he ▸ List.mem_of_getLast? hl)
      simpa using hc

private theorem rstripSlash_inbox {agent : String} (h : FileName agent) :
    rstripSlash ("inbox/" ++ agent ++ "/") = "inbox/" ++ agent := h.toLabel.rstripSlash_target

section Broadcasts

variable {path : String} (hpath : Inward path) (henv : env.Direct)
include hpath henv

private theorem wpE_broadcastTo_covered {before : List Resource} {identity : Identity}
    {files : List FilePart} {sender : Option String} (report : BroadcastReport)
    {labels : List String} (hlabels : ∀ label ∈ labels, ∃ k : KeyInfo, k.label = label)
    (hb : before <:+ s.asked) :
    wpE (exec cfg env) (fun s c => (AnyCall.plain c).Covered cfg.backend before s)
      (broadcastTo cfg identity path files sender report labels) (fun _ _ => True)
      (fun _ _ => True) s := by
  induction labels generalizing report s with
  | nil => trivial
  | cons label rest ih =>
    have ih' := fun report (s' : Server) (hb' : before <:+ s'.asked) =>
      ih (s := s') report (fun l hl => hlabels l (List.mem_cons_of_mem _ hl)) hb'
    obtain ⟨k, rfl⟩ := hlabels label List.mem_cons_self
    refine (wpE_bind _ _ _).mpr (wpE_resolveAlias.mpr ⟨trivial, ?_⟩)
    rcases hresolve : env.resolve s.keys k.label sender with u | resolved
    · exact ih' _ s hb
    cases resolved with
    | none => exact ih' _ s hb
    | some resolved =>
      have hb' : before <:+ (s.havingAsked (.inbox k.label)).asked :=
        hb.trans (List.suffix_cons _ _)
      refine (wpE_bind _ _ _).mpr (wpE_check.mpr ⟨trivial, ?_⟩)
      rcases env.check identity (.inbox k.label) .write with u | allowed
      · exact ih' _ _ hb'
      cases allowed with
      | false => exact ih' _ _ hb'
      | true =>
        have htargets : ∀ target ∈ resolved.inboxTargets,
            cfg.backend.Covers (.inbox k.label) (broadcastPath target path) := by
          intro target htarget
          rw [henv.own _ _ _ _ hresolve target htarget, broadcastPath,
            rstripSlash_inbox k.fileName_label]
          exact covers_inbox k.fileName_label hpath
        have hkeeps : Handler.Keeps (cfg.backend.Covers (.inbox k.label))
            (cfg.backend.Spans (.inbox k.label)) (tryCatch (do
              deliverTo cfg path files sender resolved.inboxTargets
              pure none) fun e => pure (some e)) :=
          OnlyE.tryCatch (OnlyE.bind (keeps_deliverTo _ _ htargets) fun _ => trivial)
            fun _ => trivial
        refine (wpE_bind _ _ _).mpr (Handler.Keeps.covered_then
          (s := s.havingAsked (.inbox k.label)) hkeeps rfl hb fun done s' hs' => ?_)
        refine ih' _ s' ?_
        rw [hs']
        exact hb'

private theorem covered_fanOut {before : List Resource} {identity : Identity}
    {files : List FilePart}
    {sender : Option String} (hb : before <:+ s.asked) :
    wpE (exec cfg env) (fun s c => (AnyCall.plain c).Covered cfg.backend before s)
      (fanOut cfg identity path files sender) (fun _ _ => True) (fun _ _ => True) s := by
  refine (wpE_bind _ _ _).mpr (wpE_listKeys.mpr ⟨trivial, (wpE_bind _ _ _).mpr ?_⟩)
  unfold checkFanoutCap
  split
  · trivial
  refine (wpE_bind _ _ _).mpr (wpE_visibleAgents.mpr ⟨trivial, ?_⟩)
  split
  · trivial
  rename_i visible hvisible
  refine wpE_broadcastTo_covered hpath henv _ (fun label hlabel => ?_) hb
  obtain ⟨k, -, rfl⟩ := List.mem_map.mp (henv.visible _ _ _ hvisible hlabel)
  exact ⟨k, rfl⟩

end Broadcasts

/-- `POST /broadcast` is covered, where the collaborators name direct inboxes. -/
theorem Agents.covered_broadcast {identity : Identity} {path : String} {body : Body}
    (hne : steps path ≠ []) (henv : env.Direct) :
    (Agents.broadcast cfg identity path body).CoveredFrom cfg env s := by
  refine (wpE_bind _ _ _).mpr (wpE_checkRateLimit.mpr ⟨trivial, ?_⟩)
  split
  · trivial
  refine (wpE_bind _ _ _).mpr (wpE_validateOr fun hpath => ?_)
  dsimp only
  split
  · trivial
  · exact covered_fanOut (inward_of_validatePath hpath hne) henv (List.suffix_refl _)

/-! Sends -/

/-- The path a token is bound to. -/
def Token.path : Token → Option String
  | .signed claims _ => claims.bundlePath
  | .malformed => none

/-- An addressee that stands for nobody is a single name. -/
def Environment.Names (env : Environment) (keys : List KeyInfo) (to_ : String)
    (sender : Option String) : Prop :=
  match env.resolve keys to_ sender with
  | .ok none => hasColon to_ = true ∨ FileName to_
  | _ => True

instance (keys : List KeyInfo) (to_ : String) (sender : Option String) :
    Decidable (env.Names keys to_ sender) := by
  unfold Environment.Names
  split <;> infer_instance

/-- A session is bound to a path in the inbox that the policy has been asked about. -/
def SessionLeads (cfg : Config) (s : Server) (r : SendInitResult) (s' : Server) : Prop :=
  ∃ p, r.token.path = some p ∧ cfg.backend.Leads s.asked [p] s'

section Sends

variable {to_ path : String} {sender : Option String}

private theorem wpE_resolveRecipient_named {guard : Server → Call → Prop}
    (hguard : ∀ s name sender, guard s (.resolve name sender)) (henv : env.Direct)
    (hto : env.Names s.keys to_ sender) :
    wpE (exec cfg env) guard (resolveRecipient to_ sender)
      (fun recipient s' => FileName recipient ∧ s' = s) (fun _ _ => True) s := by
  refine (wpE_bind _ _ _).mpr (wpE_resolveAlias.mpr ⟨hguard _ _ _, ?_⟩)
  refine (wpE_bind _ _ _).mpr (wpE_orCollaborator.mpr ?_)
  unfold Environment.Names at hto
  cases hresolve : env.resolve s.keys to_ sender with
  | error u => trivial
  | ok resolved =>
    rw [hresolve] at hto
    cases resolved with
    | none =>
      dsimp only
      split
      · trivial
      · rename_i hcolon
        exact ⟨hto.resolve_left hcolon, rfl⟩
    | some resolved =>
      dsimp only
      split
      · trivial
      · rename_i target rest htargets
        have hmem : target ∈ resolved.inboxTargets := by
          have hhead : target ∈ target :: rest := List.mem_cons_self
          rw [← htargets] at hhead
          split at hhead
          · split at hhead
            · exact List.mem_of_mem_filter hhead
            · exact hhead
          · exact hhead
        obtain ⟨agent, hagent, rfl⟩ := henv.inboxes _ _ _ _ hresolve _ hmem
        have hname : recipientOf ("inbox/" ++ agent ++ "/") = agent :=
          hagent.toLabel.recipientOf_target
        exact ⟨hname.symm ▸ hagent, rfl⟩

private theorem covered_prepareSendInit {raw : SendManifest} {identity : Identity}
    {allowInline : Bool}
    (hne : steps path ≠ []) (henv : env.Direct) (hto : env.Names s.keys to_ sender) :
    wpE (exec cfg env) (fun s' c => (AnyCall.plain c).Covered cfg.backend s.asked s')
      (prepareSendInit cfg to_ path raw identity sender allowInline) (SessionLeads cfg s)
      (fun _ _ => True) s := by
  unfold prepareSendInit
  split
  · trivial
  refine (wpE_bind _ _ _).mpr (wpE_validateOr fun hpath => ?_)
  refine (wpE_bind _ _ _).mpr (wpE_mono ?_ (fun _ _ h => h)
    (wpE_resolveRecipient_named (fun _ _ _ => trivial) henv hto))
  rintro recipient _ ⟨hrecipient, rfl⟩
  refine (wpE_bind _ _ _).mpr (wpE_enforce_asked (fun _ _ _ _ => trivial) ?_)
  split
  · trivial
  simp only [wpE_bind, wpE_newId, wpE_now, wpE_pure]
  refine ⟨trivial, trivial, trivial, inboxPath recipient path, rfl, .inbox recipient, rfl, ?_⟩
  rintro p hp
  obtain rfl := List.mem_singleton.mp hp
  exact covers_inbox hrecipient (inward_of_validatePath hpath hne)

/-- `POST /uploads` is covered, and its session leads into the inbox it asked about. -/
theorem covered_createUploadSession {raw : SendManifest} {identity : Identity}
    (hne : steps path ≠ []) (henv : env.Direct) (hto : env.Names s.keys to_ (some identity.label)) :
    wpE (exec cfg env) (fun s' c => (AnyCall.plain c).Covered cfg.backend s.asked s')
      (createUploadSession cfg identity to_ path raw) (SessionLeads cfg s) (fun _ _ => True) s := by
  refine (wpE_tryCatch _ _).mpr (wpE_mono (fun _ _ h => h) (fun e s' _ => ?_)
    (covered_prepareSendInit hne henv hto))
  split <;> trivial

/-- `cassetta_send_init` is covered, and its session leads into the inbox it asked about. -/
theorem Mcp.covered_cassettaSendInit {raw : SendManifest} {caller : Mcp.Caller}
    (hne : steps path ≠ []) (henv : env.Direct) (hto : env.Names s.keys to_ caller.senderLabel) :
    wpE (exec cfg env) (fun s' c => (AnyCall.plain c).Covered cfg.backend s.asked s')
      (cassettaSendInit cfg caller to_ path raw) (SessionLeads cfg s) (fun _ _ => True) s := by
  refine (wpE_tryCatch _ _).mpr (wpE_mono (fun _ _ h => h) (fun e s' _ => ?_)
    (covered_prepareSendInit hne henv hto))
  split <;> trivial

end Sends

/-! The MCP tools -/

namespace Mcp

variable {caller : Caller} {path : String}

/-- `cassetta_put` is covered. -/
theorem covered_cassettaPut {content : String} {files : FilesArg} (hne : steps path ≠ []) :
    (cassettaPut cfg caller path content files).CoveredFrom cfg env s := by
  refine (wpE_bind _ _ _).mpr (wpE_validateOr fun hpath => ?_)
  have hcovers := @covers_store cfg.backend path path (inward_of_validatePath hpath hne)
  split
  · trivial
  split
  · trivial
  split
  · trivial
  refine covered_enforce ?_
  refine OnlyE.bind keeps_newId fun bundleId => ?_
  refine OnlyE.bind (keeps_deleteQuiet hcovers) fun _ => ?_
  refine OnlyE.bind (keeps_writeBundle hcovers _ _ _ _) fun _ => ?_
  refine OnlyE.bind (keeps_increment _) fun _ => ?_
  exact OnlyE.bind (keeps_increment _) fun _ => trivial

/-- `cassetta_get` is covered, and leads to its bundle alone. -/
theorem covered_cassettaGet (hne : steps path ≠ []) :
    (cassettaGet cfg caller path).CoveredFor cfg env s [storePath path] := by
  refine coveredFor_validated hne fun hcovers => ?_
  refine OnlyE.bind (keeps_readFreshOr hcovers _) fun m => ?_
  refine OnlyE.bind (keeps_increment _) fun _ => ?_
  split
  · exact OnlyE.bind (keeps_buildReferencePayloadForStore _ _ _) fun _ => trivial
  · refine OnlyE.bind (keeps_collectBundleFiles hcovers _) fun _ => ?_
    exact OnlyE.bind (keeps_increment _) fun _ => trivial

/-- `cassetta_delete` is covered. -/
theorem covered_cassettaDelete (hne : steps path ≠ []) :
    (cassettaDelete cfg caller path).CoveredFrom cfg env s :=
  covered_validated hne fun hcovers =>
    OnlyE.bind (keeps_deleteOr hcovers _) fun _ => keeps_increment _

/-- `cassetta_list` is covered, unless its prefix steps up. -/
theorem covered_cassettaList {pre : String} (hnamed : Named s.disk.tree)
    (hup : Step.up ∉ steps (lstripSlash pre)) :
    (cassettaList cfg caller pre).CoveredFrom cfg env s := by
  refine covered_storeListing hnamed hup fun refs hrefs => ?_
  refine OnlyE.bind (keeps_listingEntries _ hrefs) fun entries => ?_
  split
  · trivial
  · exact OnlyE.bind (keeps_increment _) fun _ => trivial

/-- `cassetta_inbox` is covered, unless its prefix steps up. -/
theorem covered_cassettaInbox {agent pre : String} (hnamed : Named s.disk.tree)
    (hagent : FileName (caller.target agent)) (hup : Step.up ∉ steps pre) :
    (cassettaInbox cfg caller agent pre).CoveredFrom cfg env s := by
  unfold cassettaInbox
  split
  · trivial
  refine (wpE_bind _ _ _).mpr (wpE_plain.mpr (wpE_enforce_asked (fun _ _ _ _ => trivial) ?_))
  refine (wpE_bind _ _ _).mpr (Inbox.wpE_listing_covered
    (s := s.havingAsked (.inbox (caller.target agent))) rfl (List.suffix_refl _) hnamed hagent hup
    fun entries s' hs' => ?_)
  refine ClaimHandler.Keeps.covered ?_ hs' (List.suffix_refl _)
  split
  · trivial
  · exact OnlyE.bind (keeps_increment _).plain fun _ => trivial

private theorem wpE_validatePickPath {guard : Server → Call → Prop} {Q : Unit → Server → Prop}
    (hQ : path = "latest" ∨ validatePath cfg.allowedPathChars path = .ok () → Q () s) :
    wpE (exec cfg env) guard (validatePickPath cfg path) Q (fun _ _ => True) s := by
  unfold validatePickPath
  split
  · rename_i hlatest
    exact hQ (.inl hlatest)
  · exact wpE_validateOr fun hpath => hQ (.inr hpath)

/-- `cassetta_pick` is covered, and leads to the bundles it may find. -/
theorem covered_cassettaPick (hnamed : Named s.disk.tree) (hagent : FileName (caller.target ""))
    (hne : steps path ≠ []) :
    (cassettaPick cfg caller path).CoveredFor cfg env s
      (pickTargets cfg s.disk (caller.target "") path) := by
  unfold cassettaPick
  split
  · trivial
  refine (wpE_bind _ _ _).mpr (wpE_plain.mpr (wpE_enforce_asked (fun _ _ _ _ => trivial) ?_))
  refine (wpE_bind _ _ _).mpr (wpE_plain.mpr (wpE_validatePickPath fun hpath => ?_))
  have hpick : Inbox.Pickable path := hpath.imp_right fun h => inward_of_validatePath h hne
  refine (wpE_bind _ _ _).mpr (wpE_plain.mpr (Inbox.wpE_resolvePick_covered
    (s := s.havingAsked (.inbox (caller.target ""))) rfl (List.suffix_refl _) hnamed hagent hpick
    fun found s' hs' hcovers => ?_))
  obtain ⟨bundlePath, m⟩ := found
  refine ClaimHandler.Keeps.covered_then ?_ hs' (List.suffix_refl _) fun _ _ hs'' =>
    Inbox.leads_pickTargets hnamed hagent hpick hs''
  refine OnlyE.bind (Inbox.keeps_consume hcovers _ _ _) fun _ => ?_
  exact OnlyE.bind (keeps_increment _).plain fun _ => trivial

/-- The agent and the path of a peek in an inbox. -/
def peekParts (path : String) : String × String := splitFirst (removePrefix path "inbox/")

/-- What a peek names leads down, and somewhere. -/
def PeeksInward (path : String) : Prop :=
  if startsWith path "inbox/" then
    FileName (peekParts path).1 ∧ steps (peekParts path).2 ≠ []
  else if startsWith path "store/" then steps (removePrefix path "store/") ≠ []
  else steps path ≠ []

instance (path : String) : Decidable (PeeksInward path) := by
  unfold PeeksInward
  infer_instance

private theorem append_removePrefix {pre : String} (h : startsWith path pre = true) :
    pre ++ removePrefix path pre = path := by
  obtain ⟨rest, hrest⟩ := List.isPrefixOf_iff_prefix.mp h
  have hpath : path = pre ++ String.ofList rest := by
    apply String.toList_injective
    rw [← hrest]
    simp
  rw [hpath, removePrefix_append]

private theorem splitFirst_append {t : String} (h : hasSlash t = true) :
    (splitFirst t).1 ++ "/" ++ (splitFirst t).2 = t := by
  have hmem : '/' ∈ t.toList := by simpa [hasSlash] using h
  have hsplit := List.takeWhile_append_dropWhile (p := (· ≠ '/')) (l := t.toList)
  have hrest : t.toList.dropWhile (· ≠ '/') = '/' :: (t.toList.dropWhile (· ≠ '/')).drop 1 := by
    cases hdrop : t.toList.dropWhile (· ≠ '/') with
    | nil =>
      rw [hdrop, List.append_nil] at hsplit
      have hall := List.all_takeWhile (p := (· ≠ '/')) (l := t.toList)
      rw [hsplit] at hall
      have hslash := List.all_eq_true.mp hall '/' hmem
      simp at hslash
    | cons c rest =>
      have hhead := List.head?_dropWhile_not (· ≠ '/') t.toList
      rw [hdrop] at hhead
      have hc : c = '/' := by simpa using hhead
      rw [hc]
      rfl
  apply String.toList_injective
  rw [hrest] at hsplit
  simpa [splitFirst, String.toList_append] using hsplit

/-- A peek that is let through names a bundle of the resource it asks about. -/
theorem covers_peekTarget (hpeek : PeeksInward path) {bundlePath counter : String}
    {resource : Resource} (h : peekTarget cfg path = .ok (bundlePath, resource, counter)) :
    cfg.backend.Covers resource bundlePath := by
  unfold peekTarget at h
  unfold PeeksInward at hpeek
  split at h
  · rename_i hinbox
    rw [if_pos hinbox] at hpeek
    dsimp only at h
    split at h
    · cases h
    rename_i hslash
    split at h
    · cases h
    rename_i hvalid
    cases h
    have hpath : inboxPath (peekParts path).1 (peekParts path).2 = path := by
      have hsplit := splitFirst_append (not_not.mp hslash)
      have hjoin := append_removePrefix hinbox
      rw [← hsplit, ← String.append_assoc, ← String.append_assoc] at hjoin
      exact hjoin
    have hin : Inward (peekParts path).2 := inward_of_validatePath hvalid hpeek.2
    have hcovers := @covers_inbox cfg.backend _ _ hpeek.1 hin
    rwa [hpath] at hcovers
  · rename_i hinbox
    rw [if_neg hinbox] at hpeek
    split at h
    · rename_i hstore
      rw [if_pos hstore] at hpeek
      split at h
      · cases h
      rename_i hvalid
      cases h
      have hpath : storePath (removePrefix path "store/") = path := append_removePrefix hstore
      rw [← hpath]
      exact covers_store _ (inward_of_validatePath hvalid hpeek)
    · rename_i hstore
      rw [if_neg hstore] at hpeek
      split at h
      · cases h
      rename_i hvalid
      cases h
      exact covers_store _ (inward_of_validatePath hvalid hpeek)

/-- `cassetta_peek` is covered. -/
theorem covered_cassettaPeek (hpeek : PeeksInward path) :
    (cassettaPeek cfg caller path).CoveredFrom cfg env s := by
  unfold cassettaPeek
  split
  · trivial
  rename_i bundlePath resource counter htarget
  have hcovers := covers_peekTarget hpeek htarget
  refine covered_enforce (OnlyE.bind (keeps_peekFreshOr hcovers _) fun m => ?_)
  exact OnlyE.bind (keeps_increment _) fun _ => trivial

/-- `cassetta_broadcast` is covered, where the collaborators name direct inboxes. -/
theorem covered_cassettaBroadcast {overHttp : Bool} {content : String} {files : FilesArg}
    (hne : steps path ≠ []) (henv : env.Direct) :
    (cassettaBroadcast cfg caller overHttp path content files).CoveredFrom cfg env s := by
  have hincrement : ∀ (counter : Counter) (e : Exc) (s' : Server),
      wpE (exec cfg env) (fun s'' c => (AnyCall.plain c).Covered cfg.backend s.asked s'')
        (increment counter >>= fun _ => throw e : Handler BroadcastReport) (fun _ _ => True)
        (fun _ _ => True) s' := by
    intro counter e s'
    simp only [increment, wpE_bind, wpE_tryIncrement, wpE_orCollaborator]
    refine ⟨trivial, ?_⟩
    split <;> trivial
  have hadmitted : ∀ admitted : Bool,
      (broadcastAdmitted cfg caller path content files admitted).CoveredFrom cfg env s := by
    intro admitted
    unfold broadcastAdmitted
    split
    · exact hincrement _ _ _
    refine (wpE_bind _ _ _).mpr (wpE_validateOr fun hpath => ?_)
    split
    · trivial
    split
    · trivial
    refine (wpE_tryCatch _ _).mpr (wpE_mono (fun _ _ h => h) (fun e s' _ => ?_)
      (covered_fanOut (inward_of_validatePath hpath hne) henv (List.suffix_refl _)))
    split
    · exact hincrement _ _ _
    · trivial
  rw [cassettaBroadcast_eq]
  split
  · exact (wpE_bind _ _ _).mpr (wpE_checkRateLimit.mpr ⟨trivial, hadmitted _⟩)
  · exact hadmitted true

end Mcp

end Surfaces

end Cassetta
