import Cassetta.Guarantee.Standing
import Cassetta.Server.Looking
import Cassetta.Server.Reading

/-!
# A listing and a pick at the same instant

A listing hides a bundle while a sidecar for its path is young enough; a pick in reference mode
is refused while there is a lock for its path; and a pick in inline mode looks at neither. A listing
fails at one manifest that cannot be read, wherever it is; a pick reads its own alone, and over REST
its path has to go through a URL and a head. This module puts the two next to each other and says
exactly of which bundles they tell the same.
-/

namespace Cassetta

open Prog FileTree

variable {cfg : Config} {env : Environment} {g : Garble cfg.backend} {s s' : Server}
  {agent : String}

/-! ## The bundles of an inbox -/

/-- Where the bundles of an inbox lie. -/
def Backend.inboxLoc (b : Backend) (agent : String) : List String := b.dataLoc ++ ["inbox", agent]

/-- The path a bundle of an inbox is listed under. -/
def listedPath (x : List String) : String := "/".intercalate x

private theorem steps_listedPath {x : List String} (hne : x ≠ []) (hx : ∀ k ∈ x, FileName k) :
    steps (listedPath x) = spell x := by
  have hname : x = (spell x).map Backend.stepName := by
    simp [spell, Function.comp_def, Backend.stepName]
  have hspell : spell x ≠ [] := by simpa [spell] using hne
  have hsteps := (Backend.steps_intercalate hspell (proper_spell hx)).1
  rw [← hname] at hsteps
  exact hsteps

/-- Locations are listed under paths of their own. -/
theorem listedPath_inj {x y : List String} (hx : x ≠ []) (hy : y ≠ []) (hxn : ∀ k ∈ x, FileName k)
    (hyn : ∀ k ∈ y, FileName k) (h : listedPath x = listedPath y) : x = y := by
  have hsteps := congrArg steps h
  rw [steps_listedPath hx hxn, steps_listedPath hy hyn] at hsteps
  rw [← normalize_spell x, hsteps, normalize_spell]

private theorem inboxPath_append (agent path : String) :
    inboxPath agent path = inboxPath agent "" ++ path := by
  simp [inboxPath]

/-- The path of a bundle in an inbox, without the inbox. -/
theorem removePrefix_inboxPath (agent path : String) :
    removePrefix (inboxPath agent path) (inboxPath agent "") = path := by
  rw [inboxPath_append, removePrefix_append]

section Paths

variable {b : Backend} (hagent : FileName agent)
include hagent

/-- A path in an inbox resolves below it. -/
theorem resolve_inboxSteps (path : String) :
    b.resolve (inboxPath agent path) = spell (b.inboxLoc agent) ++ steps path := by
  have hrel : isAbsolute (inboxPath agent path) = false := by
    simp [isAbsolute, startsWith, inboxPath, List.isPrefixOf]
  have hinbox : steps "inbox" = spell ["inbox"] := by decide
  have hname : steps agent = spell [agent] := by
    rw [steps, segments_of_not_mem hagent.2]
    simp [hagent.1, spell]
  rw [Backend.resolve, joinPath, hrel, inboxPath, steps_append_slash, steps_append_slash, hinbox,
    hname, Backend.inboxLoc, spell_append, ← b.dataRoot_eq]
  simp [spell]

/-- The inbox of an agent. -/
theorem resolve_inbox : b.resolve (inboxPath agent "") = spell (b.inboxLoc agent) := by
  have hempty : steps "" = [] := by decide
  rw [resolve_inboxSteps hagent, hempty, List.append_nil]

/-- A listed path resolves to its location. -/
theorem resolve_inboxPath {x : List String} (hne : x ≠ []) (hx : ∀ k ∈ x, FileName k) :
    b.resolve (inboxPath agent (listedPath x)) = spell (b.inboxLoc agent ++ x) := by
  rw [resolve_inboxSteps hagent, steps_listedPath hne hx, spell_append]

/-- A location below an inbox is listed under its path. -/
theorem relPosix_inbox {x : List String} (hne : x ≠ []) :
    b.relPosix (b.resolve (inboxPath agent "") ++ spell x) = inboxPath agent (listedPath x) := by
  have hpath : b.resolve (inboxPath agent "") ++ spell x =
      spell (b.dataLoc ++ ("inbox" :: agent :: x)) := by
    rw [resolve_inbox hagent, ← spell_append, Backend.inboxLoc]
    simp
  have hdrop : (b.resolve (inboxPath agent "") ++ spell x).drop b.dataRoot.length =
      spell ("inbox" :: agent :: x) := by
    rw [hpath, b.drop_dataRoot]
  have hjoin : "/".intercalate ("inbox" :: agent :: x) = inboxPath agent (listedPath x) := by
    rw [String.intercalate_cons_of_ne_nil (by simp), String.intercalate_cons_of_ne_nil hne]
    simp [inboxPath, listedPath, String.append_assoc]
  unfold Backend.relPosix
  rw [hdrop]
  simpa [spell, Function.comp_def] using hjoin

end Paths

/-! ## The same instant -/

/-- The server with its clock stopped: what is asked now is asked at the same instant. -/
def Server.frozen (s : Server) : Server := { s with lag := fun _ => 0 }

/-- The clock is stopped, and nothing else than the number of its readings changes. -/
structure Instant (s s' : Server) : Prop where
  still : s'.lag = fun _ => 0
  disk : s'.disk = s.disk
  claims : s'.claims = s.claims
  nextId : s'.nextId = s.nextId
  wall : s'.wall = s.wall

/-- Two instants in a row are one. -/
theorem Instant.trans {s₁ s₂ s₃ : Server} (h : Instant s₁ s₂) (h' : Instant s₂ s₃) :
    Instant s₁ s₃ :=
  ⟨h'.still, h'.disk.trans h.disk, h'.claims.trans h.claims, h'.nextId.trans h.nextId,
    h'.wall.trans h.wall⟩

/-- The clock reads what it showed at first. -/
theorem Instant.reading (h : Instant s s') : s'.reading = s.wall := by
  rw [Server.reading, h.still, Nat.add_zero, h.wall]

/-- Reading the clock takes no time. -/
theorem Instant.timed (h : Instant s s') : Instant s s'.timed := by
  refine ⟨h.still, h.disk, h.claims, h.nextId, ?_⟩
  show s'.wall + s'.lag s'.clockReads = s.wall
  rw [h.still, Nat.add_zero, h.wall]

/-- A server whose clock stands is at one instant. -/
theorem Instant.refl (h : s.lag = fun _ => 0) : Instant s s := ⟨h, rfl, rfl, rfl, rfl⟩

/-- Asking the access policy takes no time. -/
theorem Instant.ask (h : Instant s s') (resource : Resource) :
    Instant s { s' with asked := resource :: s'.asked } :=
  ⟨h.still, h.disk, h.claims, h.nextId, h.wall⟩

section Fragments

variable {s₀ : Server} (h : Instant s₀ s)
include h

/-- At one instant, the expiry check says what is past its time. -/
theorem instant_isExpiredByMeta (createdAt : Nat) :
    Returns (exec cfg env) (isExpiredByMeta cfg createdAt)
      (fun expired s' => Instant s₀ s' ∧ (expired = true ↔ PastTtl cfg createdAt s₀.wall)) s := by
  unfold isExpiredByMeta
  split
  · rename_i httl
    exact ⟨h, by simp [PastTtl, httl]⟩
  · rename_i httl
    refine (wpE_bind _ _ _).mpr (wpE_now_reading.mpr ⟨trivial, ?_⟩)
    refine ⟨h.timed, ?_⟩
    rw [h.reading, decide_eq_true_iff, PastTtl, and_iff_right httl]

private theorem instant_computeRemainingTtl (createdAt : Nat) :
    Returns (exec cfg env) (computeRemainingTtl cfg createdAt) (fun _ s' => Instant s₀ s') s := by
  unfold computeRemainingTtl
  split
  · exact h
  · exact (wpE_bind _ _ _).mpr (wpE_now_reading.mpr ⟨trivial, h.timed⟩)

end Fragments

/-- A bundle at a path, with its manifest, that is not past its time. -/
def Fresh (cfg : Config) (s : Server) (path : String) (m : BundleMeta) : Prop :=
  cfg.backend.readBundleMeta s.disk.tree path = some m ∧ ¬PastTtl cfg m.createdAt s.wall

/-! ## The listing -/

/-- What a listing shows of a path: the manifest there, when its time is not up. -/
def shown (cfg : Config) (s : Server) (base path : String) : Option (String × BundleMeta) :=
  (cfg.backend.readBundleMeta s.disk.tree path).bind fun m =>
    if PastTtl cfg m.createdAt s.wall then none else some (removePrefix path base, m)

/-- What is shown is a fresh bundle, under its path in the listing. -/
theorem shown_eq_some_iff {base path p : String} {m : BundleMeta} :
    shown cfg s base path = some (p, m) ↔ Fresh cfg s path m ∧ removePrefix path base = p := by
  rw [shown, Option.bind_eq_some_iff, Fresh]
  constructor
  · rintro ⟨m', hread, hm⟩
    split at hm
    · cases hm
    · rename_i hfresh
      cases hm
      exact ⟨⟨hread, hfresh⟩, rfl⟩
  · rintro ⟨⟨hread, hfresh⟩, rfl⟩
    exact ⟨m, hread, if_neg hfresh⟩

/-- A listing shows the fresh ones of the bundles it goes through, in their order. -/
theorem instant_shown {s₀ : Server} (h : Instant s₀ s) (base : String) (paths : List String) :
    Returns (exec cfg env) (listingEntries cfg base paths)
      (fun entries s' => Instant s₀ s' ∧
        entries.map (fun e => (e.path, e.bundle)) = paths.filterMap (shown cfg s₀ base)) s := by
  induction paths generalizing s with
  | nil => exact ⟨h, rfl⟩
  | cons path rest ih =>
    have hskip : shown cfg s₀ base path = none → ∀ {s₁ : Server}, Instant s₀ s₁ →
        Returns (exec cfg env) (listingEntries cfg base rest)
          (fun entries s' => Instant s₀ s' ∧ entries.map (fun e => (e.path, e.bundle)) =
            (path :: rest).filterMap (shown cfg s₀ base)) s₁ := by
      intro hnone s₁ h₁
      rw [List.filterMap_cons_none hnone]
      exact ih h₁
    unfold listingEntries
    refine (wpE_bind _ _ _).mpr (wpE_readBundleMeta.mpr ⟨trivial, ?_⟩)
    rw [h.disk]
    cases hread : cfg.backend.readBundleMeta s₀.disk.tree path with
    | none => exact hskip (by rw [shown, hread]; rfl) h
    | some m =>
      refine (wpE_bind _ _ _).mpr (wpE_mono (fun expired s₁ hexp => ?_) (fun _ _ hfalse => hfalse)
        (instant_isExpiredByMeta h m.createdAt))
      split
      · rename_i hpast
        refine hskip ?_ hexp.1
        rw [shown, hread]
        exact if_pos (hexp.2.mp hpast)
      · rename_i hfresh
        have hshown : shown cfg s₀ base path = some (removePrefix path base, m) :=
          shown_eq_some_iff.mpr ⟨⟨hread, fun hpast => hfresh (hexp.2.mpr hpast)⟩, rfl⟩
        refine (wpE_bind _ _ _).mpr (wpE_mono (fun remaining s₂ h₂ => ?_)
          (fun _ _ hfalse => hfalse) (instant_computeRemainingTtl hexp.1 m.createdAt))
        refine (wpE_bind _ _ _).mpr (wpE_mono (fun others s₃ hrest => ?_)
          (fun _ _ hfalse => hfalse) (ih h₂))
        refine ⟨hrest.1, ?_⟩
        rw [List.filterMap_cons_some hshown, ← hrest.2]
        rfl

/-- Which paths a listing shows. -/
theorem instant_listingEntries {s₀ : Server} (h : Instant s₀ s) (base : String)
    (paths : List String) :
    Returns (exec cfg env) (listingEntries cfg base paths)
      (fun entries s' => Instant s₀ s' ∧ ∀ p, (∃ e ∈ entries, e.path = p) ↔
        ∃ path ∈ paths, (∃ m, Fresh cfg s₀ path m) ∧ removePrefix path base = p) s := by
  refine wpE_mono (fun entries s' hentries => ⟨hentries.1, fun p => ?_⟩) (fun _ _ hfalse => hfalse)
    (instant_shown h base paths)
  have hpair : (∃ e ∈ entries, e.path = p) ↔
      ∃ m, (p, m) ∈ entries.map fun e => (e.path, e.bundle) := by
    simp only [List.mem_map, Prod.mk.injEq]
    constructor
    · rintro ⟨e, he, rfl⟩
      exact ⟨e.bundle, e, he, rfl, rfl⟩
    · rintro ⟨m, e, he, hp, -⟩
      exact ⟨e, he, hp⟩
  rw [hpair, hentries.2]
  simp only [List.mem_filterMap, shown_eq_some_iff]
  constructor
  · rintro ⟨m, path, hpath, hfresh, hp⟩
    exact ⟨path, hpath, ⟨m, hfresh⟩, hp⟩
  · rintro ⟨path, hpath, ⟨m, hfresh⟩, hp⟩
    exact ⟨m, path, hpath, hfresh, hp⟩

/-- A sidecar on a path that is young enough. -/
def ActiveClaim (cfg : Config) (s : Server) (path : String) : Prop :=
  ∃ c ∈ s.claims.sidecars, c.bundlePath = path ∧
    s.wall < c.createdAt + secondsToMicros cfg.limits.downloadClaimTtl

/-- A sidecar on a path. -/
def HasClaim (s : Server) (path : String) : Prop := ∃ c ∈ s.claims.sidecars, c.bundlePath = path

/-- A bundle with an active claim has a claim. -/
theorem ActiveClaim.hasClaim {path : String} (h : ActiveClaim cfg s path) : HasClaim s path := by
  obtain ⟨c, hc, hp, -⟩ := h
  exact ⟨c, hc, hp⟩

/-- At one instant, what is hidden are the bundles with active claims. -/
theorem instant_hiddenPaths {s₀ : Server} (h : Instant s₀ s) :
    Returns (execAny cfg env) (Inbox.hiddenPaths cfg)
      (fun hidden s' => Instant s₀ s' ∧ ∀ p, p ∈ hidden ↔ ActiveClaim cfg s₀ p) s := by
  unfold Inbox.hiddenPaths
  refine (wpE_bind _ _ _).mpr (wpE_plain.mpr (wpE_now_reading.mpr ⟨trivial, ?_⟩))
  refine (wpE_bind _ _ _).mpr (wpE_iterClaims.mpr ⟨trivial, h.timed, fun p => ?_⟩)
  rw [h.reading, h.timed.claims]
  simp only [List.mem_map, List.mem_filter, decide_eq_true_eq, ActiveClaim, and_assoc]
  constructor
  · rintro ⟨c, hc, hactive, hp⟩
    exact ⟨c, hc, hp, hactive⟩
  · rintro ⟨c, hc, hp, hactive⟩
    exact ⟨c, hc, hactive, hp⟩

/-- What a listing of an inbox shows, in terms of what the backend lists there. -/
theorem instant_listing {s₀ : Server} (h : Instant s₀ s) {refs : List Backend.BundleRef}
    (hrefs : cfg.backend.listBundles s₀.disk (inboxPath agent "") false = .ok refs) :
    Returns (execAny cfg env) (Inbox.listing cfg agent "")
      (fun entries _ => ∀ p, (∃ e ∈ entries, e.path = p) ↔
        ∃ r ∈ refs, ¬ActiveClaim cfg s₀ r.path ∧ (∃ m, Fresh cfg s₀ r.path m) ∧
          removePrefix r.path (inboxPath agent "") = p) s := by
  unfold Inbox.listing
  refine (wpE_bind _ _ _).mpr (wpE_mono (fun hidden s₁ hhidden => ?_) (fun _ _ hfalse => hfalse)
    (instant_hiddenPaths h))
  have hlist :
    runE (exec cfg env) (listBundles (inboxPath agent "") false) s₁ = (.ok refs, s₁) := by
    rw [runE_listBundles, hhidden.1.disk, hrefs]
  refine (wpE_bind _ _ _).mpr (wpE_plain.mpr (returns_iff_run.mpr ⟨refs, s₁, hlist, ?_⟩))
  refine (wpE_bind _ _ _).mpr (wpE_plain.mpr ?_)
  refine wpE_mono (fun entries s₂ hentries p => ?_) (fun _ _ hfalse => hfalse)
    (instant_listingEntries hhidden.1 (inboxPath agent "")
      ((refs.map (·.path)).filter (· ∉ hidden)))
  have hsort : (∃ e ∈ newestFirst entries, e.path = p) ↔ ∃ e ∈ entries, e.path = p := by
    simp only [newestFirst, List.mem_insertionSort]
  rw [hsort, hentries.2 p]
  simp only [List.mem_filter, List.mem_map, decide_eq_true_eq, hhidden.2]
  constructor
  · rintro ⟨_, ⟨⟨r, hr, rfl⟩, hno⟩, hfresh, hp⟩
    exact ⟨r, hr, hno, hfresh, hp⟩
  · rintro ⟨r, hr, hno, hfresh, hp⟩
    exact ⟨r.path, ⟨⟨r, hr, rfl⟩, hno⟩, hfresh, hp⟩

/-- A bundle is listed when the walk comes to it, no young sidecar hides it and its time is not
up. -/
theorem returns_listing_iff (hagent : FileName agent) (hnamed : Named s.disk.tree)
    (hstill : s.lag = fun _ => 0) {x : List String} (hne : x ≠ []) {m : BundleMeta}
    (hm : cfg.backend.metaAt s.disk.tree (cfg.backend.inboxLoc agent ++ x) = some m) :
    Returns (execAny cfg env) (Inbox.listing cfg agent "")
        (fun entries _ => ∃ e ∈ entries, e.path = listedPath x) s ↔
      Backend.Visited s.disk.tree (cfg.backend.inboxLoc agent) x ∧
        ¬ActiveClaim cfg s (inboxPath agent (listedPath x)) ∧
        ¬PastTtl cfg m.createdAt s.wall := by
  have hnames : ∀ k ∈ x, FileName k := fun k hk =>
    hnamed _ _ (Backend.dir_of_metaAt hm) k (List.mem_append_right _ hk)
  have hloc : cfg.backend.location (inboxPath agent "") = cfg.backend.inboxLoc agent := by
    rw [Backend.location, resolve_inbox hagent, normalize_spell]
  have hread :
    cfg.backend.readBundleMeta s.disk.tree (inboxPath agent (listedPath x)) = some m := by
    rw [Backend.readBundleMeta_eq (resolve_inboxPath hagent hne hnames), hm]
  have hbelow : cfg.backend.dataRoot <+: cfg.backend.resolve (inboxPath agent "") := by
    rw [resolve_inbox hagent, Backend.inboxLoc, spell_append, ← Backend.dataRoot_eq]
    exact List.prefix_append _ _
  obtain ⟨refs, hrefs⟩ := Backend.listBundles_ok hbelow s.disk false
  refine returns_iff_of (wpE_mono (fun entries s' hentries => ?_) (fun _ _ hfalse => hfalse)
    (instant_listing (Instant.refl hstill) hrefs))
  rw [hentries]
  constructor
  · rintro ⟨r, hr, hno, ⟨m', hfresh⟩, hp⟩
    obtain ⟨-, y, hv, hpath, -⟩ := (Backend.mem_listBundles_iff hrefs).mp hr
    rw [hloc] at hv
    rw [relPosix_inbox hagent hv.1] at hpath
    rw [hpath, removePrefix_inboxPath] at hp
    have hynames : ∀ k ∈ y, FileName k := fun k hk =>
      hnamed _ _ hv.2.1 k (List.mem_append_right _ hk)
    obtain rfl := listedPath_inj hv.1 hne hynames hnames hp
    rw [hpath] at hno hfresh
    obtain rfl := Option.some.inj (hread.symm.trans hfresh.1)
    exact ⟨hv, hno, hfresh.2⟩
  · rintro ⟨hv, hno, hfresh⟩
    have hdir : s.disk.tree.isDir (cfg.backend.resolve (inboxPath agent "")) = true := by
      rw [resolve_inbox hagent, Tree.isDir_spell]
      exact Tree.get_of_prefix (List.prefix_append _ x) (by simpa using hne)
        (Backend.dir_of_metaAt hm)
    obtain ⟨blob, hblob, -⟩ := Backend.metaAt_some hm
    have hfile : bundleManifest ∈
        Backend.fileNames s.disk.tree (cfg.backend.inboxLoc agent ++ x) :=
      Backend.mem_fileNames.mpr ⟨blob, Tree.fileAt_eq_some_iff.mpr hblob⟩
    refine ⟨⟨inboxPath agent (listedPath x), true,
      s.disk.mtime (cfg.backend.inboxLoc agent ++ x)⟩, ?_, hno, ⟨m, hread, hfresh⟩,
      removePrefix_inboxPath agent _⟩
    refine (Backend.mem_listBundles_iff hrefs).mpr ⟨hdir, x, ?_, ?_, ?_⟩
    · rwa [hloc]
    · rw [relPosix_inbox hagent hne]
    · rw [hloc]
      exact ⟨rfl, .inl ⟨hfile, rfl⟩⟩

/-! ## What a listing reads -/

/-- Every manifest that a listing of an inbox reads can be read: all that the walk comes to and no
young sidecar hides. -/
def ListingReadable (cfg : Config) (g : Garble cfg.backend) (s : Server) (agent : String) : Prop :=
  ∀ x, Backend.Visited s.disk.tree (cfg.backend.inboxLoc agent) x →
    ¬ActiveClaim cfg s (inboxPath agent (listedPath x)) →
    cfg.backend.garbledAt g s.disk.tree (cfg.backend.inboxLoc agent ++ x) = false

section Walk

variable {refs : List Backend.BundleRef} (hagent : FileName agent) (hnamed : Named s.disk.tree)
  (hrefs : cfg.backend.listBundles s.disk (inboxPath agent "") false = .ok refs)
include hagent hrefs

/-- The paths the backend lists for an inbox. -/
theorem path_of_inboxRef {r : Backend.BundleRef} (hr : r ∈ refs) :
    ∃ x, Backend.Visited s.disk.tree (cfg.backend.inboxLoc agent) x ∧
      r.path = inboxPath agent (listedPath x) := by
  obtain ⟨-, x, hv, hpath, -⟩ := (Backend.mem_listBundles_iff hrefs).mp hr
  rw [Backend.location, resolve_inbox hagent, normalize_spell] at hv
  rw [relPosix_inbox hagent hv.1] at hpath
  exact ⟨x, hv, hpath⟩

/-- The walk comes to a directory with a manifest, and it is listed. -/
theorem exists_inboxRef {x : List String}
    (hv : Backend.Visited s.disk.tree (cfg.backend.inboxLoc agent) x)
    (hmanifest : bundleManifest ∈ Backend.fileNames s.disk.tree (cfg.backend.inboxLoc agent ++ x)) :
    ∃ r ∈ refs, r.path = inboxPath agent (listedPath x) := by
  have hloc : cfg.backend.location (inboxPath agent "") = cfg.backend.inboxLoc agent := by
    rw [Backend.location, resolve_inbox hagent, normalize_spell]
  have hdir : s.disk.tree.isDir (cfg.backend.resolve (inboxPath agent "")) = true := by
    rw [resolve_inbox hagent, Tree.isDir_spell]
    exact Tree.get_of_prefix (List.prefix_append _ x) (by simpa using hv.1) hv.2.1
  refine ⟨⟨inboxPath agent (listedPath x), true,
    s.disk.mtime (cfg.backend.inboxLoc agent ++ x)⟩, ?_, rfl⟩
  refine (Backend.mem_listBundles_iff hrefs).mpr ⟨hdir, x, ?_, ?_, ?_⟩
  · rwa [hloc]
  · rw [relPosix_inbox hagent hv.1]
  · rw [hloc]
    exact ⟨rfl, .inl ⟨hmanifest, rfl⟩⟩

include hnamed

/-- The manifests of some of the listed paths, as the walk comes to them. -/
theorem readable_inbox_iff (p : String → Prop) :
    (∀ r ∈ refs, p r.path → cfg.backend.garbled g s.disk.tree r.path = false) ↔
      ∀ x, Backend.Visited s.disk.tree (cfg.backend.inboxLoc agent) x →
        p (inboxPath agent (listedPath x)) →
        cfg.backend.garbledAt g s.disk.tree (cfg.backend.inboxLoc agent ++ x) = false := by
  have hgarbled : ∀ {x : List String},
      Backend.Visited s.disk.tree (cfg.backend.inboxLoc agent) x →
      cfg.backend.garbled g s.disk.tree (inboxPath agent (listedPath x)) =
        cfg.backend.garbledAt g s.disk.tree (cfg.backend.inboxLoc agent ++ x) := fun hv =>
    Backend.garbled_eq (resolve_inboxPath hagent hv.1 fun k hk =>
      hnamed _ _ hv.2.1 k (List.mem_append_right _ hk))
  constructor
  · intro h x hv hp
    rw [← Bool.not_eq_true]
    intro hbad
    have hmanifest := hbad
    rw [Backend.garbledAt, Option.any_eq_true] at hmanifest
    obtain ⟨blob, hblob, -⟩ := hmanifest
    obtain ⟨r, hr, hpath⟩ :=
      exists_inboxRef hagent hrefs hv (Backend.mem_fileNames.mpr ⟨blob, hblob⟩)
    have hclear := h r hr (by rwa [hpath])
    rw [hpath, hgarbled hv, hbad] at hclear
    cases hclear
  · intro h r hr hp
    obtain ⟨x, hv, hpath⟩ := path_of_inboxRef hagent hrefs hr
    rw [hpath] at hp
    rw [hpath, hgarbled hv]
    exact h x hv hp

end Walk

/-! ## The pick -/

/-- Whether a pick that has found a bundle goes through: by reference when there is no claim on
its path, and inline when every file can be read. -/
def Obtainable (cfg : Config) (s : Server) (path : String) (m : BundleMeta) : Prop :=
  match evaluateDownload cfg.limits m.totalSize with
  | .reference => ¬HasClaim s path
  | .inline => ∀ f ∈ m.files,
      (cfg.backend.openBundleFileRead s.disk.tree path f.name).isSome = true

private theorem returns_issue_iff {claim : ClaimRecord} (ref : ReferenceEnvelope)
    (hfree : s.claims.get claim.jti = none) :
    Returns (execAny cfg env) (do
        match ← issueClaim claim with
        | .ok () => pure ref
        | .error _ => throw .bundleClaimed) (fun ref' _ => ref'.bundle = ref.bundle) s ↔
      s.claims.locked claim.bundlePath = false := by
  refine (wpE_bind _ _ _).trans (wpE_issueClaim.trans ?_)
  rw [true_and]
  unfold ClaimStore.issue
  by_cases hlock : s.claims.locked claim.bundlePath = true
  · rw [if_pos hlock]
    simp [hlock]
  · rw [if_neg hlock, hfree]
    simp [hlock]

/-- A reference is handed out for a path without a claim. -/
theorem instant_reference {s₀ : Server} (h : Instant s₀ s) (hs : Standing s₀) (path : String)
    (m : BundleMeta) :
    Returns (execAny cfg env) (buildReferencePayloadForInbox cfg path m agent true)
        (fun ref _ => ref.bundle = m) s ↔ ¬HasClaim s₀ path := by
  have hlocked : s₀.claims.locked path = false ↔ ¬HasClaim s₀ path := by
    rw [← Bool.not_eq_true]
    exact not_congr hs.paired.locked_iff
  have hfree : s₀.claims.get s₀.nextId = none := by
    cases hget : s₀.claims.get s₀.nextId with
    | none => rfl
    | some c =>
      obtain ⟨hc, hj⟩ := (ClaimStore.get_eq_some hs.paired.toSound).mp hget
      have hlt := hs.used c hc
      rw [hj] at hlt
      exact absurd hlt (lt_irrefl _)
  rw [← h.claims] at hlocked hfree
  rw [← h.nextId] at hfree
  unfold buildReferencePayloadForInbox
  refine (wpE_bind _ _ _).trans (wpE_plain.trans ?_)
  refine (wpE_bind _ _ _).trans (wpE_now_reading.trans ?_)
  rw [true_and]
  refine (wpE_bind _ _ _).trans (wpE_newId.trans ?_)
  rw [true_and, wpE_pure]
  simp only [if_true]
  refine (wpE_bind _ _ _).trans (wpE_plain.trans (wpE_now_reading.trans ?_))
  rw [true_and]
  exact (returns_issue_iff _ hfree).trans hlocked

/-- Collecting the files of a bundle goes through when every one can be read. -/
theorem returns_collect_iff {path : String} {files : List FileRecord}
    {Q : List (String × Bytes) → Server → Prop} (hQ : ∀ payloads, Q payloads s) :
    Returns (exec cfg env) (collectBundleFiles path files) Q s ↔
      ∀ f ∈ files, (cfg.backend.openBundleFileRead s.disk.tree path f.name).isSome = true := by
  induction files generalizing Q with
  | nil => simp [collectBundleFiles, hQ]
  | cons f rest ih =>
    unfold collectBundleFiles
    refine (wpE_bind _ _ _).trans (wpE_openBundleFileRead.trans ?_)
    rw [true_and, List.forall_mem_cons]
    refine (wpE_bind _ _ _).trans (wpE_orRaise.trans ?_)
    cases cfg.backend.openBundleFileRead s.disk.tree path f.name with
    | none => simp
    | some data =>
      simp only [Option.isSome_some, true_and]
      exact (wpE_bind _ _ _).trans (ih fun payloads => hQ _)

/-- The rest of a pick, once the bundle is found. -/
theorem instant_consume {s₀ : Server} (h : Instant s₀ s) (hs : Standing s₀) {path : String}
    {loc : List String} (hspell : cfg.backend.resolve path = spell loc) (hne : loc ≠ [])
    (m : BundleMeta) (missing : Exc) :
    Returns (execAny cfg env) (Inbox.consume cfg agent path m missing)
        (fun envelope _ => envelope.manifest = m) s ↔ Obtainable cfg s₀ path m := by
  unfold Inbox.consume Obtainable
  cases evaluateDownload cfg.limits m.totalSize with
  | reference =>
    refine (wpE_bind _ _ _).trans ((wpE_tryCatch _ _).trans ?_)
    rw [← instant_reference h hs path m]
    refine iff_of_eq (congrArg (fun E => wpE (execAny cfg env) (fun _ _ => True)
      (buildReferencePayloadForInbox cfg path m agent true) (fun ref _ => ref.bundle = m) E s) ?_)
    funext e s'
    by_cases he : e = .bundleClaimed <;> simp [he]
  | inline =>
    refine (wpE_bind _ _ _).trans (wpE_plain.trans ?_)
    rw [← h.disk]
    refine returns_collect_iff fun payloads => ?_
    exact (wpE_bind _ _ _).mpr (wpE_plain.mpr (returns_iff_run.mpr
      ⟨(), _, runE_deleteQuiet_spelled hspell hne s, rfl⟩))

/-- A read finds a bundle that is not past its time. -/
theorem instant_readFreshOr {s₀ : Server} (h : Instant s₀ s) {path : String} {m : BundleMeta}
    (hread : cfg.backend.readBundleMeta s₀.disk.tree path = some m) (missing : Exc)
    {Q : BundleMeta → Server → Prop} {P : Prop} (hQ : ∀ s', Instant s₀ s' → (Q m s' ↔ P)) :
    Returns (exec cfg env) (readFreshOr cfg path missing) Q s ↔
      ¬PastTtl cfg m.createdAt s₀.wall ∧ P := by
  have hmeta : runE (exec cfg env) (readMetaOr path missing) s = (.ok m, s) := by
    have hcall := @runE_readBundleMeta_plain cfg env path s
    rw [readMetaOr, runE_bind_ok hcall, h.disk, hread]
    rfl
  obtain ⟨expired, s₁, hexpired, h₁, hiff⟩ :=
    returns_iff_run.mp (@instant_isExpiredByMeta cfg env s s₀ h m.createdAt)
  rw [returns_iff_run, readFreshOr, runE_bind_ok hmeta, runE_bind_ok hexpired]
  by_cases hpast : PastTtl cfg m.createdAt s₀.wall
  · rw [if_pos (hiff.mpr hpast), runE_bind]
    simp only [hpast, not_true_eq_false, false_and, iff_false]
    rintro ⟨a, s', hrun, -⟩
    rcases hdel : runE (exec cfg env) (deleteQuiet path) s₁ with ⟨r, s₂⟩
    rw [hdel] at hrun
    cases r <;> cases hrun
  · rw [if_neg fun he => hpast (hiff.mp he), ← hQ s₁ h₁]
    simp [hpast]

section Picking

variable {s₀ : Server} {path : String} {m : BundleMeta}

/-- A pick of a path goes on with the bundle there, when it is fresh. -/
theorem instant_resolvePick (h : Instant s₀ s) (hlatest : path ≠ "latest")
    (hread : cfg.backend.readBundleMeta s₀.disk.tree (inboxPath agent path) = some m)
    (noFiles missing : Exc) {Q : String × BundleMeta → Server → Prop} {P : Prop}
    (hQ : ∀ s', Instant s₀ s' → (Q (inboxPath agent path, m) s' ↔ P)) :
    Returns (exec cfg env) (Inbox.resolvePick cfg agent path noFiles missing) Q s ↔
      ¬PastTtl cfg m.createdAt s₀.wall ∧ P := by
  unfold Inbox.resolvePick
  rw [if_neg hlatest]
  refine (wpE_bind _ _ _).trans ?_
  simp only [wpE_pure]
  exact instant_readFreshOr h hread missing hQ

end Picking

/-- The bundle of a pick of a path is found whatever else cannot be read. -/
theorem returns_reading_resolvePick {path : String} (hlatest : path ≠ "latest")
    (hclear : cfg.backend.garbled g s.disk.tree (inboxPath agent path) = false)
    (noFiles missing : Exc) {Q : String × BundleMeta → Server → Prop} :
    Returns (execReading cfg env g) (Inbox.resolvePick cfg agent path noFiles missing) Q s ↔
      Returns (exec cfg env) (Inbox.resolvePick cfg agent path noFiles missing) Q s := by
  have hrun : runE (execReading cfg env g) (Inbox.resolvePick cfg agent path noFiles missing) s =
      runE (exec cfg env) (Inbox.resolvePick cfg agent path noFiles missing) s := by
    rw [Inbox.resolvePick, if_neg hlatest, runE_bind, runE_bind, runE_reading_readFreshOr hclear]
    rcases runE (exec cfg env) (readFreshOr cfg (inboxPath agent path) missing) s with ⟨e | m, s'⟩
    · rfl
    · rfl
  rw [returns_iff_run, returns_iff_run, hrun]

/-- What does not depend on how a program returns can be asked before. -/
theorem returns_and_left {C : Type} {A : C → Type} {α : Type}
    {h : (c : C) → Server → A c × Server} {x : ExceptT Exc (Prog C A) α}
    {Q : α → Server → Prop} {P : Prop} :
    Returns h x (fun a s' => P ∧ Q a s') s ↔ P ∧ Returns h x Q s := by
  rw [returns_iff_run, returns_iff_run]
  constructor
  · rintro ⟨a, s', hrun, hP, hQ⟩
    exact ⟨hP, a, s', hrun, hQ⟩
  · rintro ⟨hP, a, s', hrun, hQ⟩
    exact ⟨a, s', hrun, hP, hQ⟩

/-! ## The two surfaces -/

/-- Who looks into an inbox, and over which surface. -/
inductive Reader where
  | rest (identity : Identity)
  | mcp (caller : Mcp.Caller)

namespace Reader

/-- The listing of an inbox, with an empty prefix. -/
def list (agent : String) : Reader → ListRequest
  | .rest identity => .rest identity agent ""
  | .mcp caller => .mcp caller agent ""

/-- The pick of a path in that inbox, over REST behind its route. -/
def pick (cfg : Config) (agent path : String) : Reader → ClaimHandler Envelope
  | .rest identity => Inbox.postPick cfg identity agent path
  | .mcp caller => Mcp.cassettaPick cfg caller path

/-- The access policy lets the reader list the inbox and pick from it; over MCP one picks from
one's own inbox only, and every operation is counted. -/
def Authorised (env : Environment) (agent : String) : Reader → Prop
  | .rest identity => env.check identity (.inbox agent) .list = .ok true ∧
      env.check identity (.inbox agent) .pick = .ok true
  | .mcp caller => caller.target "" = agent ∧
      env.check caller.effective (.inbox agent) .list = .ok true ∧
      env.check caller.effective (.inbox agent) .pick = .ok true ∧
      ∀ counter, env.increment counter = .ok ()

/-- A pick over MCP validates its path. One over REST puts it into the head of its answer, with the
sender of the bundle. -/
def Accepts (cfg : Config) (path : String) (m : BundleMeta) : Reader → Prop
  | .rest _ => headValue (m.sender.getD "") = true ∧ headValue path = true
  | .mcp _ => validatePath cfg.allowedPathChars path = .ok ()

/-- The listing at an instant has an entry for a path. -/
def Lists (cfg : Config) (env : Environment) (g : Garble cfg.backend) (s : Server)
    (agent path : String) (r : Reader) : Prop :=
  Returns (execAnyReading cfg env g) ((r.list agent).handler cfg)
    (fun entries _ => ∃ e ∈ entries, e.path = path) s

/-- A pick of a path at an instant hands out a bundle, inline or by reference. -/
def Picks (cfg : Config) (env : Environment) (g : Garble cfg.backend) (s : Server)
    (agent path : String) (m : BundleMeta) (r : Reader) : Prop :=
  Returns (execAnyReading cfg env g) (r.pick cfg agent path)
    (fun envelope _ => envelope.manifest = m) s

instance (cfg : Config) (env : Environment) (g : Garble cfg.backend) (s : Server)
    (agent path : String) (r : Reader) : Decidable (r.Lists cfg env g s agent path) :=
  inferInstanceAs (Decidable (wpE ..))

instance (cfg : Config) (env : Environment) (g : Garble cfg.backend) (s : Server)
    (agent path : String) (m : BundleMeta) (r : Reader) :
    Decidable (r.Picks cfg env g s agent path m) :=
  inferInstanceAs (Decidable (wpE ..))

variable {r : Reader} {path : String} {m : BundleMeta}

/-- A listing over either surface is the listing of the inbox. -/
theorem returns_list_iff (hauth : r.Authorised env agent) (hne : agent ≠ "")
    (Q : List ListingEntry → Prop) :
    Returns (execAny cfg env) ((r.list agent).handler cfg) (fun entries _ => Q entries) s ↔
      Returns (execAny cfg env) (Inbox.listing cfg agent "") (fun entries _ => Q entries)
        { s with asked := .inbox agent :: s.asked } := by
  cases r with
  | rest identity =>
    refine (wpE_bind _ _ _).trans (wpE_plain.trans ?_)
    exact returns_of_run (runE_enforce_ok hauth.1 httpForbidden s)
  | mcp caller =>
    have htarget : caller.target agent = agent := if_neg hne
    have hcount := hauth.2.2.2 (Mcp.operation "cassetta.inbox.operations" "list")
    show Returns (execAny cfg env) (Mcp.cassettaInbox cfg caller agent "") _ s ↔ _
    rw [Mcp.cassettaInbox, htarget, if_neg hne]
    refine (wpE_bind _ _ _).trans (wpE_plain.trans ?_)
    refine (returns_of_run (runE_enforce_ok hauth.2.1 valueForbidden s)).trans ?_
    refine (wpE_bind _ _ _).trans (returns_congr fun entries s' => ?_)
    split
    · rename_i hnil
      rw [hnil]
      exact Iff.rfl
    · refine (wpE_bind _ _ _).trans (wpE_plain.trans ?_)
      exact returns_of_run (runE_increment hcount s')

/-- Where manifests may be unreadable, a listing comes to its end when it can read what it
shows. -/
theorem endsIf_list (hauth : r.Authorised env agent) (hagent : FileName agent)
    (hnamed : Named s.disk.tree) (hstill : s.lag = fun _ => 0) :
    EndsIf (execAnyReading cfg env g) (execAny cfg env) (ListingReadable cfg g s agent)
      ((r.list agent).handler cfg) s := by
  have hasked := (Instant.refl hstill).ask (.inbox agent)
  have hbelow : cfg.backend.dataRoot <+: cfg.backend.resolve (inboxPath agent "") := by
    rw [resolve_inbox hagent, Backend.inboxLoc, spell_append, ← Backend.dataRoot_eq]
    exact List.prefix_append _ _
  obtain ⟨refs, hrefs⟩ := Backend.listBundles_ok hbelow s.disk false
  have hlisting : EndsIf (execAnyReading cfg env g) (execAny cfg env)
      (ListingReadable cfg g s agent) (Inbox.listing cfg agent "")
      { s with asked := .inbox agent :: s.asked } := by
    obtain ⟨hidden, s₁, hrun, h₁, hhidden⟩ :=
      returns_iff_run.mp (@instant_hiddenPaths cfg env _ s hasked)
    have hreadless : OnlyE AnyCall.Readless (Inbox.hiddenPaths cfg) := by
      refine OnlyE.bind (onlyE_performE trivial) fun t => ?_
      exact OnlyE.bind (onlyE_performE trivial) fun claims => trivial
    refine EndsIf.bind_left ((runE_anyReading_readless hreadless).trans hrun) hrun ?_
    have hlist : runE (exec cfg env) (listBundles (inboxPath agent "") false) s₁ =
        (.ok refs, s₁) := by
      rw [runE_listBundles, h₁.disk, hrefs]
    have hlist' := (runE_reading_readless (g := g) (readless_listBundles _ _)).trans hlist
    refine EndsIf.bind_left (runE_anyReading_plain.trans hlist')
      ((runE_execAny_plain _ _ _).trans hlist) ?_
    refine EndsIf.bind_right ?_ fun _ _ => rfl
    have hwalk : ListingReadable cfg g s agent ↔ ∀ path ∈ (refs.map (·.path)).filter (· ∉ hidden),
        cfg.backend.garbled g s₁.disk.tree path = false := by
      rw [h₁.disk, ListingReadable,
        ← readable_inbox_iff hagent hnamed hrefs fun path => ¬ActiveClaim cfg s path]
      simp only [List.mem_filter, List.mem_map, decide_eq_true_eq, hhidden]
      constructor
      · rintro h _ ⟨⟨r, hr, rfl⟩, hno⟩
        exact h r hr hno
      · intro h r hr hno
        exact h r.path ⟨⟨r, hr, rfl⟩, hno⟩
    rw [hwalk]
    exact (endsIf_listingEntries (inboxPath agent "") _).plain
  have hagentne : agent ≠ "" := by
    rintro rfl
    exact absurd hagent (by decide)
  cases r with
  | rest identity =>
    have henf := @runE_enforce_ok cfg _ _ _ _ hauth.1 httpForbidden s
    refine EndsIf.bind_left (runE_anyReading_plain.trans
      ((runE_reading_readless (readless_enforce _ _ _ _)).trans henf))
      ((runE_execAny_plain _ _ _).trans henf) ?_
    exact hlisting
  | mcp caller =>
    have htarget : caller.target agent = agent := if_neg hagentne
    have henf := @runE_enforce_ok cfg _ _ _ _ hauth.2.1 valueForbidden s
    show EndsIf _ _ _ (Mcp.cassettaInbox cfg caller agent "") s
    rw [Mcp.cassettaInbox, htarget, if_neg hagentne]
    refine EndsIf.bind_left (runE_anyReading_plain.trans
      ((runE_reading_readless (readless_enforce _ _ _ _)).trans henf))
      ((runE_execAny_plain _ _ _).trans henf) ?_
    refine EndsIf.bind_right hlisting fun entries s₃ => runE_anyReading_readless ?_
    split
    · trivial
    · exact OnlyE.bind (readless_plain (readless_increment _)) fun _ => trivial

/-- A pick goes through when the surface takes its path and the bundle is fresh and
obtainable. -/
theorem picks_iff (hauth : r.Authorised env agent) (hne : agent ≠ "") (hlatest : path ≠ "latest")
    (hs : Standing s) (hstill : s.lag = fun _ => 0) {loc : List String}
    (hspell : cfg.backend.resolve (inboxPath agent path) = spell loc) (hloc : loc ≠ [])
    (hread : cfg.backend.readBundleMeta s.disk.tree (inboxPath agent path) = some m) :
    r.Picks cfg env g s agent path m ↔ r.Accepts cfg path m ∧ ¬PastTtl cfg m.createdAt s.wall ∧
      Obtainable cfg s (inboxPath agent path) m := by
  have hasked := (Instant.refl hstill).ask (.inbox agent)
  have hclear := @Backend.garbled_of_read cfg.backend g s.disk.tree (inboxPath agent path) m hread
  cases r with
  | rest identity =>
    have henf := (runE_reading_readless (g := g) (readless_enforce _ _ _ _)).trans
      (@runE_enforce_ok cfg _ _ _ _ hauth.2 httpForbidden s)
    show Returns (execAnyReading cfg env g) (Inbox.postPick cfg identity agent path) _ s ↔
      (headValue (m.sender.getD "") = true ∧ headValue path = true) ∧ _
    rw [Inbox.postPick]
    cases hparam : innerParam path with
    | none =>
      refine iff_of_false id fun h => ?_
      rw [innerParam_eq_some.mpr ⟨not_newline_of_headValue h.1.2, rfl⟩] at hparam
      cases hparam
    | some p =>
      obtain rfl := (innerParam_eq_some.mp hparam).2
      rw [routed_some, Inbox.pickInboxFile]
      refine (wpE_bind _ _ _).trans ((wpE_bind _ _ _).trans (wpE_anyReading_plain.trans ?_))
      refine (returns_of_run henf).trans ?_
      refine (wpE_bind _ _ _).trans (wpE_anyReading_plain.trans ?_)
      refine (returns_reading_resolvePick (s := { s with asked := .inbox agent :: s.asked }) hlatest
        hclear _ _).trans ?_
      refine (instant_resolvePick hasked hlatest hread _ _ fun s' h' => ?_).trans and_left_comm
      refine (wpE_bind _ _ _).trans ?_
      refine (returns_anyReading_readless (Inbox.readless_consume _ _ _ _)).trans ?_
      rw [← instant_consume h' hs hspell hloc m (httpNotFound path), ← returns_and_left]
      refine returns_congr fun envelope s'' => ?_
      simp only [wpE_pure, wpE_bind, wpE_anyReading_plain, wpE_sendHead, removePrefix_inboxPath,
        List.all_cons, List.all_nil, Bool.and_true, Bool.and_eq_true]
      constructor
      · rintro ⟨hsent, hrefused⟩
        by_cases hheads : headValue (envelope.manifest.sender.getD "") = true ∧
          headValue path = true
        · obtain rfl := hsent hheads
          exact ⟨hheads, rfl⟩
        · exact (hrefused hheads).elim
      · rintro ⟨hheads, rfl⟩
        exact ⟨fun _ => rfl, fun hno => hno hheads⟩
  | mcp caller =>
    obtain ⟨htarget, -, hcheck, hcount⟩ := hauth
    have henf := (runE_reading_readless (g := g) (readless_enforce _ _ _ _)).trans
      (@runE_enforce_ok cfg _ _ _ _ hcheck valueForbidden s)
    show Returns (execAnyReading cfg env g) (Mcp.cassettaPick cfg caller path) _ s ↔
      validatePath cfg.allowedPathChars path = .ok () ∧ _
    rw [Mcp.cassettaPick, htarget, if_neg hne]
    refine (wpE_bind _ _ _).trans (wpE_anyReading_plain.trans ?_)
    refine (returns_of_run henf).trans ?_
    refine (wpE_bind _ _ _).trans (wpE_anyReading_plain.trans ?_)
    rw [Mcp.validatePickPath, if_neg hlatest]
    cases hvalid : validatePath cfg.allowedPathChars path with
    | error e =>
      rw [validateOr, hvalid]
      simp
    | ok u =>
      have hvalidate : runE (execReading cfg env g) (validateOr cfg.allowedPathChars path
          invalidPath) { s with asked := .inbox agent :: s.asked } =
            (.ok (), { s with asked := .inbox agent :: s.asked }) := by
        rw [validateOr, hvalid]
        rfl
      refine (returns_of_run hvalidate).trans ?_
      refine Iff.trans ?_ (and_iff_right rfl).symm
      refine (wpE_bind _ _ _).trans (wpE_anyReading_plain.trans ?_)
      refine (returns_reading_resolvePick (s := { s with asked := .inbox agent :: s.asked }) hlatest
        hclear _ _).trans ?_
      refine instant_resolvePick hasked hlatest hread (.value "No files in inbox")
        (valueNotFound path) fun s' h' => ?_
      refine Iff.trans ?_ (@instant_consume cfg env s' agent s h' hs _ loc hspell hloc m
        (valueNotFound path))
      refine (wpE_bind _ _ _).trans ?_
      refine (returns_anyReading_readless (Inbox.readless_consume _ _ _ _)).trans ?_
      refine returns_congr fun envelope s' => ?_
      refine (wpE_bind _ _ _).trans (wpE_anyReading_plain.trans ?_)
      exact returns_of_run ((runE_reading_readless (readless_increment _)).trans
        (runE_increment (hcount _) s'))

end Reader

/-! ## Where they agree -/

/-- A listing comes to a bundle when the walk does and all that the listing reads can be read. -/
def Comes (cfg : Config) (g : Garble cfg.backend) (s : Server) (agent : String) (x : List String) :
    Prop :=
  Backend.Visited s.disk.tree (cfg.backend.inboxLoc agent) x ∧ ListingReadable cfg g s agent

/-- When the listing and a pick tell the same of a bundle that is not past its time. -/
structure InStep (cfg : Config) (g : Garble cfg.backend) (s : Server) (r : Reader)
    (agent : String) (x : List String) (m : BundleMeta) : Prop where
  /-- Of a bundle that goes by reference: no sidecar on its path is past its time. -/
  reference : evaluateDownload cfg.limits m.totalSize = .reference →
    Comes cfg g s agent x → r.Accepts cfg (listedPath x) m →
    HasClaim s (inboxPath agent (listedPath x)) →
    ActiveClaim cfg s (inboxPath agent (listedPath x))
  /-- Of a bundle that goes inline: there is no sidecar on its path and its files can be read, or
  neither. -/
  inline : evaluateDownload cfg.limits m.totalSize = .inline →
    Comes cfg g s agent x → r.Accepts cfg (listedPath x) m →
    (ActiveClaim cfg s (inboxPath agent (listedPath x)) ↔ ∃ f ∈ m.files,
      cfg.backend.openBundleFileRead s.disk.tree (inboxPath agent (listedPath x)) f.name = none)
  /-- What the listing does not come to cannot be had. -/
  reached : ¬Comes cfg g s agent x →
    r.Accepts cfg (listedPath x) m → ¬Obtainable cfg s (inboxPath agent (listedPath x)) m
  /-- What the surface does not take for a path, or cannot send, is hidden. -/
  taken : Comes cfg g s agent x →
    ¬r.Accepts cfg (listedPath x) m → ActiveClaim cfg s (inboxPath agent (listedPath x))

/-- A bundle in reference mode can be obtained exactly if it has no claim. -/
theorem obtainable_of_reference {path : String} {m : BundleMeta}
    (h : evaluateDownload cfg.limits m.totalSize = .reference) :
    Obtainable cfg s path m ↔ ¬HasClaim s path := by
  rw [Obtainable, h]

private theorem obtainable_of_inline {path : String} {m : BundleMeta}
    (h : evaluateDownload cfg.limits m.totalSize = .inline) :
    Obtainable cfg s path m ↔
      ¬∃ f ∈ m.files, cfg.backend.openBundleFileRead s.disk.tree path f.name = none := by
  rw [Obtainable, h]
  push Not
  simp only [Option.isSome_iff_ne_none]

section Propositional

variable {visited accepted active claimed : Prop}

private theorem agree_reference (hsub : active → claimed) :
    (visited ∧ ¬active ↔ accepted ∧ ¬claimed) ↔
      (visited → accepted → claimed → active) ∧ (¬visited → accepted → ¬¬claimed) ∧
        (visited → ¬accepted → active) := by
  tauto

private theorem agree_inline :
    (visited ∧ ¬active ↔ accepted ∧ ¬claimed) ↔
      (visited → accepted → (active ↔ claimed)) ∧ (¬visited → accepted → ¬¬claimed) ∧
        (visited → ¬accepted → active) := by
  tauto

private theorem agree_fresh {past : Prop} :
    (visited ∧ ¬active ∧ ¬past ↔ accepted ∧ ¬past ∧ claimed) ↔
      (¬past → (visited ∧ ¬active ↔ accepted ∧ claimed)) := by
  tauto

end Propositional

private theorem inStep_iff {r : Reader} {x : List String} {m : BundleMeta} :
    InStep cfg g s r agent x m ↔
      (Comes cfg g s agent x ∧ ¬ActiveClaim cfg s (inboxPath agent (listedPath x)) ↔
        r.Accepts cfg (listedPath x) m ∧ Obtainable cfg s (inboxPath agent (listedPath x)) m) := by
  cases hmode : evaluateDownload cfg.limits m.totalSize with
  | reference =>
    have hobtain := @obtainable_of_reference cfg s (inboxPath agent (listedPath x)) m hmode
    have hinline : evaluateDownload cfg.limits m.totalSize ≠ .inline := by
      rw [hmode]
      exact nofun
    rw [hobtain, agree_reference ActiveClaim.hasClaim]
    constructor
    · intro h
      refine ⟨h.reference hmode, ?_, h.taken⟩
      rw [← hobtain]
      exact h.reached
    · rintro ⟨href, hreached, htaken⟩
      rw [← hobtain] at hreached
      exact ⟨fun _ => href, fun h => absurd h hinline, hreached, htaken⟩
  | inline =>
    have hobtain := @obtainable_of_inline cfg s (inboxPath agent (listedPath x)) m hmode
    have href : evaluateDownload cfg.limits m.totalSize ≠ .reference := by
      rw [hmode]
      exact nofun
    rw [hobtain, agree_inline]
    constructor
    · intro h
      refine ⟨h.inline hmode, ?_, h.taken⟩
      rw [← hobtain]
      exact h.reached
    · rintro ⟨hinline, hreached, htaken⟩
      rw [← hobtain] at hreached
      exact ⟨fun h => absurd h href, fun _ => hinline, hreached, htaken⟩

/-- A server keeps standing while its clock stands. -/
theorem Standing.frozen (h : Standing s) : Standing s.frozen := ⟨h.named, h.paired, h.used⟩

/-- The manifest of the file `p` that `alice` broadcasts at the start. -/
def firstMeta : BundleMeta :=
  ⟨1, 0, some "alice:a", 5000000, "application/octet-stream", 1,
    [⟨"p", 1, "application/octet-stream"⟩]⟩

/-- The server after `bob` has picked it and some time has passed. -/
def pickedServer (micros : Nat) : Server :=
  (srvSystem.run srvConfig .core [.plain (.broadcast alice "p" (.raw [1])),
    .pick (.rest bob "bob:b" "p"), .tick micros]).server.frozen

/-- The small server is standing. -/
theorem standing_srvSystem : Standing srvSystem.server := by
  refine ⟨⟨named_of_entries (by decide), ?_⟩, ⟨ClaimStore.sound_empty, ?_⟩, ?_⟩
  · intro k w hw
    cases hw
  · intro l hl
    cases hl
  · intro c hc
    cases hc

end Cassetta
