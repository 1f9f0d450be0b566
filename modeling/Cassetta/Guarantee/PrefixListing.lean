import Cassetta.Guarantee.ListPick
import Cassetta.Server.Reading
import Cassetta.Server.StoreWrite

/-!
# Listing the store by a prefix

A listing of the store takes its prefix for a directory and walks what is below it. The paths it
shows are those that begin with the prefix only as long as the prefix, read as a string, and the
directory hold the same bundles; and it comes to its end only if it can read every manifest that
the walk finds.
-/

namespace Cassetta

open Prog FileTree

variable {cfg : Config} {env : Environment} {g : Garble cfg.backend} {s : Server} {b : Backend}
  {d : Disk} {q : String}

/-! ## The directory of a prefix -/

/-- A prefix without a leading slash and without a step up. -/
structure PlainPrefix (q : String) : Prop where
  relative : isAbsolute q = false
  down : ".." ∉ segments q

instance (q : String) : Decidable (PlainPrefix q) :=
  decidable_of_iff (isAbsolute q = false ∧ ".." ∉ segments q)
    ⟨fun h => ⟨h.1, h.2⟩, fun h => ⟨h.relative, h.down⟩⟩

/-- A plain prefix is scanned as a path of the store. -/
theorem PlainPrefix.scan (h : PlainPrefix q) : storeScanPrefix q = storePath q := by
  have hstrip : lstripSlash q = q := by
    have hrel := h.relative
    rw [lstripSlash, ← String.ofList_toList (s := q), String.toList_ofList]
    congr 1
    rw [isAbsolute, startsWith] at hrel
    cases hq : q.toList with
    | nil => rfl
    | cons c rest =>
      rw [hq] at hrel
      rw [List.dropWhile_cons_of_neg]
      rintro hc
      simp_all [List.isPrefixOf]
  rw [storeScanPrefix, hstrip, storePath]

/-- A plain prefix resolves below the store. -/
theorem PlainPrefix.resolve (h : PlainPrefix q) :
    b.resolve (storeScanPrefix q) = spell (b.storeLoc ++ below q) := by
  have hdown : steps q = spell (below q) := eq_spell_normalize (up_not_mem_steps h.down)
  rw [h.scan, resolve_storeSteps, hdown, spell_append]

/-- The path of a directory of the store, as a listing has it. -/
theorem relPosix_store {x : List String} (hne : x ≠ []) :
    b.relPosix (spell (b.storeLoc ++ x)) = "store/" ++ listedPath x := by
  have hdrop : (spell (b.storeLoc ++ x)).drop b.dataRoot.length = spell ("store" :: x) := by
    rw [Backend.storeLoc, List.append_assoc, b.drop_dataRoot]
    rfl
  have hjoin : "/".intercalate ("store" :: x) = "store/" ++ listedPath x := by
    rw [String.intercalate_cons_of_ne_nil hne]
    rfl
  unfold Backend.relPosix
  rw [hdrop]
  simpa [spell, Function.comp_def] using hjoin

private theorem resolve_storeListed {x : List String} (hne : x ≠ []) (hx : ∀ k ∈ x, FileName k) :
    b.resolve ("store/" ++ listedPath x) = spell (b.storeLoc ++ x) := by
  have hstore : ∀ k ∈ "store" :: x, FileName k := by
    simp only [List.forall_mem_cons]
    exact ⟨by decide, hx⟩
  have hspell : spell (b.storeLoc ++ x) = b.dataRoot ++ spell ("store" :: x) := by
    rw [Backend.storeLoc, List.append_assoc, spell_append, ← b.dataRoot_eq]
    rfl
  rw [← relPosix_store hne, hspell]
  exact Backend.resolve_relPosix (by simp [spell]) (proper_spell hstore)

/-! ## What is to be listed -/

/-- A committed bundle of the store whose time is not up. -/
def StoreBundle (cfg : Config) (s : Server) (x : List String) (m : BundleMeta) : Prop :=
  ∃ serial, ManifestAt s.disk (cfg.backend.storeLoc ++ x) m serial ∧
    ¬PastTtl cfg m.createdAt s.wall

/-- A listing by a prefix as it should be: sorted, without repetition, and with exactly the
bundles whose path begins with the prefix. -/
structure ListsExactly (cfg : Config) (s : Server) (q : String) (entries : List ListingEntry) :
    Prop where
  sorted : (entries.map (·.path)).Pairwise (· < ·)
  exact : ∀ p m, (∃ e ∈ entries, e.path = p ∧ e.bundle = m) ↔
    ∃ x, StoreBundle cfg s x m ∧ listedPath x = p ∧ startsWith p q = true

/-- A directory below the prefix that is inside a bundle, and holds a client's file that reads as
a manifest: a walk that starts inside the bundle comes to it. -/
def Mistaken (cfg : Config) (s : Server) (q : String) (x : List String) : Prop :=
  Backend.Visited s.disk.tree (cfg.backend.storeLoc ++ below q) x ∧
    ∃ m, cfg.backend.metaAt s.disk.tree (cfg.backend.storeLoc ++ below q ++ x) = some m ∧
      ¬PastTtl cfg m.createdAt s.wall ∧
      ∀ serial, ¬ManifestAt s.disk (cfg.backend.storeLoc ++ below q ++ x) m serial

/-- The prefix says the same as a string and as a directory: a bundle's path begins with it
exactly when the bundle lies below the directory, and nothing below it is mistaken for a
bundle. -/
structure ReadsAsDirectory (cfg : Config) (s : Server) (q : String) : Prop where
  same : ∀ x m, StoreBundle cfg s x m →
    (startsWith (listedPath x) q = true ↔ StrictlyInside (below q) x)
  clear : ∀ x, ¬Mistaken cfg s q x

/-- Every manifest that the walk from a prefix comes to can be read. -/
def WalkReadable (cfg : Config) (g : Garble cfg.backend) (s : Server) (q : String) : Prop :=
  ∀ x, Backend.Visited s.disk.tree (cfg.backend.storeLoc ++ below q) x →
    cfg.backend.garbledAt g s.disk.tree (cfg.backend.storeLoc ++ below q ++ x) = false

/-! ## What is listed -/

/-- In a store of committed bundles, none inside another, the walk comes to each of them. -/
theorem visited_of_committed (hfree : PrefixFree b d) {base x : List String} {m : BundleMeta}
    {serial : Nat} (hm : ManifestAt d (b.storeLoc ++ base ++ x) m serial) (hne : x ≠ []) :
    Backend.Visited d.tree (b.storeLoc ++ base) x := by
  have hdir : d.tree.get (b.storeLoc ++ base ++ x) = some .dir := by
    simpa using Tree.get_dropLast (Tree.fileAt_eq_some_iff.mp hm)
  refine ⟨hne, hdir, fun y hy hyx => ?_⟩
  rw [List.eq_nil_iff_forall_not_mem]
  intro k hk
  obtain ⟨c, hc⟩ := Backend.mem_fileNames.mp hk
  have hdata : b.dataLoc <+: b.storeLoc ++ base ++ y ++ [k] := by
    simp [Backend.storeLoc, List.append_assoc]
  obtain ⟨l, hl, hlq⟩ := hfree.owned _ c hdata hc
  have hly : l <+: b.storeLoc ++ base ++ y := by
    rcases List.prefix_concat_iff.mp hlq.1 with he | hp
    · exact absurd he.symm hlq.2
    · exact hp
  have hlt : y.length < x.length :=
    lt_of_le_of_ne hyx.1.length_le fun hlen => hyx.2 (hyx.1.eq_of_length hlen).symm
  refine hfree.antichain l _ hl (.inr ⟨m, serial, hm⟩) ⟨hly.trans ?_, fun he => ?_⟩
  · exact (List.prefix_append_right_inj _).mpr hyx.1
  · have hlen := hly.length_le
    rw [← he] at hlen
    simp only [List.length_append] at hlen
    omega

private theorem removePrefix_storeListed (x : List String) :
    removePrefix ("store/" ++ listedPath x) "store/" = listedPath x := removePrefix_append _ _

/-- A directory that the walk from a prefix comes to, with the manifest that is shown for it. -/
def Found (cfg : Config) (s : Server) (q : String) (x : List String) (m : BundleMeta) : Prop :=
  Backend.Visited s.disk.tree (cfg.backend.storeLoc ++ below q) x ∧
    cfg.backend.metaAt s.disk.tree (cfg.backend.storeLoc ++ below q ++ x) = some m ∧
    ¬PastTtl cfg m.createdAt s.wall

section Listing

variable {refs : List Backend.BundleRef}

private theorem names_of_visited (hnamed : Named s.disk.tree) {x : List String}
    (hv : Backend.Visited s.disk.tree (cfg.backend.storeLoc ++ below q) x) :
    ∀ k ∈ below q ++ x, FileName k := by
  intro k hk
  refine hnamed _ _ hv.2.1 k ?_
  rw [List.append_assoc]
  exact List.mem_append_right _ hk

variable (hq : PlainPrefix q) (hnamed : Named s.disk.tree)
  (hrefs : cfg.backend.listBundles s.disk (storeScanPrefix q) false = .ok refs)
include hq hrefs

/-- The paths the backend lists for a prefix. -/
theorem path_of_ref {r : Backend.BundleRef} (hr : r ∈ refs) :
    ∃ x, Backend.Visited s.disk.tree (cfg.backend.storeLoc ++ below q) x ∧
      r.path = "store/" ++ listedPath (below q ++ x) := by
  obtain ⟨-, x, hv, hpath, -⟩ := (Backend.mem_listBundles_iff hrefs).mp hr
  rw [Backend.location, hq.resolve, normalize_spell] at hv
  rw [hq.resolve, ← spell_append, List.append_assoc, relPosix_store (by simp [hv.1])] at hpath
  exact ⟨x, hv, hpath⟩

/-- The walk comes to a directory with a manifest, and it is listed. -/
theorem exists_ref {x : List String}
    (hv : Backend.Visited s.disk.tree (cfg.backend.storeLoc ++ below q) x)
    (hmanifest : bundleManifest ∈
      Backend.fileNames s.disk.tree (cfg.backend.storeLoc ++ below q ++ x)) :
    ∃ r ∈ refs, r.path = "store/" ++ listedPath (below q ++ x) := by
  have hdir : s.disk.tree.isDir (cfg.backend.resolve (storeScanPrefix q)) = true := by
    rw [hq.resolve, Tree.isDir_spell]
    exact Tree.get_of_prefix (List.prefix_append _ x) (by simpa using hv.1) hv.2.1
  have hloc : cfg.backend.location (storeScanPrefix q) = cfg.backend.storeLoc ++ below q := by
    rw [Backend.location, hq.resolve, normalize_spell]
  refine ⟨⟨_, true, s.disk.mtime (cfg.backend.storeLoc ++ below q ++ x)⟩, ?_, rfl⟩
  refine (Backend.mem_listBundles_iff hrefs).mpr ⟨hdir, x, ?_, ?_, ?_⟩
  · rwa [hloc]
  · rw [hq.resolve, ← spell_append, List.append_assoc, relPosix_store (by simp [hv.1])]
  · rw [hloc]
    exact ⟨rfl, .inl ⟨hmanifest, rfl⟩⟩

include hnamed

/-- What is shown for them. -/
theorem mem_shown_iff {p : String} {m : BundleMeta} :
    (p, m) ∈ (refs.map (·.path)).filterMap (shown cfg s "store/") ↔
      ∃ x, Found cfg s q x m ∧ listedPath (below q ++ x) = p := by
  have hread : ∀ {x : List String},
      Backend.Visited s.disk.tree (cfg.backend.storeLoc ++ below q) x →
      cfg.backend.readBundleMeta s.disk.tree ("store/" ++ listedPath (below q ++ x)) =
        cfg.backend.metaAt s.disk.tree (cfg.backend.storeLoc ++ below q ++ x) := by
    intro x hv
    rw [List.append_assoc]
    exact Backend.readBundleMeta_eq
      (resolve_storeListed (by simp [hv.1]) (names_of_visited hnamed hv))
  simp only [List.mem_filterMap, List.mem_map, shown_eq_some_iff]
  constructor
  · rintro ⟨_, ⟨r, hr, rfl⟩, hfresh, hp⟩
    obtain ⟨x, hv, hpath⟩ := path_of_ref hq hrefs hr
    rw [hpath, removePrefix_storeListed] at hp
    rw [hpath, Fresh, hread hv] at hfresh
    exact ⟨x, ⟨hv, hfresh.1, hfresh.2⟩, hp⟩
  · rintro ⟨x, ⟨hv, hmeta, hfresh⟩, hp⟩
    obtain ⟨blob, hblob, -⟩ := Backend.metaAt_some hmeta
    obtain ⟨r, hr, hpath⟩ := exists_ref hq hrefs hv
      (Backend.mem_fileNames.mpr ⟨blob, Tree.fileAt_eq_some_iff.mpr hblob⟩)
    refine ⟨r.path, ⟨r, hr, rfl⟩, ⟨?_, hfresh⟩, ?_⟩
    · rw [hpath, hread hv, hmeta]
    · rw [hpath, removePrefix_storeListed, hp]

/-- A listing can read its manifests when the walk can. -/
theorem readable_iff :
    (∀ path ∈ refs.map (·.path), cfg.backend.garbled g s.disk.tree path = false) ↔
    WalkReadable cfg g s q := by
  have hgarbled : ∀ {x : List String},
      Backend.Visited s.disk.tree (cfg.backend.storeLoc ++ below q) x →
      cfg.backend.garbled g s.disk.tree ("store/" ++ listedPath (below q ++ x)) =
        cfg.backend.garbledAt g s.disk.tree (cfg.backend.storeLoc ++ below q ++ x) := by
    intro x hv
    rw [List.append_assoc]
    exact Backend.garbled_eq
      (resolve_storeListed (by simp [hv.1]) (names_of_visited hnamed hv))
  constructor
  · intro h x hv
    rw [← Bool.not_eq_true]
    intro hbad
    have hmanifest := hbad
    rw [Backend.garbledAt, Option.any_eq_true] at hmanifest
    obtain ⟨blob, hblob, -⟩ := hmanifest
    obtain ⟨r, hr, hpath⟩ := exists_ref hq hrefs hv (Backend.mem_fileNames.mpr ⟨blob, hblob⟩)
    have hclear := h r.path (List.mem_map_of_mem hr)
    rw [hpath, hgarbled hv, hbad] at hclear
    cases hclear
  · intro h path hpath
    obtain ⟨r, hr, rfl⟩ := List.mem_map.mp hpath
    obtain ⟨x, hv, hx⟩ := path_of_ref hq hrefs hr
    rw [hx, hgarbled hv]
    exact h x hv

private theorem sorted_shown :
    (((refs.map (·.path)).filterMap (shown cfg s "store/")).map Prod.fst).Pairwise (· < ·) := by
  have hproper : Proper (spell ("store" :: below q)) := by
    have hsteps : spell (below q) = steps q := (eq_spell_normalize (up_not_mem_steps hq.down)).symm
    have hstore : Proper (spell ["store"]) := proper_spell (by simpa using by decide)
    have happ : spell ("store" :: below q) = spell ["store"] ++ steps q := by
      rw [← hsteps]
      rfl
    rw [happ]
    exact hstore.append (proper_steps q)
  have hpre : cfg.backend.resolve (storeScanPrefix q) =
      cfg.backend.dataRoot ++ spell ("store" :: below q) := by
    rw [hq.resolve, Backend.storeLoc, List.append_assoc, spell_append, ← Backend.dataRoot_eq]
    rfl
  have hsorted := Backend.sorted_listBundles hnamed hproper hpre hrefs
  rw [List.pairwise_map, List.pairwise_filterMap]
  refine hsorted.imp_of_mem ?_
  rintro path path' hpath hpath' hlt ⟨p, m⟩ hp ⟨p', m'⟩ hp'
  obtain ⟨r, hr, rfl⟩ := List.mem_map.mp hpath
  obtain ⟨r', hr', rfl⟩ := List.mem_map.mp hpath'
  obtain ⟨x, -, hx⟩ := path_of_ref hq hrefs hr
  obtain ⟨x', -, hx'⟩ := path_of_ref hq hrefs hr'
  obtain ⟨-, rfl⟩ := shown_eq_some_iff.mp hp
  obtain ⟨-, rfl⟩ := shown_eq_some_iff.mp hp'
  rw [hx, hx', String.lt_iff, String.toList_append, String.toList_append] at hlt
  show removePrefix r.path "store/" < removePrefix r'.path "store/"
  rw [hx, hx', removePrefix_storeListed, removePrefix_storeListed]
  by_contra hge
  rcases (not_lt.mp hge).eq_or_lt with heq | hgt
  · rw [heq] at hlt
    exact lt_irrefl _ hlt
  · exact lt_asymm hlt (List.append_left_lt (String.lt_iff.mp hgt))

end Listing

/-! ## Where the two agree -/

section Exactness

variable {x : List String} {m : BundleMeta}

/-- The location of a bundle in the store is made of names of files. -/
theorem StoreBundle.names (hnamed : Named s.disk.tree) (h : StoreBundle cfg s x m) :
    ∀ k ∈ x, FileName k := by
  obtain ⟨serial, hm, -⟩ := h
  have hmeta := Tree.fileAt_eq_some_iff.mp hm
  intro k hk
  exact hnamed _ _ hmeta k (by simp [hk])

/-- What is found is a bundle, or mistaken for one. -/
theorem Found.cases (h : Found cfg s q x m) :
    StoreBundle cfg s (below q ++ x) m ∨ Mistaken cfg s q x := by
  obtain ⟨hv, hmeta, hfresh⟩ := h
  by_cases hcommitted : ∃ serial,
      ManifestAt s.disk (cfg.backend.storeLoc ++ below q ++ x) m serial
  · obtain ⟨serial, hm⟩ := hcommitted
    rw [List.append_assoc] at hm
    exact .inl ⟨serial, hm, hfresh⟩
  · exact .inr ⟨hv, m, hmeta, hfresh, fun serial hm => hcommitted ⟨serial, hm⟩⟩

variable (hfree : PrefixFree cfg.backend s.disk)
include hfree

/-- The location of a bundle is below the store. -/
theorem StoreBundle.ne_nil (h : StoreBundle cfg s x m) : x ≠ [] := by
  obtain ⟨serial, hm, -⟩ := h
  rintro rfl
  obtain ⟨ns, hp, hne⟩ := hfree.inside _ (.inr ⟨m, serial, hm⟩)
  rw [List.append_nil, Backend.storeLoc, List.prefix_append_right_inj] at hp
  have hns : ns = .store :=
    @Namespace.eq_of_prefix .store ns [] (by simpa [Namespace.parts] using hp)
  subst hns
  exact hne (by simp [Backend.storeLoc, Namespace.parts])

/-- A bundle below the directory of the prefix is found. -/
theorem StoreBundle.found (hne : x ≠ []) (h : StoreBundle cfg s (below q ++ x) m) :
    Found cfg s q x m := by
  obtain ⟨serial, hm, hfresh⟩ := h
  rw [← List.append_assoc] at hm
  refine ⟨visited_of_committed hfree hm hne, ?_, hfresh⟩
  rw [Backend.metaAt, hm]
  rfl

private theorem listsExactly_iff (hnamed : Named s.disk.tree) (hq : PlainPrefix q)
    {refs : List Backend.BundleRef}
    (hrefs : cfg.backend.listBundles s.disk (storeScanPrefix q) false = .ok refs)
    {entries : List ListingEntry} (hentries : entries.map (fun e => (e.path, e.bundle)) =
      (refs.map (·.path)).filterMap (shown cfg s "store/")) :
    ListsExactly cfg s q entries ↔ ReadsAsDirectory cfg s q := by
  have hmem : ∀ p m, (∃ e ∈ entries, e.path = p ∧ e.bundle = m) ↔
      ∃ x, Found cfg s q x m ∧ listedPath (below q ++ x) = p := by
    intro p m
    rw [← mem_shown_iff hq hnamed hrefs, ← hentries]
    simp only [List.mem_map, Prod.mk.injEq]
  have hinj : ∀ {x y : List String} {m : BundleMeta}, StoreBundle cfg s x m →
      Backend.Visited s.disk.tree (cfg.backend.storeLoc ++ below q) y →
      listedPath (below q ++ y) = listedPath x → below q ++ y = x := by
    intro x y m hx hv hpath
    exact listedPath_inj (by simp [hv.1]) (hx.ne_nil hfree) (names_of_visited hnamed hv)
      (hx.names hnamed) hpath
  constructor
  · intro h
    refine ⟨fun x m hx => ⟨fun hstarts => ?_, ?_⟩, ?_⟩
    · obtain ⟨y, hfound, hpath⟩ := (hmem _ m).mp ((h.exact _ m).mpr ⟨x, hx, rfl, hstarts⟩)
      rw [← hinj hx hfound.1 hpath]
      exact ⟨List.prefix_append _ _, by simpa using hfound.1.1⟩
    · rintro ⟨⟨y, rfl⟩, hne⟩
      have hy : y ≠ [] := by
        rintro rfl
        exact hne (by simp)
      obtain ⟨x', -, hpath, hstarts⟩ := (h.exact _ m).mp ((hmem _ m).mpr
        ⟨y, hx.found hfree hy, rfl⟩)
      exact hstarts
    · rintro y ⟨hv, m, hmeta, hfresh, hnot⟩
      obtain ⟨x, hx, hpath, -⟩ := (h.exact _ m).mp ((hmem _ m).mpr ⟨y, ⟨hv, hmeta, hfresh⟩, rfl⟩)
      obtain rfl := hinj hx hv hpath.symm
      obtain ⟨serial, hm, -⟩ := hx
      rw [← List.append_assoc] at hm
      exact hnot serial hm
  · intro h
    refine ⟨?_, fun p m => ?_⟩
    · have hfst : entries.map (·.path) =
          (entries.map fun e => (e.path, e.bundle)).map Prod.fst := by
        rw [List.map_map]
        rfl
      rw [hfst, hentries]
      exact sorted_shown hq hnamed hrefs
    · rw [hmem]
      constructor
      · rintro ⟨y, hfound, rfl⟩
        have hx := (Found.cases hfound).resolve_right (h.clear y)
        refine ⟨below q ++ y, hx, rfl, (h.same _ m hx).mpr ⟨List.prefix_append _ _, ?_⟩⟩
        simpa using hfound.1.1
      · rintro ⟨x, hx, rfl, hstarts⟩
        obtain ⟨⟨y, rfl⟩, hne⟩ := (h.same x m hx).mp hstarts
        have hy : y ≠ [] := by
          rintro rfl
          exact hne (by simp)
        exact ⟨y, hx.found hfree hy, rfl⟩

end Exactness

/-! ## The two surfaces -/

/-- Who lists the store, and over which surface. -/
inductive Lister where
  | rest (identity : Identity)
  | mcp (caller : Mcp.Caller)

namespace Lister

def handler (cfg : Config) (q : String) : Lister → Handler (List ListingEntry)
  | .rest identity => Files.listFiles cfg identity q
  | .mcp caller => Mcp.cassettaList cfg caller q

/-- The access policy lets the store be listed; over MCP the operation is counted. -/
def Authorised (env : Environment) : Lister → Prop
  | .rest identity => env.check identity (.files "*") .list = .ok true
  | .mcp caller => env.check caller.effective (.files "*") .list = .ok true ∧
      ∀ counter, env.increment counter = .ok ()

variable {l : Lister}

/-- Both surfaces show the same. -/
theorem returns_handler (hauth : l.Authorised env) (hstill : s.lag = fun _ => 0)
    {refs : List Backend.BundleRef}
    (hrefs : cfg.backend.listBundles s.disk (storeScanPrefix q) false = .ok refs) :
    Returns (exec cfg env) (l.handler cfg q) (fun entries _ =>
      entries.map (fun e => (e.path, e.bundle)) =
        (refs.map (·.path)).filterMap (shown cfg s "store/")) s := by
  have hasked := (Instant.refl hstill).ask (.files "*")
  have hlist : runE (exec cfg env) (listBundles (storeScanPrefix q) false)
      { s with asked := .files "*" :: s.asked } =
        (.ok refs, { s with asked := .files "*" :: s.asked }) := by
    rw [runE_listBundles, hrefs]
  have hshown := @instant_shown cfg env _ s hasked "store/" (refs.map (·.path))
  cases l with
  | rest identity =>
    refine (wpE_bind _ _ _).mpr ((returns_of_run (runE_enforce_ok hauth httpForbidden s)).mpr ?_)
    refine (wpE_bind _ _ _).mpr ((returns_of_run hlist).mpr ?_)
    exact wpE_mono (fun _ _ h => h.2) (fun _ _ hfalse => hfalse) hshown
  | mcp caller =>
    refine (wpE_bind _ _ _).mpr
      ((returns_of_run (runE_enforce_ok hauth.1 valueForbidden s)).mpr ?_)
    refine (wpE_bind _ _ _).mpr ((returns_of_run hlist).mpr ?_)
    refine (wpE_bind _ _ _).mpr (wpE_mono (fun entries s' h => ?_) (fun _ _ hfalse => hfalse)
      hshown)
    split
    · rename_i hnil
      rw [hnil] at h
      exact h.2
    · refine (wpE_bind _ _ _).mpr ((returns_of_run (runE_increment (hauth.2 _) s')).mpr ?_)
      exact h.2

/-- Where manifests may be unreadable, both show it if they can read all there is. -/
theorem endsIf_handler (hauth : l.Authorised env) (hq : PlainPrefix q)
    (hnamed : Named s.disk.tree) {refs : List Backend.BundleRef}
    (hrefs : cfg.backend.listBundles s.disk (storeScanPrefix q) false = .ok refs) :
    EndsIf (execReading cfg env g) (exec cfg env) (WalkReadable cfg g s q) (l.handler cfg q) s := by
  have hwalk : ∀ {s' : Server}, s'.disk = s.disk →
      EndsIf (execReading cfg env g) (exec cfg env) (WalkReadable cfg g s q)
        (listingEntries cfg "store/" (refs.map (·.path))) s' := by
    intro s' hdisk
    rw [← readable_iff hq hnamed hrefs, ← hdisk]
    exact endsIf_listingEntries "store/" (refs.map (·.path))
  have hlist : runE (exec cfg env) (listBundles (storeScanPrefix q) false)
      { s with asked := .files "*" :: s.asked } =
        (.ok refs, { s with asked := .files "*" :: s.asked }) := by
    rw [runE_listBundles, hrefs]
  have hlist' := (runE_reading_readless (g := g) (readless_listBundles _ _)).trans hlist
  cases l with
  | rest identity =>
    have henf := @runE_enforce_ok cfg _ _ _ _ hauth httpForbidden s
    refine EndsIf.bind_left ((runE_reading_readless (readless_enforce _ _ _ _)).trans henf) henf ?_
    exact EndsIf.bind_left hlist' hlist (hwalk rfl)
  | mcp caller =>
    have henf := @runE_enforce_ok cfg _ _ _ _ hauth.1 valueForbidden s
    refine EndsIf.bind_left ((runE_reading_readless (readless_enforce _ _ _ _)).trans henf) henf ?_
    refine EndsIf.bind_left hlist' hlist ?_
    refine EndsIf.bind_right (@hwalk { s with asked := .files "*" :: s.asked } rfl)
      fun entries s₃ => runE_reading_readless ?_
    split
    · trivial
    · exact OnlyE.bind (readless_increment _) fun _ => trivial

end Lister

/-- The calls that put one bundle of one file into the store. -/
def reportOps : List BackendOp :=
  [.openBundleWrite 0 "store/report.md", .writeFile 0 0 "report.md" [1],
    .commit 0 0 (smallMeta ["report.md"])]

/-- A server with that bundle. -/
def reportServer : Server :=
  { srvSystem.server with disk := Runs.run srvBackend.step (Disk.init srvTree) reportOps }

private theorem prefixFree_reportServer : PrefixFree srvConfig.backend reportServer.disk := by
  have hopen : (srvBackend.step (Disk.init srvTree)
      (.openBundleWrite 0 "store/report.md")).writers 0 =
      some ⟨srvBackend.resolve "store/report.md", []⟩ := by decide +kernel
  have hguard : Runs.Guarded srvBackend.step srvBackend.NestClear (Disk.init srvTree)
      reportOps := by
    refine ⟨⟨⟨["srv", "data", "store", "report.md"], by decide, .store, by decide⟩, ?_⟩,
      ⟨⟨["report.md"], by decide +kernel, by decide⟩, fun _ _ => .inl (by decide)⟩, trivial,
      trivial⟩
    intro _ h w hw
    simp [Disk.init] at hw
  refine hguard.invariant PrefixFree.step (prefixFree_init ?_ ?_)
  · intro q c hq
    rw [srvTree_fileAt]
    simp
  · intro q m serial
    rw [srvTree_fileAt]
    simp

private theorem named_reportServer :
    Named reportServer.disk.tree := named_of_entries (by decide +kernel)

end Cassetta
