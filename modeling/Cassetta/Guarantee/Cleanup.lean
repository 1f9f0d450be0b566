import Cassetta.Server.Reading

/-!
# What the background passes remove

`gc.sweep` and the TTL cleanup decide about a directory by what it directly holds and then
remove everything below it, and the cleanup ends at the first manifest that cannot be read. This
module computes the files either pass leaves, and says for which trees no bundle is lost with
another's directory and every expired one is found.
-/

namespace Cassetta

open FileTree Prog

/-! ## The listings of the two namespaces -/

namespace Backend

variable {b : Backend} {d : Disk} {now : Nat} {pre : String} {base : List String}

/-- Where a namespace of the background passes lies. -/
theorem resolve_namespace (b : Backend) :
    b.resolve "inbox/" = spell (b.dataLoc ++ ["inbox"]) ∧
      b.resolve "store/" = spell (b.dataLoc ++ ["store"]) := by
  have hi : steps "inbox/" = [.into "inbox"] ∧ isAbsolute "inbox/" = false := by decide
  have hs : steps "store/" = [.into "store"] ∧ isAbsolute "store/" = false := by decide
  simp [resolve, joinPath, hi, hs, dataRoot_eq, spell]

private theorem namespaces_apart (b : Backend) {k k' : String} (hk : k ≠ k') {loc : List String}
    (h : StrictlyInside (b.dataLoc ++ [k]) loc) : ¬Comparable (b.dataLoc ++ [k']) loc := by
  obtain ⟨⟨x, rfl⟩, -⟩ := h
  rintro (hp | hp) <;> rw [List.append_assoc, List.prefix_append_right_inj] at hp <;>
    simp at hp
  · exact hk hp.symm
  · exact hk hp.1

/-- A prefix below the data root resolves below it. -/
theorem dataRoot_prefix (hpre : b.resolve pre = spell base) (hroot : b.dataLoc <+: base) :
    b.dataRoot <+: b.resolve pre := by
  obtain ⟨x, rfl⟩ := hroot
  rw [hpre, spell_append, ← dataRoot_eq]
  exact List.prefix_append _ _

/-- What is listed is the spelling of a directory below the root of the listing. -/
theorem spelled_of_listed (hnamed : Named d.tree) (hpre : b.resolve pre = spell base)
    {orphans : Bool} {refs : List BundleRef} (hl : b.listBundles d pre orphans = .ok refs)
    {r : BundleRef} (hr : r ∈ refs) :
    b.resolve r.path = spell (b.location r.path) ∧ StrictlyInside base (b.location r.path) ∧
      d.tree.get (b.location r.path) = some .dir ∧ Sighted d orphans (b.location r.path) r := by
  obtain ⟨x, hv, hres, -, hs⟩ := resolve_of_mem_listBundles hnamed hl hr
  have hbase : b.location pre = base := by rw [location, hpre, normalize_spell]
  have hloc := location_of_resolve hres
  rw [hbase] at hloc hv hs
  rw [hloc]
  refine ⟨by rw [hres, hpre, spell_append], ⟨List.prefix_append _ _, ?_⟩, hv.2.1, hs⟩
  simpa using hv.1

/-! ## One namespace of the orphan sweep -/

/-- A directory that a sweep of a namespace removes. -/
def Swept (b : Backend) (now minAge : Nat) (pre : String) (d : Disk) (dir : List String) : Prop :=
  ∃ path ∈ b.sweepTargets now minAge pre d, b.location path = dir

/-- What is swept are the old directories without a manifest. -/
theorem mem_sweepTargets {minAge : Nat} {path : String} {refs : List BundleRef}
    (hl : b.listBundles d pre true = .ok refs) :
    path ∈ b.sweepTargets now minAge pre d ↔ ∃ r ∈ refs, r.path = path ∧ r.hasMeta = false ∧
      r.mtime + secondsToMicros minAge ≤ now := by
  rw [sweepTargets, hl]
  simp only [List.mem_map, List.mem_filter, decide_eq_true_eq, Bool.not_eq_true, not_lt]
  constructor
  · rintro ⟨r, ⟨hr, hm, ht⟩, hp⟩
    exact ⟨r, hr, hp, hm, ht⟩
  · rintro ⟨r, hr, hp, hm, ht⟩
    exact ⟨r, ⟨hr, hm, ht⟩, hp⟩

private theorem steady_dirAt : Tree.Steady (Tree.dirAt (κ := String) (β := Blob)) where
  dir h := Tree.dirAt_iff.mp h
  remove := by
    intro t loc₀ loc h₀ hnot
    by_cases hnil : loc = []
    · simp [Tree.dirAt, hnil]
    · rw [Tree.dirAt, Tree.dirAt, Tree.get_remove _ _ hnil, if_neg hnot]

/-- What the targets of a sweep are. -/
theorem Swept.facts (hnamed : Named d.tree) (hpre : b.resolve pre = spell base)
    (hroot : b.dataLoc <+: base) {minAge : Nat} {path : String}
    (h : path ∈ b.sweepTargets now minAge pre d) :
    b.resolve path = spell (b.location path) ∧ StrictlyInside base (b.location path) ∧
      d.tree.get (b.location path) = some .dir ∧
      bundleManifest ∉ fileNames d.tree (b.location path) ∧
      d.mtime (b.location path) + secondsToMicros minAge ≤ now := by
  have hdata := dataRoot_prefix hpre hroot
  obtain ⟨refs, hl⟩ := listBundles_ok hdata d true
  obtain ⟨r, hr, rfl, hmeta, hage⟩ := (mem_sweepTargets hl).mp h
  obtain ⟨hres, hin, hdir, hmt, hs⟩ := spelled_of_listed hnamed hpre hl hr
  refine ⟨hres, hin, hdir, ?_, hmt ▸ hage⟩
  rcases hs with ⟨-, hm⟩ | ⟨hno, -⟩
  · rw [hmeta] at hm
    cases hm
  · exact hno

private theorem sweep_namespace (hnamed : Named d.tree) (hpre : b.resolve pre = spell base)
    (hroot : b.dataLoc <+: base) (now minAge w : Nat) :
    Pruned d.tree (b.deleteEach w (b.sweepTargets now minAge pre d) d).tree
      (b.Swept now minAge pre d) ∧
      ∀ base', (∀ loc, StrictlyInside base loc → ¬Comparable base' loc) →
        SameBelow base' d (b.deleteEach w (b.sweepTargets now minAge pre d) d) := by
  have hne : ∀ {path}, path ∈ b.sweepTargets now minAge pre d → b.location path ≠ [] := by
    intro path hp he
    have hin := (Swept.facts hnamed hpre hroot hp).2.1
    rw [he] at hin
    exact hin.2 (List.prefix_nil.mp hin.1).symm
  have hspelled : b.Spelled (b.sweepTargets now minAge pre d) := fun path hp =>
    ⟨(Swept.facts hnamed hpre hroot hp).1, hne hp⟩
  refine ⟨?_, fun base' hcmp => deleteEach_sameBelow hspelled (fun path hp =>
    hcmp _ (Swept.facts hnamed hpre hroot hp).2.1) d⟩
  rw [deleteEach_tree hspelled]
  refine (pruned_prune steady_dirAt ?_ d.tree).congr fun dir => ?_
  · intro loc hm
    obtain ⟨path, hp, rfl⟩ := List.mem_map.mp hm
    exact hne hp
  · constructor
    · rintro ⟨hm, -⟩
      exact List.mem_map.mp hm
    · rintro ⟨path, hp, rfl⟩
      exact ⟨List.mem_map_of_mem hp, Tree.dirAt_iff.mpr (Swept.facts hnamed hpre hroot hp).2.2.1⟩

/-- A change elsewhere does not change what a sweep removes. -/
theorem Swept.of_sameBelow {d' : Disk} (hpre : b.resolve pre = spell base)
    (hroot : b.dataLoc <+: base) (h : SameBelow base d d') (now minAge : Nat) (dir : List String) :
    b.Swept now minAge pre d' dir ↔ b.Swept now minAge pre d dir := by
  have hdata := dataRoot_prefix hpre hroot
  obtain ⟨refs, hl⟩ := listBundles_ok hdata d true
  obtain ⟨refs', hl'⟩ := listBundles_ok hdata d' true
  have hmem := SameBelow.mem_listBundles hpre h hl hl'
  simp only [Swept, mem_sweepTargets hl, mem_sweepTargets hl', hmem]

/-! ## One namespace of the TTL cleanup -/

/-- The bundles that have expired go, one after the other. -/
def cleanEach (b : Backend) (expired : BundleMeta → Bool) (now : Nat) (paths : List String)
    (d : Disk) : Disk :=
  paths.foldl (fun d path =>
    if (b.readBundleMeta d.tree path).any expired then (b.deleteBundle now path d).2 else d) d

/-- A listing shows no manifest that cannot be read. -/
def Readable (b : Backend) (g : Garble b) (pre : String) (d : Disk) : Prop :=
  ∀ refs, b.listBundles d pre false = .ok refs → ∀ r ∈ refs, b.garbled g d.tree r.path = false

/-- A directory with an expired manifest that a listing shows before the first manifest that
cannot be read. -/
def Doomed (b : Backend) (g : Garble b) (expired : BundleMeta → Bool) (pre : String) (d : Disk)
    (dir : List String) : Prop :=
  (b.metaAt d.tree dir).any expired = true ∧
    ∃ refs r, b.listBundles d pre false = .ok refs ∧ r ∈ refs ∧ b.location r.path = dir ∧
      ∀ r' ∈ refs, r'.path ≤ r.path → b.garbled g d.tree r'.path = false

/-- A condition on a manifest and where it is. -/
theorem steady_metaAt (b : Backend) (p : List String → BundleMeta → Bool) :
    Tree.Steady fun t loc => (b.metaAt t loc).any (p loc) where
  dir := by
    intro t loc h
    cases hm : b.metaAt t loc with
    | none => simp [hm] at h
    | some m => exact dir_of_metaAt hm
  remove := by
    intro t loc₀ loc h₀ hnot
    have hdir : t.get loc₀ = some .dir := by
      cases hm : b.metaAt t loc₀ with
      | none => simp [hm] at h₀
      | some m => exact dir_of_metaAt hm
    have hfile : (t.remove loc₀).fileAt (loc ++ [bundleManifest]) =
        t.fileAt (loc ++ [bundleManifest]) := by
      rw [Tree.fileAt, Tree.fileAt, Tree.get_remove _ _ (by simp)]
      by_cases hp : loc₀ <+: loc ++ [bundleManifest]
      · rcases List.prefix_concat_iff.mp hp with rfl | hp
        · simp [hdir]
        · exact absurd hp hnot
      · rw [if_neg hp]
    rw [metaAt, metaAt, hfile]

private theorem steady_expired (b : Backend) (expired : BundleMeta → Bool) :
    Tree.Steady fun t loc => (b.metaAt t loc).any expired := b.steady_metaAt fun _ => expired

private theorem cleanEach_tree {expired : BundleMeta → Bool} {paths : List String}
    (h : b.Spelled paths)
    (d : Disk) : (b.cleanEach expired now paths d).tree =
      Tree.prune (fun t loc => (b.metaAt t loc).any expired) (paths.map b.location) d.tree := by
  induction paths generalizing d with
  | nil => rfl
  | cons path rest ih =>
    obtain ⟨hp, hne⟩ := h path (by simp)
    have hstep : b.cleanEach expired now (path :: rest) d = b.cleanEach expired now rest
        (if (b.readBundleMeta d.tree path).any expired then (b.deleteBundle now path d).2
          else d) := rfl
    rw [hstep, ih fun p hm => h p (by simp [hm]), readBundleMeta_eq hp]
    have htree : (if (b.metaAt d.tree (b.location path)).any expired then
        (b.deleteBundle now path d).2 else d).tree =
        Tree.removeIf (fun t loc => (b.metaAt t loc).any expired) d.tree (b.location path) := by
      unfold Tree.removeIf
      split
      · rename_i hx
        rw [deleteBundle_tree hp hne,
          if_pos (Tree.dirAt_iff.mpr ((b.steady_expired expired).dir hx))]
      · rfl
    rw [htree]
    rfl

private theorem cleanEach_sameBelow {expired : BundleMeta → Bool} {paths : List String}
    (h : b.Spelled paths) (hcmp : ∀ path ∈ paths, ¬Comparable base (b.location path)) (d : Disk) :
    SameBelow base d (b.cleanEach expired now paths d) := by
  induction paths generalizing d with
  | nil => exact SameBelow.refl _ _
  | cons path rest ih =>
    obtain ⟨hp, hne⟩ := h path (by simp)
    have hstep : SameBelow base d (if (b.readBundleMeta d.tree path).any expired then
        (b.deleteBundle now path d).2 else d) := by
      split
      · exact deleteBundle_sameBelow hp hne (hcmp path (by simp))
      · exact SameBelow.refl _ _
    exact hstep.trans (ih (fun p hm => h p (by simp [hm])) (fun p hm => hcmp p (by simp [hm])) _)

private theorem named_cleanEach (h : Named d.tree) (expired : BundleMeta → Bool) (now : Nat)
    (paths : List String) : Named (b.cleanEach expired now paths d).tree := by
  induction paths generalizing d with
  | nil => exact h
  | cons path rest ih =>
    refine ih (d := if (b.readBundleMeta d.tree path).any expired then _ else d) ?_
    split
    · exact named_deleteBundle h now path
    · exact h

private theorem spelled_listed (hnamed : Named d.tree) (hpre : b.resolve pre = spell base)
    {orphans : Bool} {refs : List BundleRef} (hl : b.listBundles d pre orphans = .ok refs) :
    b.Spelled (refs.map (·.path)) := by
  intro path hp
  obtain ⟨r, hr, rfl⟩ := List.mem_map.mp hp
  obtain ⟨hres, hin, -, -⟩ := spelled_of_listed hnamed hpre hl hr
  refine ⟨hres, fun he => ?_⟩
  rw [he] at hin
  exact hin.2 (List.prefix_nil.mp hin.1).symm

/-- Of two listed bundles neither lies below the other. -/
theorem listed_apart (hnamed : Named d.tree) (hpre : b.resolve pre = spell base)
    {refs : List BundleRef} (hl : b.listBundles d pre false = .ok refs)
    (hsorted : (refs.map (·.path)).Pairwise (· < ·)) :
    (refs.map (·.path)).Pairwise fun p q => ¬Comparable (b.location q) (b.location p) := by
  have hbase : b.location pre = base := by rw [location, hpre, normalize_spell]
  have hstop : ∀ {x y : List String}, Visited d.tree base y → x ≠ [] → StrictlyInside x y →
      bundleManifest ∉ fileNames d.tree (base ++ x) := by
    intro x y hy hne hin hmem
    rw [hy.2.2 x hne hin] at hmem
    cases hmem
  have hhas : ∀ {loc r}, Sighted d false loc r → bundleManifest ∈ fileNames d.tree loc := by
    rintro loc r ⟨-, ⟨hm, -⟩ | ⟨-, -, hf, -⟩⟩
    · exact hm
    · cases hf
  refine hsorted.imp_of_mem fun {p q} hp hq hlt hcmp => ?_
  obtain ⟨r, hr, rfl⟩ := List.mem_map.mp hp
  obtain ⟨r', hr', rfl⟩ := List.mem_map.mp hq
  obtain ⟨x, hv, hres, hpath, hs⟩ := resolve_of_mem_listBundles hnamed hl hr
  obtain ⟨x', hv', hres', hpath', hs'⟩ := resolve_of_mem_listBundles hnamed hl hr'
  rw [location_of_resolve hres, location_of_resolve hres'] at hcmp
  rw [hbase] at hv hv' hs hs'
  have hne : x ≠ x' := by
    rintro rfl
    exact hlt.ne (hpath.trans hpath'.symm)
  rcases hcmp with hin | hin
  · exact hstop hv hv'.1 ⟨(List.prefix_append_right_inj _).mp hin, hne⟩ (hhas hs')
  · exact hstop hv' hv.1 ⟨(List.prefix_append_right_inj _).mp hin, hne.symm⟩ (hhas hs)

private theorem clean_namespace (hnamed : Named d.tree) (hpre : b.resolve pre = spell base)
    {refs : List BundleRef} (hl : b.listBundles d pre false = .ok refs)
    (expired : BundleMeta → Bool) (w : Nat) {paths : List String}
    (hsub : ∀ path ∈ paths, path ∈ refs.map (·.path)) :
    Pruned d.tree (b.cleanEach expired w paths d).tree
        (fun dir => (b.metaAt d.tree dir).any expired = true ∧
          ∃ path ∈ paths, b.location path = dir) ∧
      ∀ base', (∀ loc, StrictlyInside base loc → ¬Comparable base' loc) →
        SameBelow base' d (b.cleanEach expired w paths d) := by
  have hspelled : b.Spelled paths :=
    fun path hp => spelled_listed hnamed hpre hl path (hsub path hp)
  have hin : ∀ path ∈ paths, StrictlyInside base (b.location path) := by
    intro path hp
    obtain ⟨r, hr, rfl⟩ := List.mem_map.mp (hsub path hp)
    exact (spelled_of_listed hnamed hpre hl hr).2.1
  refine ⟨?_, fun base' hcmp => cleanEach_sameBelow hspelled
    (fun path hp => hcmp _ (hin path hp)) d⟩
  rw [cleanEach_tree hspelled]
  refine (pruned_prune (b.steady_expired expired) ?_ d.tree).congr fun dir => ?_
  · intro loc hm
    obtain ⟨path, hp, rfl⟩ := List.mem_map.mp hm
    exact (hspelled path hp).2
  · rw [List.mem_map, and_comm]

private theorem mem_takeWhile_iff {paths : List String} (hsorted : paths.Pairwise (· < ·))
    (ok : String → Bool) (path : String) :
    path ∈ paths.takeWhile ok ↔ path ∈ paths ∧ ∀ p ∈ paths, p ≤ path → ok p = true := by
  induction paths with
  | nil => simp
  | cons p rest ih =>
    obtain ⟨hlt, hrest⟩ := List.pairwise_cons.mp hsorted
    rw [List.takeWhile_cons, List.forall_mem_cons]
    by_cases hok : ok p = true
    · rw [if_pos hok, List.mem_cons, ih hrest, List.mem_cons]
      constructor
      · rintro (rfl | ⟨hmem, hall⟩)
        · exact ⟨.inl rfl, fun _ => hok, fun q hq hle => absurd hle (hlt q hq).not_ge⟩
        · exact ⟨.inr hmem, fun _ => hok, hall⟩
      · rintro ⟨rfl | hmem, -, hall⟩
        · exact .inl rfl
        · exact .inr ⟨hmem, hall⟩
    · rw [if_neg hok]
      refine iff_of_false List.not_mem_nil ?_
      rintro ⟨hmem, hfirst, -⟩
      refine hok (hfirst ?_)
      rcases List.mem_cons.mp hmem with rfl | hmem
      · exact le_rfl
      · exact (hlt path hmem).le

variable {g : Garble b}

/-- The doomed directories, by the paths that a cleanup comes to. -/
theorem doomed_iff {refs : List BundleRef} (hl : b.listBundles d pre false = .ok refs)
    (hsorted : (refs.map (·.path)).Pairwise (· < ·)) {expired : BundleMeta → Bool}
    (dir : List String) : b.Doomed g expired pre d dir ↔
      (b.metaAt d.tree dir).any expired = true ∧
        ∃ path ∈ (refs.map (·.path)).takeWhile (fun p => !b.garbled g d.tree p),
          b.location path = dir := by
  refine and_congr_right' ⟨?_, ?_⟩
  · rintro ⟨refs', r, hl', hr, rfl, hall⟩
    obtain rfl := Except.ok.inj (hl.symm.trans hl')
    refine ⟨r.path, (mem_takeWhile_iff hsorted _ _).mpr ⟨List.mem_map_of_mem hr, ?_⟩, rfl⟩
    intro p hp hle
    obtain ⟨r', hr', rfl⟩ := List.mem_map.mp hp
    simp [hall r' hr' hle]
  · rintro ⟨path, hpath, rfl⟩
    obtain ⟨hmem, hall⟩ := (mem_takeWhile_iff hsorted _ _).mp hpath
    obtain ⟨r, hr, rfl⟩ := List.mem_map.mp hmem
    refine ⟨refs, r, hl, hr, rfl, fun r' hr' hle => ?_⟩
    simpa using hall r'.path (List.mem_map_of_mem hr') hle

/-- A change elsewhere does not change whether a manifest can be read. -/
theorem garbled_of_sameBelow {d' : Disk} {path : String} {loc : List String}
    (h : b.resolve path = spell loc) (hsame : SameBelow base d d') (hin : base <+: loc) :
    b.garbled g d'.tree path = b.garbled g d.tree path := by
  rw [garbled_eq h, garbled_eq h, garbledAt, garbledAt, Tree.fileAt, Tree.fileAt,
    (hsame _ (hin.trans (List.prefix_append _ _))).1]

/-- A change elsewhere does not change what a cleanup removes. -/
theorem Doomed.of_sameBelow {d' : Disk} (hnamed : Named d.tree) (hpre : b.resolve pre = spell base)
    (hroot : b.dataLoc <+: base) (h : SameBelow base d d') (expired : BundleMeta → Bool)
    (dir : List String) : b.Doomed g expired pre d' dir ↔ b.Doomed g expired pre d dir := by
  have hdata := dataRoot_prefix hpre hroot
  obtain ⟨refs, hl⟩ := listBundles_ok hdata d false
  obtain ⟨refs', hl'⟩ := listBundles_ok hdata d' false
  have hmem := SameBelow.mem_listBundles hpre h hl hl'
  have hsame :
    ∀ r ∈ refs, b.metaAt d'.tree (b.location r.path) = b.metaAt d.tree (b.location r.path) := by
    intro r hr
    obtain ⟨-, hin, -, -⟩ := spelled_of_listed hnamed hpre hl hr
    rw [metaAt, metaAt, Tree.fileAt, Tree.fileAt, (h _ (hin.1.trans (List.prefix_append _ _))).1]
  have hread : ∀ r ∈ refs, b.garbled g d'.tree r.path = b.garbled g d.tree r.path := by
    intro r hr
    obtain ⟨hres, hin, -, -⟩ := spelled_of_listed hnamed hpre hl hr
    exact garbled_of_sameBelow hres h hin.1
  constructor
  · rintro ⟨hx, refs₂, r, hl₂, hr, rfl, hall⟩
    obtain rfl := Except.ok.inj (hl'.symm.trans hl₂)
    have hr' := (hmem r).mp hr
    refine ⟨hsame r hr' ▸ hx, refs, r, hl, hr', rfl, fun q hq hle => ?_⟩
    rw [← hread q hq]
    exact hall q ((hmem q).mpr hq) hle
  · rintro ⟨hx, refs₂, r, hl₂, hr, rfl, hall⟩
    obtain rfl := Except.ok.inj (hl.symm.trans hl₂)
    refine ⟨(hsame r hr).symm ▸ hx, refs', r, hl', (hmem r).mpr hr, rfl, fun q hq hle => ?_⟩
    rw [hread q ((hmem q).mp hq)]
    exact hall q ((hmem q).mp hq) hle

end Backend

/-! ## The orphan sweep -/

section Passes

variable {cfg : Config} {env : Environment} {g : Garble cfg.backend} {s : Server}

private theorem runE_deleteAll (paths : List String) (s : Server) :
    runE (exec cfg env) (Background.deleteAll paths) s =
      (.ok (), s.setDisk (cfg.backend.deleteEach s.wall paths s.disk)) := by
  induction paths generalizing s with
  | nil => rfl
  | cons path rest ih =>
    rw [Background.deleteAll, runE_bind_ok (runE_deleteBundle_plain path s), ih]
    rfl

private theorem runE_sweepNamespaces (t : Nat) (pres : List String) (s : Server) :
    runE (exec cfg env) (Background.sweepNamespaces cfg t pres) s =
      (.ok (), s.setDisk (pres.foldl (fun d pre => cfg.backend.deleteEach s.wall
        (cfg.backend.sweepTargets t cfg.limits.passiveGcMinAge pre d) d) s.disk)) := by
  induction pres generalizing s with
  | nil => rfl
  | cons pre rest ih =>
    have hlist : ∃ refs, runE (exec cfg env)
        (tryCatch (listBundles pre true) fun _ => pure []) s = (.ok refs, s) ∧
        ((refs.filter fun r => ¬r.hasMeta ∧
          ¬t < r.mtime + secondsToMicros cfg.limits.passiveGcMinAge).map (·.path)) =
          cfg.backend.sweepTargets t cfg.limits.passiveGcMinAge pre s.disk := by
      cases hl : cfg.backend.listBundles s.disk pre true with
      | ok refs =>
        refine ⟨refs, ?_, by rw [Backend.sweepTargets, hl]⟩
        rw [runE_tryCatch, runE_listBundles, hl]
      | error e =>
        refine ⟨[], ?_, by rw [Backend.sweepTargets, hl]; rfl⟩
        rw [runE_tryCatch, runE_listBundles, hl]
        rfl
    obtain ⟨refs, hrun, htargets⟩ := hlist
    rw [Background.sweepNamespaces, runE_bind_ok hrun]
    simp only [htargets]
    rw [runE_bind_ok (runE_deleteAll _ s), ih]
    rfl

/-- The server after one pass of the orphan sweep. -/
def sweepOnce (cfg : Config) (env : Environment) (s : Server) : Server :=
  (runE (exec cfg env) (Background.sweep cfg) s).2

/-- The moment a pass takes for now. -/
def Server.passTime (cfg : Config) (env : Environment) (s : Server) : Nat := (exec cfg env .now s).1

/-- A directory that the pass removes, judged by the tree it starts on. -/
def SweptDir (cfg : Config) (env : Environment) (s : Server) (dir : List String) : Prop :=
  ∃ pre ∈ gcNamespaces,
    cfg.backend.Swept (s.passTime cfg env) cfg.limits.passiveGcMinAge pre s.disk dir

/-- A sweep prunes what is due and nothing else. -/
theorem sweepOnce_pruned (cfg : Config) (env : Environment) (hnamed : Named s.disk.tree) :
    Pruned s.disk.tree (sweepOnce cfg env s).disk.tree (SweptDir cfg env s) := by
  obtain ⟨hinbox, hstore⟩ := cfg.backend.resolve_namespace
  have hnow : runE (exec cfg env) now s = (.ok (s.passTime cfg env), (exec cfg env .now s).2) := rfl
  have hdisk : (sweepOnce cfg env s).disk = gcNamespaces.foldl
      (fun d pre => cfg.backend.deleteEach (exec cfg env .now s).2.wall
        (cfg.backend.sweepTargets (s.passTime cfg env) cfg.limits.passiveGcMinAge pre d) d)
      s.disk := by
    rw [sweepOnce, Background.sweep, runE_bind_ok hnow, runE_sweepNamespaces]
    rfl
  rw [hdisk]
  obtain ⟨hinboxTree, hother⟩ := Backend.sweep_namespace hnamed hinbox (List.prefix_append _ _)
    (s.passTime cfg env) cfg.limits.passiveGcMinAge (exec cfg env .now s).2.wall
  have hsame := hother (cfg.backend.dataLoc ++ ["store"]) fun loc =>
    cfg.backend.namespaces_apart (by decide)
  obtain ⟨hstoreTree, -⟩ := Backend.sweep_namespace (Backend.named_deleteEach hnamed _ _) hstore
    (List.prefix_append _ _) (s.passTime cfg env) cfg.limits.passiveGcMinAge
    (exec cfg env .now s).2.wall
  have hswept := Backend.Swept.of_sameBelow hstore (List.prefix_append _ _) hsame
    (s.passTime cfg env) cfg.limits.passiveGcMinAge
  refine (hinboxTree.union (hstoreTree.congr hswept) ?_).congr fun dir => ?_
  · rintro dir ⟨path, hp, rfl⟩
    exact (Backend.Swept.facts hnamed hstore (List.prefix_append _ _) hp).2.2.1
  · simp [SweptDir, gcNamespaces]

/-! ## The TTL cleanup -/

/-- A manifest that is past its time; a TTL of zero means never. -/
def expiredAt (cfg : Config) (t : Nat) (m : BundleMeta) : Bool :=
  cfg.defaultTtl ≠ 0 ∧ m.createdAt + secondsToMicros cfg.defaultTtl < t

/-- The loop goes through the bundles up to the first whose manifest cannot be read, and ends
there. -/
theorem runE_cleanupEach (httl : cfg.defaultTtl ≠ 0) (t : Nat) {paths : List String} {s : Server}
    (hspelled : cfg.backend.Spelled paths)
    (hapart : paths.Pairwise fun p q =>
      ¬Comparable (cfg.backend.location q) (cfg.backend.location p))
    {ok : String → Bool}
    (hok : ∀ p ∈ paths, ok p = !cfg.backend.garbled g s.disk.tree p) :
    ∃ r, runE (execReading cfg env g) (Background.cleanupEach cfg t paths) s =
        (r, s.setDisk (cfg.backend.cleanEach (expiredAt cfg t) s.wall (paths.takeWhile ok)
          s.disk)) ∧
      ((∀ p ∈ paths, ok p = true) ∧ r = .ok () ∨
        ¬(∀ p ∈ paths, ok p = true) ∧ ∃ e, r = .error e) := by
  induction paths generalizing s with
  | nil => exact ⟨.ok (), rfl, .inl ⟨by simp, rfl⟩⟩
  | cons path rest ih =>
    obtain ⟨hpath, hrest⟩ := List.pairwise_cons.mp hapart
    have hread := @runE_reading_readBundleMeta cfg env g path s
    rw [Background.cleanupEach, runE_bind_ok hread, List.takeWhile_cons, List.forall_mem_cons]
    cases hg : cfg.backend.garbled g s.disk.tree path with
    | true =>
      have hno : ok path = false := by rw [hok path (by simp), hg]; rfl
      rw [hno]
      exact ⟨.error (.storage (.valueError "invalid start byte")), rfl, by simp⟩
    | false =>
      have hyes : ok path = true := by rw [hok path (by simp), hg]; rfl
      have hstep : cfg.backend.cleanEach (expiredAt cfg t) s.wall
            (path :: rest.takeWhile ok) s.disk =
          cfg.backend.cleanEach (expiredAt cfg t) s.wall (rest.takeWhile ok)
            (if (cfg.backend.readBundleMeta s.disk.tree path).any (expiredAt cfg t) then
              (cfg.backend.deleteBundle s.wall path s.disk).2 else s.disk) := rfl
      have hsame := ih (s := s) (fun p hp => hspelled p (by simp [hp])) hrest
        fun p hp => hok p (by simp [hp])
      simp only [hyes, if_true, true_and, hstep, Bool.false_eq_true, if_false]
      cases hm : cfg.backend.readBundleMeta s.disk.tree path with
      | none => exact hsame
      | some m =>
        by_cases hx : m.createdAt + secondsToMicros cfg.defaultTtl < t
        · have he : expiredAt cfg t m = true := by simp [expiredAt, httl, hx]
          have hdelete : runE (execReading cfg env g) (deleteBundle path) s =
              (.ok (cfg.backend.deleteBundle s.wall path s.disk).1,
                s.setDisk (cfg.backend.deleteBundle s.wall path s.disk).2) := rfl
          obtain ⟨hp, hne⟩ := hspelled path (by simp)
          simp only [Option.any_some, if_pos hx, if_pos he]
          rw [runE_bind_ok hdelete]
          refine ih (s := s.setDisk _) (fun p hp => hspelled p (by simp [hp])) hrest
            fun p hp' => ?_
          rw [hok p (by simp [hp'])]
          exact congrArg _ (Backend.garbled_of_sameBelow (hspelled p (by simp [hp'])).1
            (Backend.deleteBundle_sameBelow hp hne (hpath p hp')) (List.prefix_refl _)).symm
        · have he : ¬expiredAt cfg t m = true := by simp [expiredAt, hx]
          simp only [Option.any_some, if_neg hx, if_neg he]
          exact hsame

/-- The server after one turn of the TTL cleanup. -/
def cleanupOnce (cfg : Config) (env : Environment) (g : Garble cfg.backend) (s : Server) : Server :=
  (runE (execReading cfg env g) (Background.ttlCleanup cfg) s).2

/-- A directory that the turn removes, judged by the tree it starts on. The inboxes have their
turn when the whole store could be read. -/
def DoomedDir (cfg : Config) (env : Environment) (g : Garble cfg.backend) (s : Server)
    (dir : List String) : Prop :=
  cfg.backend.Doomed g (expiredAt cfg (s.passTime cfg env)) "store/" s.disk dir ∨
    cfg.backend.Readable g "store/" s.disk ∧
      cfg.backend.Doomed g (expiredAt cfg (s.passTime cfg env)) "inbox/" s.disk dir

/-- One namespace of the turn. -/
theorem cleanup_namespace (httl : cfg.defaultTtl ≠ 0) (t : Nat) (hnamed : Named s.disk.tree)
    {pre : String} {k : String} (hk : FileName k)
    (hpre : cfg.backend.resolve pre = spell (cfg.backend.dataLoc ++ [k])) :
    ∃ d', Pruned s.disk.tree d'.tree (cfg.backend.Doomed g (expiredAt cfg t) pre s.disk) ∧
      Named d'.tree ∧
      (∀ base, (∀ loc, StrictlyInside (cfg.backend.dataLoc ++ [k]) loc → ¬Comparable base loc) →
        SameBelow base s.disk d') ∧
      ((cfg.backend.Readable g pre s.disk ∧ ∀ rest, runE (execReading cfg env g)
            (Background.cleanupNamespaces cfg t (pre :: rest)) s =
          runE (execReading cfg env g) (Background.cleanupNamespaces cfg t rest) (s.setDisk d')) ∨
        ¬cfg.backend.Readable g pre s.disk ∧ ∃ e, ∀ rest, runE (execReading cfg env g)
            (Background.cleanupNamespaces cfg t (pre :: rest)) s = (.error e, s.setDisk d')) := by
  obtain ⟨refs, hl⟩ := Backend.listBundles_ok
    (Backend.dataRoot_prefix hpre (List.prefix_append _ _)) s.disk false
  have hsorted := Backend.sorted_listBundles hnamed
    (@proper_spell [k] (by simpa using hk))
    (by rw [hpre, spell_append, ← Backend.dataRoot_eq]) hl
  have hspelled := Backend.spelled_listed hnamed hpre hl
  obtain ⟨r, hrun, hr⟩ := @runE_cleanupEach cfg env g httl t _ _ hspelled
    (Backend.listed_apart hnamed hpre hl hsorted) _ fun p _ => rfl
  obtain ⟨hpruned, hother⟩ := Backend.clean_namespace hnamed hpre hl (expiredAt cfg t) s.wall
    fun path hp => List.takeWhile_subset _ hp
  have hlist : runE (execReading cfg env g) (listBundles pre false) s = (.ok refs, s) := by
    rw [runE_reading_readless (readless_listBundles pre false), runE_listBundles, hl]
  have hall : (∀ p ∈ refs.map (·.path), (!cfg.backend.garbled g s.disk.tree p) = true) ↔
      cfg.backend.Readable g pre s.disk := by
    constructor
    · intro h refs' hl' r' hr'
      obtain rfl := Except.ok.inj (hl.symm.trans hl')
      simpa using h r'.path (List.mem_map_of_mem hr')
    · intro h p hp
      obtain ⟨r', hr', rfl⟩ := List.mem_map.mp hp
      simp [h refs hl r' hr']
  refine ⟨_, hpruned.congr fun dir => (Backend.doomed_iff hl hsorted dir).symm,
    Backend.named_cleanEach hnamed _ _ _, hother, ?_⟩
  rcases hr with ⟨hyes, rfl⟩ | ⟨hno, e, rfl⟩
  · refine .inl ⟨hall.mp hyes, fun rest => ?_⟩
    rw [Background.cleanupNamespaces, runE_bind_ok hlist, runE_bind_ok hrun]
  · refine .inr ⟨fun h => hno (hall.mpr h), e, fun rest => ?_⟩
    rw [Background.cleanupNamespaces, runE_bind_ok hlist, runE_bind, hrun]

private theorem cleanupOnce_pruned (cfg : Config) (env : Environment) (g : Garble cfg.backend)
    (hnamed : Named s.disk.tree) :
    Pruned s.disk.tree (cleanupOnce cfg env g s).disk.tree (DoomedDir cfg env g s) := by
  by_cases httl : cfg.defaultTtl = 0
  · have hnever : ∀ pre dir,
        ¬cfg.backend.Doomed g (expiredAt cfg (s.passTime cfg env)) pre s.disk dir := by
      rintro pre dir ⟨hx, -⟩
      cases hm : cfg.backend.metaAt s.disk.tree dir with
      | none => simp [hm] at hx
      | some m => simp [hm, expiredAt, httl] at hx
    have hnone : ∀ dir, ¬DoomedDir cfg env g s dir := fun dir h =>
      h.elim (hnever _ dir) fun h => hnever _ dir h.2
    have hsame : cleanupOnce cfg env g s = s := by
      rw [cleanupOnce, Background.ttlCleanup, if_pos httl]
      rfl
    rw [hsame]
    refine ⟨fun dir hD => absurd hD (hnone dir), fun q _ => .inr ⟨fun dir hD => ?_, rfl⟩⟩
    exact absurd hD (hnone dir)
  · obtain ⟨hinbox, hstore⟩ := cfg.backend.resolve_namespace
    have hnow : runE (execReading cfg env g) now s =
        (.ok (s.passTime cfg env), (exec cfg env .now s).2) := rfl
    obtain ⟨d₁, hstoreTree, hnamed', hother, hrun⟩ := @cleanup_namespace cfg env g
      (exec cfg env .now s).2 httl (s.passTime cfg env) hnamed _ _ (by decide) hstore
    have hsame := hother (cfg.backend.dataLoc ++ ["inbox"]) fun loc =>
      cfg.backend.namespaces_apart (by decide)
    obtain ⟨d₂, hinboxTree, -, -, hrun'⟩ := @cleanup_namespace cfg env g
      ((exec cfg env .now s).2.setDisk d₁) httl (s.passTime cfg env) hnamed' _ _ (by decide) hinbox
    have hdoomed := Backend.Doomed.of_sameBelow (g := g) hnamed hinbox (List.prefix_append _ _)
      hsame (expiredAt cfg (s.passTime cfg env))
    have hpass : (cleanupOnce cfg env g s).disk = (runE (execReading cfg env g)
        (tryCatch (Background.cleanupNamespaces cfg (s.passTime cfg env) ["store/", "inbox/"])
          fun _ => pure ()) (exec cfg env .now s).2).2.disk := by
      rw [cleanupOnce, Background.ttlCleanup, if_neg httl, runE_bind_ok hnow]
      rfl
    rw [hpass, runE_tryCatch]
    rcases hrun with ⟨hreadable, hrun⟩ | ⟨hgarbled, e, hrun⟩
    · have htree : Pruned s.disk.tree d₂.tree (DoomedDir cfg env g s) := by
        refine (hstoreTree.union (hinboxTree.congr hdoomed) ?_).congr fun dir => ?_
        · rintro dir ⟨hx, -⟩
          exact (cfg.backend.steady_expired _).dir hx
        · exact or_congr_right (and_iff_right hreadable).symm
      rw [hrun]
      rcases hrun' with ⟨-, hrun'⟩ | ⟨-, e, hrun'⟩
      · rw [hrun']
        exact htree
      · rw [hrun']
        exact htree
    · rw [hrun]
      exact hstoreTree.congr fun dir => (or_iff_left fun h => hgarbled h.1).symm

/-! ## The property and its condition -/

/-- The server after one pass of the orphan sweep, where manifests may be unreadable. -/
def sweptReading (cfg : Config) (env : Environment) (g : Garble cfg.backend) (s : Server) :
    Server :=
  (runE (execReading cfg env g) (Background.sweep cfg) s).2

private theorem readless_deleteAll (paths : List String) :
    OnlyE Call.Readless (Background.deleteAll paths) := by
  induction paths with
  | nil => trivial
  | cons path rest ih => exact OnlyE.bind (onlyE_performE trivial) fun _ => ih

private theorem readless_sweepNamespaces (t : Nat) (pres : List String) :
    OnlyE Call.Readless (Background.sweepNamespaces cfg t pres) := by
  induction pres with
  | nil => trivial
  | cons pre rest ih =>
    refine OnlyE.bind
      (OnlyE.tryCatch (readless_listBundles pre true) fun _ => trivial) fun refs => ?_
    exact OnlyE.bind (readless_deleteAll _) fun _ => ih

/-- The sweep reads no manifest. -/
theorem sweptReading_eq (cfg : Config) (env : Environment) (g : Garble cfg.backend) (s : Server) :
    sweptReading cfg env g s = sweepOnce cfg env s := by
  have hreadless : OnlyE Call.Readless (Background.sweep cfg) :=
    OnlyE.bind (onlyE_performE trivial) fun t => readless_sweepNamespaces t _
  rw [sweptReading, runE_reading_readless hreadless, sweepOnce]

/-- The sweep loses no committed bundle, and takes files only out of old directories without
a manifest. -/
structure SweepSafe (cfg : Config) (env : Environment) (g : Garble cfg.backend) (s : Server) :
    Prop where
  keeps : ∀ loc m, cfg.backend.metaAt s.disk.tree loc = some m →
    cfg.backend.KeepsBundle s.disk.tree (sweptReading cfg env g s).disk.tree loc m
  only : ∀ q, (sweptReading cfg env g s).disk.tree.fileAt q ≠ s.disk.tree.fileAt q →
    ∃ dir, dir <+: q ∧ bundleManifest ∉ Backend.fileNames s.disk.tree dir ∧
      s.disk.mtime dir + secondsToMicros cfg.limits.passiveGcMinAge ≤ s.passTime cfg env

/-- The cleanup removes the bundles that have expired and leaves all others as they are. -/
def CleanupExact (cfg : Config) (env : Environment) (g : Garble cfg.backend) (s : Server) : Prop :=
  ∀ loc m, cfg.backend.metaAt s.disk.tree loc = some m →
    if expiredAt cfg (s.passTime cfg env) m then
      cfg.backend.metaAt (cleanupOnce cfg env g s).disk.tree loc = none
    else cfg.backend.KeepsBundle s.disk.tree (cleanupOnce cfg env g s).disk.tree loc m

/-- No committed bundle reaches into an old directory that is listed as an orphan. -/
def SweepClear (cfg : Config) (env : Environment) (s : Server) : Prop :=
  ∀ dir, SweptDir cfg env s dir → ∀ loc m, cfg.backend.metaAt s.disk.tree loc = some m →
    ¬Reaches s.disk.tree dir loc m

/-- Every expired bundle is one that the turn comes to or lies below an expired one that it comes
to, and no other bundle reaches into one of those. -/
def CleanupClear (cfg : Config) (env : Environment) (g : Garble cfg.backend) (s : Server) : Prop :=
  ∀ loc m, cfg.backend.metaAt s.disk.tree loc = some m →
    if expiredAt cfg (s.passTime cfg env) m then ∃ dir, DoomedDir cfg env g s dir ∧ dir <+: loc
    else ∀ dir, DoomedDir cfg env g s dir → ¬Reaches s.disk.tree dir loc m

/-- Background deletion is safe exactly on the trees in which no bundle that is to stay lies
below a directory that is to go, and every expired bundle is found before a manifest that cannot
be read. -/
theorem background_safe_iff (cfg : Config) (env : Environment) (g : Garble cfg.backend)
    (s : Server) (hnamed : Named s.disk.tree) :
    (SweepSafe cfg env g s ↔ SweepClear cfg env s) ∧
      (CleanupExact cfg env g s ↔ CleanupClear cfg env g s) := by
  obtain ⟨hinbox, hstore⟩ := cfg.backend.resolve_namespace
  have hsweep := (sweepOnce_pruned cfg env hnamed).without
  rw [← sweptReading_eq cfg env g s] at hsweep
  have hclean := (cleanupOnce_pruned cfg env g hnamed).without
  refine ⟨⟨fun h dir hD loc m hm => (hsweep.keeps_iff hm).mp (h.keeps loc m hm) dir hD,
    fun h => ⟨fun loc m hm => (hsweep.keeps_iff hm).mpr fun dir hD => h dir hD loc m hm, ?_⟩⟩, ?_⟩
  · intro q hq
    rcases hsweep.2 q with ⟨⟨dir, ⟨pre, hpre, path, hpath, rfl⟩, hp⟩, -⟩ | ⟨-, hsame⟩
    · refine ⟨_, hp, ?_⟩
      simp only [gcNamespaces, List.mem_cons, List.not_mem_nil, or_false] at hpre
      rcases hpre with rfl | rfl
      · exact (Backend.Swept.facts hnamed hinbox (List.prefix_append _ _) hpath).2.2.2
      · exact (Backend.Swept.facts hnamed hstore (List.prefix_append _ _) hpath).2.2.2
    · exact absurd hsame hq
  · refine forall_congr' fun loc => forall_congr' fun m => imp_congr_right fun hm => ?_
    split
    · exact hclean.metaAt_iff hm
    · exact hclean.keeps_iff hm

/-! ### A bundle inside another directory -/

/-- An inbox with a directory `p` that a writer has left with one file, committed or not, and a
bundle `p/q` that was committed below it while `p` was empty. -/
def nestedDisk (commitOuter : Bool) : Disk :=
  Runs.run srvBackend.step (Disk.init srvTree)
    ([.openBundleWrite 0 "inbox/bob:b/p", .openBundleWrite 0 "inbox/bob:b/p/q",
      .writeFile 0 1 "a" [1], .commit 0 1 { smallMeta ["a"] with createdAt := 7200000000 },
      .writeFile 0 0 "b" [2]] ++ if commitOuter then [.commit 0 0 (smallMeta ["b"])] else [])

/-- Two hours later. -/
def nestedServer (commitOuter : Bool) : Server :=
  { srvSystem.server with disk := nestedDisk commitOuter, wall := 7200000000 }

private theorem named_nestedDisk (commitOuter : Bool) : Named (nestedDisk commitOuter).tree := by
  cases commitOuter <;> exact named_of_entries (by decide +kernel)

/-- A server with one bundle below another. -/
theorem background_safe_iff_nested :
    (SweepSafe srvConfig .core srvGarble (nestedServer false) ↔
        SweepClear srvConfig .core (nestedServer false)) ∧
      (CleanupExact srvConfig .core srvGarble (nestedServer false) ↔
        CleanupClear srvConfig .core srvGarble (nestedServer false)) :=
  background_safe_iff srvConfig .core srvGarble (nestedServer false) (named_nestedDisk false)

/-- The sweep removes the fresh bundle with the abandoned directory above it, and the cleanup
removes it with the expired bundle above it. -/
theorem background_not_safe :
    ¬SweepSafe srvConfig .core srvGarble (nestedServer false) ∧
      ¬CleanupExact { srvConfig with defaultTtl := 3600 } .core srvGarble (nestedServer true) := by
  constructor
  · intro h
    have hkept := (h.keeps ["srv", "data", "inbox", "bob:b", "p", "q"]
      { smallMeta ["a"] with createdAt := 7200000000 } (by decide +kernel)).1
    revert hkept
    decide +kernel
  · intro h
    have hkept := h ["srv", "data", "inbox", "bob:b", "p", "q"]
      { smallMeta ["a"] with createdAt := 7200000000 } (by decide +kernel)
    rw [if_neg (by decide +kernel)] at hkept
    have hmeta := hkept.1
    revert hmeta
    decide +kernel

end Passes

end Cassetta
