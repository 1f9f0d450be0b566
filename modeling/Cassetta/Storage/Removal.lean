import Cassetta.Core.Pruning
import Cassetta.Storage.Listing

/-!
# Removing bundles

A delete takes a directory with everything below it. This module says what that means for the
bundles of the tree: which are gone and which are as they were.
-/

namespace Cassetta

open FileTree

/-! ## Bundles in a tree -/

/-- The manifest that can be read in a directory. -/
def Backend.metaAt (b : Backend) (t : DataTree) (loc : List String) : Option BundleMeta :=
  (t.fileAt (loc ++ [bundleManifest])).bind b.loadMeta

/-- The manifest and the files it lists are as they were. -/
def Backend.KeepsBundle (b : Backend) (t t' : DataTree) (loc : List String) (m : BundleMeta) :
    Prop :=
  b.metaAt t' loc = some m ∧
    ∀ f ∈ m.files, t'.fileAt (fileLoc loc f.name) = t.fileAt (fileLoc loc f.name)

/-- A bundle has its directory, or a file it lists, at or below another directory. -/
def Reaches (t : DataTree) (dir loc : List String) (m : BundleMeta) : Prop :=
  dir <+: loc ∨ ∃ f ∈ m.files, t.fileAt (fileLoc loc f.name) ≠ none ∧ dir <+: fileLoc loc f.name

instance (t : DataTree) (dir loc : List String) (m : BundleMeta) :
    Decidable (Reaches t dir loc m) :=
  inferInstanceAs (Decidable (_ ∨ ∃ f ∈ m.files, _))

section Removing

variable {b : Backend} {t t' : DataTree} {D : List String → Prop} {loc : List String}
  {m : BundleMeta}

/-- A manifest at a location is in the file there. -/
theorem Backend.metaAt_some (h : b.metaAt t loc = some m) :
    ∃ blob, t.get (loc ++ [bundleManifest]) = some (.file blob) ∧ b.loadMeta blob = some m := by
  obtain ⟨blob, hf, hl⟩ := Option.bind_eq_some_iff.mp h
  exact ⟨blob, Tree.fileAt_eq_some_iff.mp hf, hl⟩

/-- A location with a manifest is a directory. -/
theorem Backend.dir_of_metaAt (h : b.metaAt t loc = some m) : t.get loc = some .dir := by
  obtain ⟨blob, hf, -⟩ := metaAt_some h
  simpa using Tree.get_dropLast hf

/-- A manifest is read at the location of its path. -/
theorem Backend.readBundleMeta_eq {path : String} (h : b.resolve path = spell loc) :
    b.readBundleMeta t path = b.metaAt t loc := by
  have hm : metaPath (spell loc) = spell (loc ++ [bundleManifest]) := by simp [metaPath, spell]
  rw [readBundleMeta, h, hm, Tree.readFile_spell]
  rfl

/-- The second tree is the first without what lies below some of its directories. -/
def Without (t t' : DataTree) (D : List String → Prop) : Prop :=
  (∀ dir, D dir → t.get dir = some .dir) ∧
    ∀ q, (∃ dir, D dir ∧ dir <+: q) ∧ t'.fileAt q = none ∨
      (∀ dir, D dir → ¬dir <+: q) ∧ t'.fileAt q = t.fileAt q

/-- The second tree is the first without some of its directories and all that lies below them. -/
def Pruned (t t' : DataTree) (D : List String → Prop) : Prop :=
  (∀ dir, D dir → t.get dir = some .dir) ∧
    ∀ q, q ≠ [] → (∃ dir, D dir ∧ dir <+: q) ∧ t'.get q = none ∨
      (∀ dir, D dir → ¬dir <+: q) ∧ t'.get q = t.get q

/-- A tree that was pruned twice. -/
theorem Pruned.union {t₂ : DataTree} {D₂ : List String → Prop} (h : Pruned t t' D)
    (h₂ : Pruned t' t₂ D₂) (hdir : ∀ dir, D₂ dir → t.get dir = some .dir) :
    Pruned t t₂ (fun dir => D dir ∨ D₂ dir) := by
  refine ⟨fun dir hD => hD.elim (h.1 dir) (hdir dir), fun q hq => ?_⟩
  rcases h₂.2 q hq with ⟨⟨dir, hD, hp⟩, hnone⟩ | ⟨hno, hsame⟩
  · exact .inl ⟨⟨dir, .inr hD, hp⟩, hnone⟩
  · rcases h.2 q hq with ⟨⟨dir, hD, hp⟩, hnone⟩ | ⟨hno', hsame'⟩
    · exact .inl ⟨⟨dir, .inl hD, hp⟩, hsame.trans hnone⟩
    · exact .inr ⟨fun dir hD => hD.elim (hno' dir) (hno dir), hsame.trans hsame'⟩

/-- What a tree was pruned of, put in another way. -/
theorem Pruned.congr {D₂ : List String → Prop} (h : Pruned t t' D) (hD : ∀ dir, D dir ↔ D₂ dir) :
    Pruned t t' D₂ := by
  obtain rfl : D = D₂ := funext fun dir => propext (hD dir)
  exact h

/-- A pruned tree has lost the files below the directories. -/
theorem Pruned.without (h : Pruned t t' D) : Without t t' D := by
  refine ⟨h.1, fun q => ?_⟩
  by_cases hq : q = []
  · subst hq
    have hnil : ∀ t : DataTree, t.fileAt [] = none := fun t => by simp [Tree.fileAt]
    by_cases hex : ∃ dir, D dir ∧ dir <+: []
    · exact .inl ⟨hex, hnil t'⟩
    · exact .inr ⟨fun dir hD hp => hex ⟨dir, hD, hp⟩, by rw [hnil, hnil]⟩
  · rcases h.2 q hq with ⟨hex, hnone⟩ | ⟨hno, hsame⟩
    · exact .inl ⟨hex, by rw [Tree.fileAt, hnone]⟩
    · exact .inr ⟨hno, by rw [Tree.fileAt, Tree.fileAt, hsame]⟩

/-- Pruning takes the locations that are due. -/
theorem pruned_prune {K : DataTree → List String → Bool} (hK : Tree.Steady K)
    {locs : List (List String)} (hne : ∀ loc ∈ locs, loc ≠ []) (t : DataTree) :
    Pruned t (Tree.prune K locs t) (fun dir => dir ∈ locs ∧ K t dir = true) := by
  refine ⟨fun dir hD => hK.dir hD.2, fun q hq => ?_⟩
  rw [Tree.get_prune hK hne t hq]
  by_cases hex : ∃ loc ∈ locs, K t loc = true ∧ loc <+: q
  · obtain ⟨loc, hm, hk, hp⟩ := hex
    exact .inl ⟨⟨loc, ⟨hm, hk⟩, hp⟩, if_pos ⟨loc, hm, hk, hp⟩⟩
  · exact .inr ⟨fun dir hD hp => hex ⟨dir, hD.1, hD.2, hp⟩, if_neg hex⟩

/-- A manifest is below a directory when its bundle is. -/
theorem prefix_manifest_iff {dir : List String} (hdir : t.get dir = some .dir)
    (h : b.metaAt t loc = some m) : dir <+: loc ++ [bundleManifest] ↔ dir <+: loc := by
  obtain ⟨blob, hf, -⟩ := Backend.metaAt_some h
  rw [List.prefix_concat_iff]
  constructor
  · rintro (rfl | hp)
    · rw [hdir] at hf
      cases hf
    · exact hp
  · exact .inr

/-- A manifest is gone exactly if it lies in what was taken. -/
theorem Without.metaAt_iff (h : Without t t' D) (hm : b.metaAt t loc = some m) :
    b.metaAt t' loc = none ↔ ∃ dir, D dir ∧ dir <+: loc := by
  rcases h.2 (loc ++ [bundleManifest]) with ⟨⟨dir, hD, hp⟩, hnone⟩ | ⟨hno, hsame⟩
  · refine ⟨fun _ => ⟨dir, hD, (prefix_manifest_iff (h.1 dir hD) hm).mp hp⟩, fun _ => ?_⟩
    rw [Backend.metaAt, hnone]
    rfl
  · have hkept : b.metaAt t' loc = some m := by rw [Backend.metaAt, hsame]; exact hm
    refine ⟨fun hn => ?_, fun ⟨dir, hD, hp⟩ => ?_⟩
    · rw [hkept] at hn
      cases hn
    · exact absurd ((prefix_manifest_iff (h.1 dir hD) hm).mpr hp) (hno dir hD)

/-- A bundle is kept exactly if nothing that was taken reaches it. -/
theorem Without.keeps_iff (h : Without t t' D) (hm : b.metaAt t loc = some m) :
    b.KeepsBundle t t' loc m ↔ ∀ dir, D dir → ¬Reaches t dir loc m := by
  constructor
  · rintro ⟨hmeta, hfiles⟩ dir hD (hp | ⟨f, hf, hne, hp⟩)
    · rw [(h.metaAt_iff hm).mpr ⟨dir, hD, hp⟩] at hmeta
      cases hmeta
    · rcases h.2 (fileLoc loc f.name) with ⟨-, hnone⟩ | ⟨hno, -⟩
      · rw [hfiles f hf] at hnone
        exact hne hnone
      · exact hno dir hD hp
  · intro hclear
    refine ⟨?_, fun f hf => ?_⟩
    · rcases h.2 (loc ++ [bundleManifest]) with ⟨⟨dir, hD, hp⟩, -⟩ | ⟨-, hsame⟩
      · exact absurd (.inl ((prefix_manifest_iff (h.1 dir hD) hm).mp hp)) (hclear dir hD)
      · rw [Backend.metaAt, hsame]
        exact hm
    · rcases h.2 (fileLoc loc f.name) with ⟨⟨dir, hD, hp⟩, hnone⟩ | ⟨-, hsame⟩
      · by_cases hne : t.fileAt (fileLoc loc f.name) = none
        · rw [hnone, hne]
        · exact absurd (.inr ⟨f, hf, hne, hp⟩) (hclear dir hD)
      · exact hsame

end Removing

/-! ## Deletes by listed paths -/

/-- Everything at or below a location is as it was, times included. -/
def SameBelow (base : List String) (d d' : Disk) : Prop :=
  ∀ q, base <+: q → d'.tree.get q = d.tree.get q ∧ d'.mtime q = d.mtime q

/-- A disk is the same as itself. -/
theorem SameBelow.refl (base : List String) (d : Disk) : SameBelow base d d :=
  fun _ _ => ⟨rfl, rfl⟩

/-- Disks that are the same below a location as a third. -/
theorem SameBelow.trans {base : List String} {d₁ d₂ d₃ : Disk} (h : SameBelow base d₁ d₂)
    (h' : SameBelow base d₂ d₃) : SameBelow base d₁ d₃ := fun q hq =>
  ⟨(h' q hq).1.trans (h q hq).1, (h' q hq).2.trans (h q hq).2⟩

/-- A directory with the same entries keeps its time. -/
theorem Disk.setTree_mtime {d : Disk} {now : Nat} {t : DataTree} {q : List String}
    (hq : t.get q = d.tree.get q) (hk : ∀ k, t.get (q ++ [k]) = d.tree.get (q ++ [k])) :
    (d.setTree now t).mtime q = d.mtime q := by
  have hnames : (dirNames t q).toFinset = (dirNames d.tree q).toFinset := by
    ext k
    simp only [dirNames, List.mem_toFinset, List.mem_map, Prod.exists,
      Tree.mem_children]
    simp [hk]
  have hdir : t.dirAt q = d.tree.dirAt q := by rw [Tree.dirAt, Tree.dirAt, hq]
  simp [Disk.setTree, hnames, hdir]

namespace Backend

variable {b : Backend} {d : Disk} {now : Nat} {path : String} {loc base : List String}

/-- A delete at a path that is spelled out. -/
theorem deleteBundle_spelled (h : b.resolve path = spell loc) (hne : loc ≠ []) :
    b.deleteBundle now path d =
      if d.tree.dirAt loc = true then (.ok (), d.setTree now (d.tree.remove loc))
      else (.error .fileNotFound, d) := by
  unfold deleteBundle
  by_cases hdir : d.tree.get loc = some .dir
  · have hclear : (d.tree.clear loc).get loc = some .dir := by
      rw [Tree.get_clear _ _ hne, if_neg (by simp), hdir]
    have hrm : d.tree.rmtree (spell loc) = (.ok (), d.tree.remove loc) := by
      unfold Tree.rmtree
      rw [Tree.stat_eq_ok_iff.mpr ⟨by rw [normalize_spell]; exact Tree.resolve_spell hdir,
        by rw [normalize_spell]; exact hdir⟩]
      simp only [normalize_spell, Tree.resolve_spell hclear]
    rw [h, if_pos (Tree.isDir_spell.mpr hdir), if_pos (Tree.dirAt_iff.mpr hdir), hrm]
  · rw [h,
      if_neg (by rw [Tree.isDir_spell]; exact hdir), if_neg (by rw [Tree.dirAt_iff]; exact hdir)]

/-- The tree after a delete. -/
theorem deleteBundle_tree (h : b.resolve path = spell loc) (hne : loc ≠ []) :
    (b.deleteBundle now path d).2.tree =
      if d.tree.dirAt loc = true then d.tree.remove loc else d.tree := by
  rw [deleteBundle_spelled h hne]
  split <;> rfl

/-- No file is left below the directory of a delete. -/
theorem deleteBundle_inside (h : b.resolve path = spell loc) {q : List String}
    (hq : StrictlyInside loc q) : (b.deleteBundle now path d).2.tree.fileAt q = none := by
  have hloc : b.location path = loc := by rw [location, h, normalize_spell]
  rw [deleteBundle_fileAt, hloc]
  split
  · rfl
  · rename_i hnot
    refine Option.eq_none_iff_forall_ne_some.mpr fun c hc => hnot ⟨?_, hq.1⟩
    rw [h]
    exact Tree.isDir_spell.mpr (Tree.get_of_prefix hq.1 hq.2.symm (Tree.fileAt_eq_some_iff.mp hc))

/-- A delete beside a location leaves it alone. -/
theorem deleteBundle_sameBelow (h : b.resolve path = spell loc) (hne : loc ≠ [])
    (hcmp : ¬Comparable base loc) : SameBelow base d (b.deleteBundle now path d).2 := by
  have hget : ∀ q, base <+: q → (b.deleteBundle now path d).2.tree.get q = d.tree.get q := by
    intro q hq
    rw [deleteBundle_tree h hne]
    split
    · by_cases hnil : q = []
      · simp [hnil]
      · rw [Tree.get_remove _ _ hnil, if_neg fun hp => hcmp (comparable_of_below hq hp)]
    · rfl
  intro q hq
  refine ⟨hget q hq, ?_⟩
  have hkeep := hget q hq
  have hkids : ∀ k, (b.deleteBundle now path d).2.tree.get (q ++ [k]) = d.tree.get (q ++ [k]) :=
    fun k => hget _ (hq.trans (List.prefix_append _ _))
  unfold deleteBundle at hkeep hkids ⊢
  split
  · rename_i hd
    rw [if_pos hd] at hkeep hkids
    rcases hr : d.tree.rmtree (b.resolve path) with ⟨r, t⟩
    rw [hr] at hkeep hkids
    cases r <;> exact Disk.setTree_mtime hkeep hkids
  · rfl

/-- The membership of a listing depends on what is below its root. -/
theorem SameBelow.mem_listBundles {d d' : Disk} {pre : String} (hpre : b.resolve pre = spell base)
    (h : SameBelow base d d') {orphans : Bool} {refs refs' : List BundleRef}
    (hl : b.listBundles d pre orphans = .ok refs) (hl' : b.listBundles d' pre orphans = .ok refs')
    (r : BundleRef) : r ∈ refs' ↔ r ∈ refs := by
  have hbase : b.location pre = base := by rw [location, hpre, normalize_spell]
  have hnames : ∀ y, fileNames d'.tree (base ++ y) = [] ↔ fileNames d.tree (base ++ y) = [] := by
    intro y
    simp only [List.eq_nil_iff_forall_not_mem, mem_fileNames, Tree.fileAt_eq_some_iff]
    refine forall_congr' fun k => ?_
    rw [(h (base ++ y ++ [k]) (by rw [List.append_assoc]; exact List.prefix_append _ _)).1]
  have hman : ∀ y, bundleManifest ∈ fileNames d'.tree (base ++ y) ↔
      bundleManifest ∈ fileNames d.tree (base ++ y) := by
    intro y
    simp only [mem_fileNames, Tree.fileAt_eq_some_iff]
    rw [(h (base ++ y ++ [bundleManifest])
      (by rw [List.append_assoc]; exact List.prefix_append _ _)).1]
  rw [mem_listBundles_iff hl, mem_listBundles_iff hl', hbase, hpre, Tree.isDir_spell,
    Tree.isDir_spell, (h base (List.prefix_refl _)).1]
  simp only [Visited, Sighted, hnames, hman, ne_eq, (h _ (List.prefix_append base _)).1,
    (h _ (List.prefix_append base _)).2]

/-- Deletes one after the other. -/
def deleteEach (b : Backend) (now : Nat) (paths : List String) (d : Disk) : Disk :=
  paths.foldl (fun d path => (b.deleteBundle now path d).2) d

/-- Paths that are spelled out, none of them of the root. -/
def Spelled (b : Backend) (paths : List String) : Prop :=
  ∀ path ∈ paths, b.resolve path = spell (b.location path) ∧ b.location path ≠ []

/-- The tree after several deletes. -/
theorem deleteEach_tree {paths : List String} (h : b.Spelled paths) (d : Disk) :
    (b.deleteEach now paths d).tree = Tree.prune Tree.dirAt (paths.map b.location) d.tree := by
  induction paths generalizing d with
  | nil => rfl
  | cons path rest ih =>
    obtain ⟨hp, hne⟩ := h path (by simp)
    have hstep : b.deleteEach now (path :: rest) d =
        b.deleteEach now rest (b.deleteBundle now path d).2 := rfl
    rw [hstep, ih fun p hm => h p (by simp [hm]), deleteBundle_tree hp hne]
    rfl

/-- A delete keeps a tree named. -/
theorem named_deleteBundle (h : Named d.tree) (now : Nat) (path : String) :
    Named (b.deleteBundle now path d).2.tree := by
  have hrm := h.rmtree (b.resolve path)
  unfold deleteBundle
  split
  · rcases hr : d.tree.rmtree (b.resolve path) with ⟨r, t⟩
    rw [hr] at hrm
    cases r <;> exact hrm
  · exact h

/-- Several deletes keep a tree named. -/
theorem named_deleteEach (h : Named d.tree) (now : Nat) (paths : List String) :
    Named (b.deleteEach now paths d).tree := by
  induction paths generalizing d with
  | nil => exact h
  | cons path rest ih => exact ih (named_deleteBundle h now path)

/-- Several deletes beside a location leave it alone. -/
theorem deleteEach_sameBelow {paths : List String} (h : b.Spelled paths)
    (hcmp : ∀ path ∈ paths, ¬Comparable base (b.location path)) (d : Disk) :
    SameBelow base d (b.deleteEach now paths d) := by
  induction paths generalizing d with
  | nil => exact SameBelow.refl _ _
  | cons path rest ih =>
    obtain ⟨hp, hne⟩ := h path (by simp)
    exact (deleteBundle_sameBelow hp hne (hcmp path (by simp))).trans
      (ih (fun p hm => h p (by simp [hm])) (fun p hm => hcmp p (by simp [hm])) _)

end Backend

end Cassetta
