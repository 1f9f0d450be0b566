import Mathlib
import Cassetta.Storage.Isolation

/-!
# Committed bundles and their listing

`list_bundles` does not look below a directory that holds a file, so a bundle inside another
is lost to its reader. The directories of open writers and of committed bundles together form
an antichain as long as no writer is opened above or below an open one; every file then
belongs to one of them, and every committed bundle is listed.
-/

namespace Cassetta

open FileTree

/-! ## Namespaces -/

/-- The two namespaces of the data directory; an inbox belongs to one agent. -/
inductive Namespace where
  | store
  | inbox (agent : String)
  deriving DecidableEq, Repr

/-- The components of a namespace root. -/
def Namespace.parts : Namespace → List String
  | .store => ["store"]
  | .inbox agent => ["inbox", agent]

/-- How many components a namespace root has. -/
def Namespace.depth (ns : Namespace) : Nat := ns.parts.length

/-- `_data_root`, as a location. -/
def Backend.dataLoc (b : Backend) : List String := b.root ++ ["data"]

/-- A location strictly inside a namespace. -/
def Backend.InNamespace (b : Backend) (loc : List String) : Prop :=
  ∃ ns : Namespace, StrictlyInside (b.dataLoc ++ ns.parts) loc

/-- A path in a namespace that is spelled without steps up. -/
def Backend.Plain (b : Backend) (path : List (Step String)) : Prop :=
  ∃ loc, path = spell loc ∧ b.InNamespace loc

/-- Nested components determine the namespace. -/
theorem Namespace.eq_of_prefix {ns ns' : Namespace} {x : List String}
    (h : ns'.parts <+: ns.parts ++ x) : ns' = ns := by
  cases ns <;> cases ns' <;>
    simp only [Namespace.parts, List.cons_append, List.nil_append, List.cons_prefix_cons] at h
  · rfl
  · exact absurd h.1 (by decide)
  · exact absurd h.1 (by decide)
  · rw [h.2.1]

/-! ## The condition on each call -/

/-- One directory is strictly inside the other. -/
def Nested (a c : List String) : Prop := StrictlyInside a c ∨ StrictlyInside c a

/-- What a call must meet: a writer opens at a plain path in a namespace that is not nested
with an open writer's directory, and its file names come from an accepted manifest; a name
without a component needs the writer's directory to be there. -/
def Backend.NestClear (b : Backend) (d : Disk) : BackendOp → Prop
  | .openBundleWrite _ path =>
    b.Plain (b.resolve path) ∧ (b.checkBundlePathCollision d.tree (b.resolve path) = none →
      ∀ h w, d.writers h = some w → ¬Nested w.loc (b.location path))
  | .writeFile _ h name _ =>
    (∃ names, validateManifest names = .ok () ∧ name ∈ names) ∧
      ∀ w, d.writers h = some w → steps name ≠ [] ∨ d.tree.dirAt w.loc = true
  | .commit .. => True
  | .abort .. => True
  | .deleteBundle .. => True
  | .sweepNamespace .. => True

/-! ## The invariant -/

/-- The directory of an open writer or of a committed bundle. -/
def Owner (d : Disk) (loc : List String) : Prop :=
  (∃ h w, d.writers h = some w ∧ w.loc = loc) ∨ ∃ m serial, ManifestAt d loc m serial

/-- The owners form an antichain in the namespaces, and every file of the data directory lies
in one of them. -/
structure PrefixFree (b : Backend) (d : Disk) : Prop where
  fresh : ∀ h, d.nextWriter ≤ h → d.writers h = none
  spelled : ∀ h w, d.writers h = some w → w.bundleDir = spell w.loc
  inside : ∀ loc, Owner d loc → b.InNamespace loc
  antichain : ∀ l l', Owner d l → Owner d l' → ¬StrictlyInside l l'
  owned : ∀ q c, b.dataLoc <+: q → d.tree.fileAt q = some c → ∃ l, Owner d l ∧ StrictlyInside l q

/-- A tree without files below the data root is free of prefixes. -/
theorem prefixFree_init {b : Backend} {t : DataTree}
    (ht : ∀ q c, b.dataLoc <+: q → t.fileAt q ≠ some c)
    (hm : ∀ q m s, t.fileAt q ≠ some (.manifest m s)) : PrefixFree b (Disk.init t) := by
  have hno : ∀ l, ¬Owner (Disk.init t) l := by
    rintro l (⟨h, w, hw, -⟩ | ⟨m, s, hl⟩)
    · simp [Disk.init] at hw
    · exact hm _ _ _ hl
  exact ⟨by simp [Disk.init], by simp [Disk.init], fun l h => (hno l h).elim,
    fun l _ h => (hno l h).elim, fun q c hq hf => (ht q c hq hf).elim⟩

/-- A call after which the owners are among those of before. -/
theorem PrefixFree.of_owners {b : Backend} {d d' : Disk} (h : PrefixFree b d)
    (hfresh : ∀ k, d'.nextWriter ≤ k → d'.writers k = none)
    (hspelled : ∀ k w, d'.writers k = some w → w.bundleDir = spell w.loc)
    (hsub : ∀ l, Owner d' l → Owner d l)
    (howned : ∀ q c, b.dataLoc <+: q → d'.tree.fileAt q = some c →
      ∃ l, Owner d' l ∧ StrictlyInside l q) : PrefixFree b d' where
  fresh := hfresh
  spelled := hspelled
  inside l hl := h.inside l (hsub l hl)
  antichain l l' hl hl' := h.antichain l l' (hsub l hl) (hsub l' hl')
  owned := howned

/-- Being free of prefixes depends on the files and the open writes alone. -/
theorem PrefixFree.of_fileAt {b : Backend} {d d' : Disk} (h : PrefixFree b d)
    (hf : d'.tree.fileAt = d.tree.fileAt) (hw : d'.writers = d.writers)
    (hn : d'.nextWriter = d.nextWriter) : PrefixFree b d' := by
  have howner : ∀ l, Owner d' l ↔ Owner d l := fun l => by simp only [Owner, ManifestAt, hf, hw]
  refine h.of_owners (by simpa only [hw, hn] using h.fresh) (by simpa only [hw] using h.spelled)
    (fun l => (howner l).mp) fun q c hq hc => ?_
  obtain ⟨l, hl, hin⟩ := h.owned q c hq (hf ▸ hc)
  exact ⟨l, (howner l).mpr hl, hin⟩

/-! ## Opening -/

/-- The data root spells out its location. -/
theorem Backend.dataRoot_eq (b : Backend) : b.dataRoot = spell b.dataLoc := rfl

/-- One location after the other is spelled out. -/
theorem spell_append (a c : List String) : spell (a ++ c) = spell a ++ spell c := by simp [spell]

/-- The beginning of a location is spelled out. -/
theorem spell_take (a : List String) (n : Nat) : (spell a).take n = spell (a.take n) := by
  simp [spell, List.map_take]

/-- What is below the data root is what follows it. -/
theorem Backend.drop_dataRoot (b : Backend) (x : List String) :
    (spell (b.dataLoc ++ x)).drop b.dataRoot.length = spell x := by
  rw [spell_append, b.dataRoot_eq, List.drop_left]

/-- The depth of a path in a namespace is that of the namespace. -/
theorem namespaceDepth_spell (ns : Namespace) (x : List String) :
    Backend.namespaceDepth (spell (ns.parts ++ x)) = ns.depth := by
  cases ns <;> simp [Namespace.parts, Namespace.depth, spell, Backend.namespaceDepth]

/-- The walk over ancestors meets every location between the namespace root and the target. -/
theorem Backend.mem_checkedAncestors (b : Backend) {ns : Namespace} {rel anc : List String}
    (hanc : StrictlyInside (b.dataLoc ++ ns.parts) anc)
    (hrel : StrictlyInside anc (b.dataLoc ++ ns.parts ++ rel)) :
    spell anc ∈ b.checkedAncestors (spell (b.dataLoc ++ ns.parts ++ rel)) := by
  have hlo : b.dataRoot.length + ns.depth < anc.length := by
    have hlt : (b.dataLoc ++ ns.parts).length < anc.length :=
      lt_of_le_of_ne hanc.1.length_le fun he => hanc.2 (hanc.1.eq_of_length he).symm
    simpa [spell, Backend.dataRoot_eq, Namespace.depth] using hlt
  have hhi : anc.length < b.dataRoot.length + ns.depth + rel.length := by
    have hlt : anc.length < (b.dataLoc ++ ns.parts ++ rel).length :=
      lt_of_le_of_ne hrel.1.length_le fun he => hrel.2 (hrel.1.eq_of_length he).symm
    simpa [spell, Backend.dataRoot_eq, Namespace.depth, Nat.add_assoc] using hlt
  have hdrop := b.drop_dataRoot (ns.parts ++ rel)
  rw [← List.append_assoc] at hdrop
  simp only [checkedAncestors, hdrop, namespaceDepth_spell, List.mem_reverse, List.mem_map,
    List.mem_range]
  have hlen : (spell (ns.parts ++ rel)).length = ns.depth + rel.length := by
    simp [spell, Namespace.depth]
  refine ⟨anc.length - (b.dataRoot.length + ns.depth + 1), by omega, ?_⟩
  rw [show b.dataRoot.length + ns.depth + 1 + (anc.length - (b.dataRoot.length + ns.depth + 1)) =
    anc.length by omega, spell_take, ← List.prefix_iff_eq_take.mp hrel.1]

/-- The collision check sees a committed bundle above its target. -/
theorem Backend.not_above_of_check (b : Backend) {d : Disk} {loc l : List String}
    (hloc : b.InNamespace loc) (hl : b.InNamespace l)
    (hcheck : b.checkBundlePathCollision d.tree (spell loc) = none) {m : BundleMeta} {s : Nat}
    (hm : ManifestAt d l m s) : ¬StrictlyInside l loc := by
  intro hin
  obtain ⟨ns, ⟨rel, rfl⟩, hrel⟩ := hloc
  obtain ⟨ns', hns'⟩ := hl
  have hsame : ns' = ns := by
    have h1 : b.dataLoc ++ ns'.parts <+: b.dataLoc ++ (ns.parts ++ rel) := by
      rw [← List.append_assoc]
      exact hns'.1.trans hin.1
    exact Namespace.eq_of_prefix ((List.prefix_append_right_inj _).mp h1)
  subst hsame
  have hmem := b.mem_checkedAncestors hns' hin
  have hdir : d.tree.get l = some .dir := by
    simpa using Tree.get_dropLast (Tree.fileAt_eq_some_iff.mp hm)
  have hlooks : looksLikeBundleDir d.tree (spell l) = true := by
    have hmeta : spell l ++ [Step.into bundleManifest] = spell (l ++ [bundleManifest]) := by
      simp [spell]
    have hfile : d.tree.isFile (spell l ++ [.into bundleManifest]) = true := by
      rw [Tree.isFile, hmeta, Tree.readFile_spell, hm]
      rfl
    simp [looksLikeBundleDir, Tree.isDir_spell.mpr hdir, hfile]
  have hpre : b.dataRoot <+: spell (b.dataLoc ++ ns'.parts ++ rel) := by
    rw [List.append_assoc, spell_append, ← b.dataRoot_eq]
    exact List.prefix_append _ _
  have hne : (b.checkedAncestors (spell (b.dataLoc ++ ns'.parts ++ rel))).find?
      (looksLikeBundleDir d.tree) ≠ none := by
    rw [ne_eq, List.find?_eq_none]
    exact fun h => h _ hmem hlooks
  have hlong : ¬(spell (ns'.parts ++ rel)).length ≤ ns'.depth := by
    have hpos : 0 < rel.length := List.length_pos_of_ne_nil fun he => hrel (by simp [he])
    simp only [spell, List.length_map, List.length_append, Namespace.depth]
    omega
  have hdrop := b.drop_dataRoot (ns'.parts ++ rel)
  rw [← List.append_assoc] at hdrop
  obtain ⟨x, hx⟩ := Option.ne_none_iff_exists'.mp hne
  simp only [checkBundlePathCollision, hpre, not_true_eq_false, hdrop, namespaceDepth_spell, hlong,
    hx, if_false, reduceCtorEq] at hcheck

/-- An open keeps a disk free of prefixes. -/
theorem PrefixFree.openBundleWrite {b : Backend} {d : Disk} (h : PrefixFree b d) {now : Nat}
    {path : String} (hg : b.NestClear d (.openBundleWrite now path)) :
    PrefixFree b (b.openBundleWrite now path d).2 := by
  rcases Backend.openBundleWrite_cases (b := b) now path d with
    ⟨e, t, heq, hgrown⟩ | ⟨e, heq⟩ | ⟨t, t', hcheck, hgrown, hmk, heq⟩
  · rw [heq]
    exact h.of_fileAt hgrown.fileAt_eq rfl rfl
  · rw [heq]
    exact h
  rw [heq]
  have hfiles : t'.fileAt = d.tree.fileAt :=
    (Tree.grown_of_mkdir hmk).fileAt_eq.trans hgrown.fileAt_eq
  obtain ⟨⟨loc, hspell, hin⟩, hapart⟩ := hg
  have hloc : b.location path = loc := by rw [Backend.location, hspell, normalize_spell]
  have hapart := hapart hcheck
  rw [hloc] at hapart
  have hnone : d.tree.get loc = none := by
    obtain ⟨-, hn, -, -⟩ := Tree.mkdir_ok hmk
    rw [← Backend.location, hloc] at hn
    cases hd : d.tree.get loc with
    | none => rfl
    | some n => exact absurd (hgrown.get_some hd) (by rw [hn]; simp)
  rw [hspell] at hcheck
  have hnest : ∀ l, Owner d l → ¬Nested l loc := by
    rintro l (⟨k, w, hw, rfl⟩ | ⟨m, s, hm⟩) hn
    · exact hapart k w hw hn
    · rcases hn with hab | hbe
      · exact b.not_above_of_check hin (h.inside l (.inr ⟨m, s, hm⟩)) hcheck hm hab
      · exact not_prefix_of_fresh hnone hm (hbe.1.trans (List.prefix_append _ _))
  have howner : ∀ l, Owner { d.setTree now t' with
      writers := Function.update d.writers d.nextWriter (some ⟨b.resolve path, []⟩)
      nextWriter := d.nextWriter + 1 } l ↔ l = loc ∨ Owner d l := by
    intro l
    have hl : normalize (b.resolve path) = loc := hloc
    constructor
    · rintro (⟨k, w, hw, rfl⟩ | ⟨m, s, hm⟩)
      · simp only [Function.update_apply] at hw
        split at hw
        · obtain rfl := Option.some.inj hw
          exact .inl hl
        · exact .inr (.inl ⟨k, w, hw, rfl⟩)
      · exact .inr (.inr ⟨m, s, by simpa [ManifestAt, hfiles] using hm⟩)
    · rintro (rfl | ⟨k, w, hw, rfl⟩ | ⟨m, s, hm⟩)
      · exact .inl ⟨d.nextWriter, _, Function.update_self .., hl⟩
      · refine .inl ⟨k, w, ?_, rfl⟩
        have hne : k ≠ d.nextWriter := by
          rintro rfl
          rw [h.fresh _ le_rfl] at hw
          cases hw
        simpa [Function.update_of_ne hne] using hw
      · exact .inr ⟨m, s, by simpa [ManifestAt, hfiles] using hm⟩
  refine ⟨?_, ?_, ?_, ?_, ?_⟩
  · intro k hk
    have hk' : d.nextWriter + 1 ≤ k := hk
    simp only [Function.update_of_ne (show k ≠ d.nextWriter by omega)]
    exact h.fresh k (by omega)
  · intro k w hw
    simp only [Function.update_apply] at hw
    split at hw
    · obtain rfl := Option.some.inj hw
      show b.resolve path = spell (normalize (b.resolve path))
      rw [hspell, normalize_spell]
    · exact h.spelled k w hw
  · intro l hl
    rcases (howner l).mp hl with rfl | hl
    · exact hin
    · exact h.inside l hl
  · intro l l' hl hl' hs
    rcases (howner l).mp hl with rfl | hl <;> rcases (howner l').mp hl' with rfl | hl'
    · exact hs.2 rfl
    · exact hnest l' hl' (.inr hs)
    · exact hnest l hl (.inl hs)
    · exact h.antichain l l' hl hl' hs
  · intro q c hq hc
    obtain ⟨l, hl, hin'⟩ := h.owned q c hq (by simpa [hfiles] using hc)
    exact ⟨l, (howner l).mpr (.inr hl), hin'⟩

/-! ## Writing and committing -/

/-- A name of an accepted manifest goes straight down. -/
theorem exists_spell_of_manifest {names : List String} (h : validateManifest names = .ok ())
    {name : String} (hn : name ∈ names) (loc : List String) :
    ∃ x, steps name = spell x ∧ fileLoc loc name = loc ++ x := by
  obtain ⟨-, habs, hup, -⟩ := validatePath_ok (validateManifest_ok h name hn).1
  obtain ⟨x, hx⟩ : ∃ x, steps name = spell x := by
    have hall : ∀ s ∈ steps name, ∃ k, s = Step.into k := by
      intro s hs
      cases s with
      | into k => exact ⟨k, rfl⟩
      | up => exact absurd hs (up_not_mem_steps hup)
    generalize steps name = l at hall
    induction l with
    | nil => exact ⟨[], rfl⟩
    | cons s l ih =>
      obtain ⟨k, rfl⟩ := hall s (by simp)
      obtain ⟨x, rfl⟩ := ih fun s hs => hall s (by simp [hs])
      exact ⟨k :: x, rfl⟩
  refine ⟨x, hx, ?_⟩
  rw [fileLoc, habs, hx, normalizeFrom_spell]
  simp

/-- A file whose name leads into the writer's directory keeps the antichain. -/
theorem PrefixFree.writeFile_inside {b : Backend} {d : Disk} (h : PrefixFree b d) {now : Nat}
    {k : Nat} {name : String} {data : Bytes}
    (hg : ∀ w, d.writers k = some w → w.loc <+: fileLoc w.loc name ∧
      (fileLoc w.loc name = w.loc → d.tree.dirAt w.loc = true)) :
    PrefixFree b (Backend.writeFile now k name data d).2 := by
  rcases Backend.writeFile_cases now k name data d with
    ⟨e, heq⟩ | ⟨w, hw, hne, hdup, ⟨e, t, heq, hgrown⟩ | ⟨t, t', hgrown, hwr, heq⟩⟩
  · rw [heq]
    exact h
  · rw [heq]
    exact h.of_fileAt hgrown.fileAt_eq rfl rfl
  rw [heq]
  obtain ⟨hpre, hdir⟩ := hg w hw
  have hfiles :
    t'.fileAt = Function.update d.tree.fileAt (fileLoc w.loc name) (some (.raw data)) := by
    rw [Tree.fileAt_write hwr, hgrown.fileAt_eq, Writer.normalize_target]
  have hin : StrictlyInside w.loc (fileLoc w.loc name) := by
    refine ⟨hpre, fun he => ?_⟩
    obtain ⟨-, hnd, -, -⟩ := Tree.write_ok hwr
    rw [Writer.normalize_target, he] at hnd
    exact hnd (hgrown.get_some (Tree.dirAt_iff.mp (hdir he)))
  have hwowner : Owner d w.loc := .inl ⟨k, w, hw, rfl⟩
  have howner : ∀ l, Owner { d.setTree now t' with
      writers :=
        Function.update d.writers k (some { w with written := w.written ++ [(name, data)] }) } l ↔
      Owner d l := by
    intro l
    constructor
    · rintro (⟨k', w', hw', rfl⟩ | ⟨m, s, hm⟩)
      · simp only [Function.update_apply] at hw'
        split at hw'
        · obtain rfl := Option.some.inj hw'
          exact hwowner
        · exact .inl ⟨k', w', hw', rfl⟩
      · have hm' : t'.fileAt (l ++ [bundleManifest]) = some (.manifest m s) := hm
        rw [hfiles, Function.update_apply] at hm'
        split at hm'
        · cases hm'
        · exact .inr ⟨m, s, hm'⟩
    · rintro (⟨k', w', hw', rfl⟩ | ⟨m, s, hm⟩)
      · by_cases hk : k' = k
        · subst hk
          obtain rfl := Option.some.inj (hw.symm.trans hw')
          exact .inl ⟨k', _, Function.update_self .., rfl⟩
        · exact .inl ⟨k', w', by simpa [Function.update_of_ne hk] using hw', rfl⟩
      · by_cases hq : l ++ [bundleManifest] = fileLoc w.loc name
        · have hle : w.loc <+: l := by
            rcases List.prefix_concat_iff.mp (hq ▸ hin.1) with he | hp
            · exact absurd (hq.symm.trans he.symm) hin.2
            · exact hp
          have hl : w.loc = l := by
            by_contra hne'
            exact h.antichain w.loc l hwowner (.inr ⟨m, s, hm⟩) ⟨hle, Ne.symm hne'⟩
          exact .inl ⟨k, _, Function.update_self .., hl⟩
        · refine .inr ⟨m, s, ?_⟩
          show t'.fileAt (l ++ [bundleManifest]) = _
          rw [hfiles, Function.update_of_ne hq]
          exact hm
  refine h.of_owners ?_ ?_ (fun l => (howner l).mp) ?_
  · intro k' hk'
    have hnek : k' ≠ k := by
      rintro rfl
      rw [h.fresh k' hk'] at hw
      cases hw
    simpa [Function.update_of_ne hnek] using h.fresh k' hk'
  · intro k' w' hw'
    simp only [Function.update_apply] at hw'
    split at hw'
    · obtain rfl := Option.some.inj hw'
      exact h.spelled k w hw
    · exact h.spelled k' w' hw'
  · intro q c hq hc
    have hc' : t'.fileAt q = some c := hc
    rw [hfiles, Function.update_apply] at hc'
    split at hc'
    · rename_i he
      exact ⟨w.loc, (howner _).mpr hwowner, he ▸ hin⟩
    · obtain ⟨l, hl, hlq⟩ := h.owned q c hq hc'
      exact ⟨l, (howner l).mpr hl, hlq⟩

/-- A write keeps a disk free of prefixes. -/
theorem PrefixFree.writeFile {b : Backend} {d : Disk} (h : PrefixFree b d) {now : Nat}
    {k : Nat} {name : String} {data : Bytes} (hg : b.NestClear d (.writeFile now k name data)) :
    PrefixFree b (Backend.writeFile now k name data d).2 := by
  obtain ⟨⟨names, hnames, hmem⟩, hdir⟩ := hg
  refine h.writeFile_inside fun w hw => ?_
  obtain ⟨x, hx, hfl⟩ := exists_spell_of_manifest hnames hmem w.loc
  refine ⟨hfl ▸ List.prefix_append _ _, fun he => ?_⟩
  rcases hdir w hw with hs | hd
  · rw [hfl] at he
    obtain rfl : x = [] := by simpa using he
    exact absurd hx hs
  · exact hd

/-- A commit keeps a disk free of prefixes. -/
theorem PrefixFree.commit {b : Backend} {d : Disk} (h : PrefixFree b d) {now : Nat} {k : Nat}
    {m : BundleMeta} : PrefixFree b (Backend.commit now k m d).2 := by
  rcases Backend.commit_cases now k m d with
    ⟨e, heq⟩ | ⟨w, hw, hcheck, ⟨e, t, heq, hfiles⟩ | ⟨t, t', heq, hfiles⟩⟩
  · rw [heq]
    exact h
  · rw [heq]
    have hwowner : Owner d w.loc := .inl ⟨k, w, hw, rfl⟩
    have howner : ∀ l, Owner (d.setTree now t) l ↔ Owner d l := by
      intro l
      simp only [Owner, ManifestAt, Disk.setTree_tree, Disk.setTree_writers, hfiles,
        Function.update_of_ne (append_tmp_ne_manifest l w.loc)]
    refine h.of_owners h.fresh h.spelled (fun l => (howner l).mp) fun q c hq hc => ?_
    rw [Disk.setTree_tree, hfiles, Function.update_apply] at hc
    split at hc
    · rename_i he
      exact ⟨w.loc, (howner _).mpr hwowner, he ▸ strictlyInside_concat _ _⟩
    · obtain ⟨l, hl, hlq⟩ := h.owned q c hq hc
      exact ⟨l, (howner l).mpr hl, hlq⟩
  · rw [heq]
    have hwowner : Owner d w.loc := .inl ⟨k, w, hw, rfl⟩
    have hself : t'.fileAt (w.loc ++ [bundleManifest]) = some (.manifest m d.commits.length) := by
      rw [hfiles, Function.update_self]
    have hkeep : ∀ l, l ≠ w.loc →
        t'.fileAt (l ++ [bundleManifest]) = d.tree.fileAt (l ++ [bundleManifest]) := by
      intro l hl
      rw [hfiles, Function.update_of_ne (by simpa using hl),
        Function.update_of_ne (append_tmp_ne_manifest l w.loc)]
    have howner : ∀ l, Owner { (d.setTree now t).setTree now t' with
        writers := Function.update d.writers k none
        commits := d.commits ++ [⟨w.loc, m, w.written⟩] } l ↔ Owner d l := by
      intro l
      by_cases hl : l = w.loc
      · subst hl
        exact ⟨fun _ => hwowner, fun _ => .inr ⟨_, _, hself⟩⟩
      · constructor
        · rintro (⟨k', w', hw', rfl⟩ | ⟨m', s, hm⟩)
          · simp only [Function.update_apply] at hw'
            split at hw'
            · cases hw'
            · exact .inl ⟨k', w', hw', rfl⟩
          · exact .inr ⟨m', s, (hkeep l hl).symm.trans hm⟩
        · rintro (⟨k', w', hw', rfl⟩ | ⟨m', s, hm⟩)
          · have hk : k' ≠ k := by
              rintro rfl
              exact hl (congrArg Writer.loc (Option.some.inj (hw'.symm.trans hw)))
            exact .inl ⟨k', w', by simpa [Function.update_of_ne hk] using hw', rfl⟩
          · exact .inr ⟨m', s, (hkeep l hl).trans hm⟩
    refine h.of_owners ?_ ?_ (fun l => (howner l).mp) ?_
    · intro k' hk'
      simp only [Function.update_apply]
      split
      · rfl
      · exact h.fresh k' hk'
    · intro k' w' hw'
      simp only [Function.update_apply] at hw'
      split at hw'
      · cases hw'
      · exact h.spelled k' w' hw'
    · intro q c hq hc
      have hc' : t'.fileAt q = some c := hc
      by_cases hwq : q = w.loc ++ [bundleManifest]
      · exact ⟨w.loc, (howner _).mpr hwowner, hwq ▸ strictlyInside_concat _ _⟩
      · rw [hfiles, Function.update_of_ne hwq, Function.update_apply] at hc'
        split at hc'
        · cases hc'
        · obtain ⟨l, hl, hlq⟩ := h.owned q c hq hc'
          exact ⟨l, (howner l).mpr hl, hlq⟩

/-! ## Removals -/

/-- Taking away a directory takes every file of the owners it takes away. -/
theorem PrefixFree.of_removed {b : Backend} {d d' : Disk} (h : PrefixFree b d) (loc : List String)
    (hn : d'.nextWriter = d.nextWriter)
    (hw : ∀ k w, d'.writers k = some w → d.writers k = some w)
    (hlost : ∀ k w, d.writers k = some w → d'.writers k = none → w.loc = loc)
    (hdir : d.tree.get loc ≠ some .dir → d'.tree.fileAt = d.tree.fileAt)
    (hf : d.tree.get loc = some .dir →
      ∀ q, d'.tree.fileAt q = if loc <+: q then none else d.tree.fileAt q) : PrefixFree b d' := by
  have hback : ∀ q c, d'.tree.fileAt q = some c →
      d.tree.fileAt q = some c ∧ (d.tree.get loc = some .dir → ¬loc <+: q) := by
    intro q c hc
    by_cases hd : d.tree.get loc = some .dir
    · rw [hf hd] at hc
      split at hc
      · cases hc
      · exact ⟨hc, fun _ => ‹_›⟩
    · rw [hdir hd] at hc
      exact ⟨hc, fun h' => absurd h' hd⟩
  have hsub : ∀ l, Owner d' l → Owner d l := by
    rintro l (⟨k, w, hk, rfl⟩ | ⟨m, s, hm⟩)
    · exact .inl ⟨k, w, hw k w hk, rfl⟩
    · exact .inr ⟨m, s, (hback _ _ hm).1⟩
  refine h.of_owners ?_ (fun k w hk => h.spelled k w (hw k w hk)) hsub ?_
  · intro k hk
    cases hk' : d'.writers k with
    | none => rfl
    | some w =>
      have := hw k w hk'
      rw [h.fresh k (hn ▸ hk)] at this
      cases this
  · intro q c hq hc
    obtain ⟨hc', hnot⟩ := hback q c hc
    obtain ⟨l, hl, hlq⟩ := h.owned q c hq hc'
    have hldir : d.tree.get l = some .dir :=
      Tree.get_of_prefix hlq.1 (Ne.symm hlq.2) (Tree.fileAt_eq_some_iff.mp hc')
    refine ⟨l, ?_, hlq⟩
    rcases hl with ⟨k, w, hk, rfl⟩ | ⟨m, s, hm⟩
    · cases hk' : d'.writers k with
      | none =>
        obtain rfl := hlost k w hk hk'
        exact absurd hlq.1 (hnot hldir)
      | some w' =>
        obtain rfl := Option.some.inj (hk.symm.trans (hw k w' hk'))
        exact .inl ⟨k, w, hk', rfl⟩
    · refine .inr ⟨m, s, ?_⟩
      by_cases hd : d.tree.get loc = some .dir
      · have hnp : ¬loc <+: l ++ [bundleManifest] := by
          intro hp
          rcases List.prefix_concat_iff.mp hp with he | hp
          · rw [he, Tree.fileAt_eq_some_iff.mp hm] at hd
            cases hd
          · exact hnot hd (hp.trans hlq.1)
        rw [ManifestAt, hf hd, if_neg hnp]
        exact hm
      · rw [ManifestAt, hdir hd]
        exact hm

/-- An abort keeps a disk free of prefixes. -/
theorem PrefixFree.abort {b : Backend} {d : Disk} (h : PrefixFree b d) {now : Nat} {k : Nat} :
    PrefixFree b (Backend.abort now k d) := by
  cases hw : d.writers k with
  | none => simpa [Backend.abort, hw] using h
  | some w =>
    have hwriters : (Backend.abort now k d).writers = Function.update d.writers k none := by
      simp [Backend.abort, hw]
    have hdirEq : d.tree.isDir w.bundleDir = true ↔ d.tree.get w.loc = some .dir := by
      rw [h.spelled k w hw, Tree.isDir_spell]
    refine h.of_removed w.loc (by simp [Backend.abort, hw]) ?_ ?_ ?_ ?_
    · intro k' w' hk'
      rw [hwriters, Function.update_apply] at hk'
      split at hk'
      · cases hk'
      · exact hk'
    · intro k' w' hk' hnone
      rw [hwriters, Function.update_apply] at hnone
      split at hnone
      · rename_i he
        subst he
        exact congrArg Writer.loc (Option.some.inj (hk'.symm.trans hw))
      · rw [hk'] at hnone
        cases hnone
    · intro hnd
      funext q
      rw [abort_fileAt hw, if_neg fun hp => hnd (hdirEq.mp hp.1)]
    · intro hd q
      rw [abort_fileAt hw]
      simp [hdirEq.mpr hd]

/-- A delete keeps a disk free of prefixes. -/
theorem PrefixFree.deleteBundle {b : Backend} {d : Disk} (h : PrefixFree b d) {now : Nat}
    {path : String} : PrefixFree b (b.deleteBundle now path d).2 := by
  obtain ⟨hw, hn, -⟩ := Backend.deleteBundle_rest (b := b) now path d
  by_cases hd : d.tree.isDir (b.resolve path) = true
  · have hget : d.tree.get (b.location path) = some .dir := (Tree.isDir_iff.mp hd).2
    refine h.of_removed (b.location path) hn (fun k w hk => hw ▸ hk) ?_
      (fun hnd => absurd hget hnd) fun _ q => ?_
    · intro k w hk hnone
      rw [hw, hk] at hnone
      cases hnone
    · rw [Backend.deleteBundle_fileAt]
      simp [hd]
  · refine h.of_fileAt ?_ hw hn
    funext q
    rw [Backend.deleteBundle_fileAt, if_neg fun hp => hd hp.1]

/-- Several deletes keep a disk free of prefixes. -/
theorem PrefixFree.deletes {b : Backend} {now : Nat} {paths : List String} {d : Disk}
    (h : PrefixFree b d) :
    PrefixFree b (paths.foldl (fun d path => (b.deleteBundle now path d).2) d) := by
  induction paths generalizing d with
  | nil => exact h
  | cons path rest ih => exact ih h.deleteBundle

/-- Every call that meets its condition keeps the owners an antichain. -/
theorem PrefixFree.step {b : Backend} (d : Disk) (op : BackendOp) (h : PrefixFree b d)
    (hg : b.NestClear d op) : PrefixFree b (b.step d op) := by
  cases op with
  | openBundleWrite now path => exact h.openBundleWrite hg
  | writeFile now k name data => exact h.writeFile hg
  | commit now k m => exact h.commit
  | abort now k => exact h.abort
  | deleteBundle now path => exact h.deleteBundle
  | sweepNamespace now minAge pre => exact h.deletes

/-! ## Listing -/

/-- The names of the files in a directory. -/
theorem Backend.mem_fileNames {t : DataTree} {loc : List String} {k : String} :
    k ∈ fileNames t loc ↔ ∃ c, t.fileAt (loc ++ [k]) = some c := by
  simp only [fileNames, List.mem_filterMap, Prod.exists]
  constructor
  · rintro ⟨k', n, hmem, hk⟩
    cases n with
    | dir => cases hk
    | file c =>
      obtain rfl := Option.some.inj hk
      exact ⟨c, Tree.fileAt_eq_some_iff.mpr (Tree.mem_children.mp hmem)⟩
  · rintro ⟨c, hc⟩
    exact ⟨k, .file c, Tree.mem_children.mpr (Tree.fileAt_eq_some_iff.mp hc), rfl⟩

/-- The walk reaches a committed bundle when no directory on the way holds a file. -/
theorem Backend.mem_walkBundles (b : Backend) {d : Disk} (orphans : Bool) {base x : List String}
    (hx : x ≠ []) {m : BundleMeta} {s : Nat} (hm : ManifestAt d (base ++ x) m s)
    (hclear : ∀ y k c, y ≠ [] → StrictlyInside y x → d.tree.fileAt (base ++ y ++ [k]) ≠ some c)
    {fuel : Nat} (hfuel : x.length ≤ fuel) :
    (⟨b.relPosix (spell (base ++ x)), true, d.mtime (base ++ x)⟩ : BundleRef) ∈
      b.walkBundles d orphans fuel (spell base) := by
  induction x generalizing base fuel with
  | nil => exact absurd rfl hx
  | cons k x ih =>
    obtain ⟨fuel, rfl⟩ : ∃ f, fuel = f + 1 := ⟨fuel - 1, by simp at hfuel; omega⟩
    have hmeta := Tree.fileAt_eq_some_iff.mp hm
    have hdir : d.tree.get (base ++ [k]) = some .dir := by
      refine Tree.get_of_prefix (q := base ++ k :: x ++ [bundleManifest]) ?_ ?_ hmeta
      · exact ⟨x ++ [bundleManifest], by simp⟩
      · simp
    have hsub : spell base ++ [Step.into k] = spell (base ++ [k]) := by simp [spell]
    rw [walkBundles, List.mem_flatMap]
    refine ⟨(k, .dir), Tree.mem_children.mpr (by simpa using hdir), ?_⟩
    simp only [hsub, normalize_spell]
    by_cases hx' : x = []
    · subst hx'
      rw [if_pos (mem_fileNames.mpr ⟨_, hm⟩)]
      simp
    · have hnofile : ∀ k' c, d.tree.fileAt (base ++ [k] ++ [k']) ≠ some c := by
        intro k' c
        exact hclear [k] k' c (by simp) ⟨⟨x, rfl⟩, by simpa using hx'⟩
      have hnil : fileNames d.tree (base ++ [k]) = [] := by
        rw [List.eq_nil_iff_forall_not_mem]
        intro k' hk'
        obtain ⟨c, hc⟩ := mem_fileNames.mp hk'
        exact hnofile k' c hc
      rw [hnil]
      have hm' : ManifestAt d (base ++ [k] ++ x) m s := by simpa using hm
      have hclear' : ∀ y k' c, y ≠ [] → StrictlyInside y x →
          d.tree.fileAt (base ++ [k] ++ y ++ [k']) ≠ some c := by
        intro y k' c hy hyx
        have := hclear (k :: y) k' c (by simp) ⟨by simpa using hyx.1, by simpa using hyx.2⟩
        simpa using this
      have hfuel' : x.length ≤ fuel := by simpa using hfuel
      simpa using ih hx' hm' hclear' hfuel'

/-- A committed bundle is listed under every prefix whose root lies above it in the data
directory. -/
theorem PrefixFree.mem_listBundles {b : Backend} {d : Disk} (h : PrefixFree b d)
    {loc base : List String} {m : BundleMeta} {s : Nat} (hm : ManifestAt d loc m s)
    {pre : String} (hpre : b.resolve pre = spell base) (hdata : b.dataLoc <+: base)
    (hin : StrictlyInside base loc) (orphans : Bool) :
    ∃ refs, b.listBundles d pre orphans = .ok refs ∧
      (⟨b.relPosix (spell loc), true, d.mtime loc⟩ : Backend.BundleRef) ∈ refs := by
  obtain ⟨⟨x, rfl⟩, hne⟩ := hin
  have hx : x ≠ [] := fun he => hne (by simp [he])
  have hmeta := Tree.fileAt_eq_some_iff.mp hm
  have hbase : (if pre = "" then b.dataRoot else joinPath b.dataRoot pre) = spell base := by
    split
    · rename_i he
      rw [← hpre, he]
      simp [Backend.resolve, joinPath, isAbsolute, startsWith, steps, segments, component]
    · exact hpre
  have hdir : d.tree.isDir (spell base) = true := by
    rw [Tree.isDir_spell]
    exact Tree.get_of_prefix (q := base ++ x ++ [bundleManifest])
      ⟨x ++ [bundleManifest], by simp⟩ (by simp [hx]) hmeta
  have hroot : b.dataRoot <+: spell base := by
    obtain ⟨r, rfl⟩ := hdata
    rw [spell_append, ← b.dataRoot_eq]
    exact List.prefix_append _ _
  have hfuel : x.length ≤ (d.tree.entries.map fun e => e.1.length).sum + 1 := by
    have hmem : (base ++ x ++ [bundleManifest], Node.file (Blob.manifest m s)) ∈ d.tree.entries :=
      (Tree.get_eq_some_iff (by simp)).mp hmeta
    have := List.single_le_sum (by simp) _ (List.mem_map_of_mem (f := fun e => e.1.length) hmem)
    simp at this
    omega
  have hwalk := b.mem_walkBundles orphans hx hm (fun y k c hy hyx hc => by
    obtain ⟨l, hl, hlq⟩ := h.owned _ c (hdata.trans (by simp)) hc
    have hly : l <+: base ++ y := by
      rcases List.prefix_concat_iff.mp hlq.1 with he | hp
      · exact absurd he.symm hlq.2
      · exact hp
    refine h.antichain l (base ++ x) hl (.inr ⟨m, s, hm⟩) ⟨hly.trans ?_, fun he => ?_⟩
    · exact (List.prefix_append_right_inj _).mpr hyx.1
    · have h1 := hly.length_le
      have h2 : y.length < x.length :=
        lt_of_le_of_ne hyx.1.length_le fun hlen => hyx.2 (hyx.1.eq_of_length hlen).symm
      rw [← he] at h1
      simp at h1
      omega) hfuel
  refine ⟨_, by simp [Backend.listBundles, hbase, hdir, hroot]; rfl, ?_⟩
  rw [List.mem_insertionSort]
  exact hwalk

/-- In every run in which no writer opens above or below an open one, no committed bundle is
inside another, and each is listed under every prefix above it in the data directory. -/
theorem run_prefixFree (b : Backend) {t : DataTree}
    (ht : ∀ q c, b.dataLoc <+: q → t.fileAt q ≠ some c)
    (hnew : ∀ q m s, t.fileAt q ≠ some (.manifest m s)) (ops : List BackendOp)
    (hg : Runs.Guarded b.step b.NestClear (Disk.init t) ops) :
    (∀ l m s l' m' s', ManifestAt (Runs.run b.step (Disk.init t) ops) l m s →
        ManifestAt (Runs.run b.step (Disk.init t) ops) l' m' s' → ¬StrictlyInside l l') ∧
      ∀ l m s pre base orphans, ManifestAt (Runs.run b.step (Disk.init t) ops) l m s →
        b.resolve pre = spell base → b.dataLoc <+: base → StrictlyInside base l →
        ∃ refs, b.listBundles (Runs.run b.step (Disk.init t) ops) pre orphans = .ok refs ∧
          ∃ r ∈ refs, r.path = b.relPosix (spell l) ∧ r.hasMeta = true := by
  have h := hg.invariant PrefixFree.step (prefixFree_init ht hnew)
  refine ⟨fun l m s l' m' s' hl hl' => h.antichain l l' (.inr ⟨m, s, hl⟩) (.inr ⟨m', s', hl'⟩), ?_⟩
  intro l m s pre base orphans hl hpre hdata hin
  obtain ⟨refs, hrefs, hmem⟩ := h.mem_listBundles hl hpre hdata hin orphans
  exact ⟨refs, hrefs, _, hmem, rfl, rfl⟩

/-- One writer alone: its bundle is listed. -/
theorem run_prefixFree_single :
    ∃ refs, srvBackend.listBundles (Runs.run srvBackend.step (Disk.init srvTree)
        [.openBundleWrite 0 "store/p", .writeFile 0 0 "a" [1], .commit 0 0 (smallMeta ["a"])])
        "store/" false = .ok refs ∧ ∃ r ∈ refs, r.path = "store/p" ∧ r.hasMeta = true := by
  have hopen : (srvBackend.step (Disk.init srvTree) (.openBundleWrite 0 "store/p")).writers 0 =
      some ⟨srvBackend.resolve "store/p", []⟩ := by decide
  have hg : Runs.Guarded srvBackend.step srvBackend.NestClear (Disk.init srvTree)
      [.openBundleWrite 0 "store/p", .writeFile 0 0 "a" [1], .commit 0 0 (smallMeta ["a"])] := by
    refine ⟨⟨⟨["srv", "data", "store", "p"], by decide, .store, by decide⟩, ?_⟩,
      ⟨⟨["a"], by decide, by decide⟩, ?_⟩, trivial, trivial⟩
    · intro _ h w hw
      simp [Disk.init] at hw
    · intro w hw
      left
      decide
  exact (run_prefixFree srvBackend (by simp [srvTree_fileAt]) (by simp [srvTree_fileAt]) _ hg).2
    ["srv", "data", "store", "p"] (smallMeta ["a"]) 0 "store/" ["srv", "data", "store"] false
    (by unfold ManifestAt; decide) (by decide) (by decide) (by decide)

/-- Two writers open one inside the other, the outer one still empty; both commit, and the
inner bundle is no longer listed. -/
theorem run_not_prefixFree :
    validateManifest ["a"] = .ok () ∧ ∃ d, d = Runs.run srvBackend.step (Disk.init srvTree)
        [.openBundleWrite 0 "store/p", .openBundleWrite 0 "store/p/q", .writeFile 0 1 "a" [1],
          .commit 0 1 (smallMeta ["a"]), .writeFile 0 0 "a" [1], .commit 0 0 (smallMeta ["a"])] ∧
      ∃ l l', StrictlyInside l l' ∧ ManifestAt d l (smallMeta ["a"]) 1 ∧
        ManifestAt d l' (smallMeta ["a"]) 0 ∧
        srvBackend.listBundles d "store/" false = .ok [⟨"store/p", true, 0⟩] := by
  refine ⟨by decide, _, rfl, ["srv", "data", "store", "p"], ["srv", "data", "store", "p", "q"],
    by decide, ?_, ?_, ?_⟩
  · unfold ManifestAt
    decide
  · unfold ManifestAt
    decide
  · rfl

end Cassetta
