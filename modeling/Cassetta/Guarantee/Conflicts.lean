import Cassetta.Server.Writing
import Cassetta.Storage.Laying
import Cassetta.Storage.Naming

/-!
# Which paths conflict

Opening a bundle is refused where a committed bundle is at the path, above it or below it, and
also where the path is a directory that an earlier delete or abort has left behind. This module
says that these are all, over every history of writes and deletes that come one at a time, where
the operating system takes the path.
-/

namespace Cassetta

open FileTree

variable {b : Backend} {d : Disk} {now : Nat} {p : String} {loc : List String}

/-! ## The property and the condition -/

/-- A committed bundle is at a location, above it or below it. -/
def Shadowed (d : Disk) (loc : List String) : Prop :=
  ∃ l m serial, ManifestAt d l m serial ∧ (l <+: loc ∨ loc <+: l)

/-- A directory with no committed bundle at it, above it or below it. -/
def Leftover (d : Disk) (loc : List String) : Prop :=
  d.tree.get loc = some .dir ∧ ¬Shadowed d loc

/-- The outcome of `open_bundle_write` is a path conflict. -/
def ConflictAt (b : Backend) (refusal : Refusal) (now : Nat) (p : String) (d : Disk) : Prop :=
  ∃ q kind, (b.openOs refusal now p d).1 = .error (.bundlePathConflict q kind)

/-- `open_bundle_write` raises a path conflict exactly where a committed bundle is in the way,
and succeeds everywhere else. -/
structure ConflictsExactly (b : Backend) (refusal : Refusal) (now : Nat) (p : String) (d : Disk) :
    Prop where
  conflict : ConflictAt b refusal now p d ↔ Shadowed d (b.location p)
  otherwise : ¬Shadowed d (b.location p) → ∃ k, (b.openOs refusal now p d).1 = .ok k

/-! ## Between two writes -/

/-- No file stands on the way to the data directory. -/
def RootClear (b : Backend) (t : DataTree) : Prop :=
  ∀ q c, q <+: b.dataLoc → t.fileAt q ≠ some c

/-- No writer is open. -/
def Idle (d : Disk) : Prop := ∀ k, d.writers k = none

/-- No writer is open, and every file of the data directory is in a committed bundle. -/
structure AtRest (b : Backend) (d : Disk) : Prop where
  free : PrefixFree b d
  root : RootClear b d.tree
  idle : Idle d

private theorem Backend.InNamespace.below_data (h : b.InNamespace loc) : b.dataLoc <+: loc := by
  obtain ⟨ns, hpre, -⟩ := h
  exact (List.prefix_append _ _).trans hpre

/-- A location in a namespace is not the root. -/
theorem Backend.InNamespace.ne_nil (h : b.InNamespace loc) : loc ≠ [] := by
  obtain ⟨ns, ⟨rel, rfl⟩, -⟩ := h
  simp [Backend.dataLoc]

/-- The beginnings of a plain path are plain. -/
theorem eq_spell_of_prefix {pre : List (Step String)} (h : pre <+: spell loc) :
    ∃ a, pre = spell a ∧ a <+: loc := by
  refine ⟨loc.take pre.length, ?_, List.take_prefix _ _⟩
  rw [← spell_take]
  exact List.prefix_iff_eq_take.mp h

namespace AtRest

/-- Every file lies in a committed bundle. -/
theorem owned (h : AtRest b d) {q : List String} {c : Blob} (hq : b.dataLoc <+: q)
    (hc : d.tree.fileAt q = some c) :
    ∃ l m serial, ManifestAt d l m serial ∧ StrictlyInside l q := by
  obtain ⟨l, howner, hin⟩ := h.free.owned q c hq hc
  rcases howner with ⟨k, w, hw, -⟩ | ⟨m, serial, hm⟩
  · rw [h.idle k] at hw
    cases hw
  · exact ⟨l, m, serial, hm, hin⟩

/-- A directory above an unshadowed location holds no file. -/
theorem no_file_in (h : AtRest b d) (hfree : ¬Shadowed d loc) {a : List String}
    (ha : b.dataLoc <+: a) (hp : a <+: loc) (k : String) (c : Blob) :
    d.tree.fileAt (a ++ [k]) ≠ some c := by
  intro hc
  obtain ⟨l, m, serial, hm, hin⟩ := h.owned (ha.trans (List.prefix_append _ _)) hc
  have hla : l <+: a := by
    rcases List.prefix_concat_iff.mp hin.1 with rfl | hla
    · exact absurd rfl hin.2
    · exact hla
  exact hfree ⟨l, m, serial, hm, .inl (hla.trans hp)⟩

/-- No file is in the way of an unshadowed location. -/
theorem passable (h : AtRest b d) (hfree : ¬Shadowed d loc) (hdata : b.dataLoc <+: loc) :
    d.tree.Passable (spell loc) := by
  intro pre hpre c hc
  obtain ⟨a, rfl, ha⟩ := eq_spell_of_prefix hpre
  rw [normalize_spell] at hc
  have hfile := Tree.fileAt_eq_some_iff.mpr hc
  rcases List.prefix_or_prefix_of_prefix ha hdata with hup | hdown
  · exact h.root a c hup hfile
  · obtain ⟨l, m, serial, hm, hin⟩ := h.owned hdown hfile
    exact hfree ⟨l, m, serial, hm, .inl (hin.1.trans ha)⟩

end AtRest

/-! ## What the collision check sees -/

/-- Whatever the check raises is a path conflict. -/
theorem Backend.conflict_of_check {t : DataTree} {dir : List (Step String)} {e : StorageError}
    (h : b.checkBundlePathCollision t dir = some e) : ∃ q kind, e = .bundlePathConflict q kind := by
  unfold Backend.checkBundlePathCollision at h
  dsimp only at h
  split at h
  · cases h
  split at h
  · cases h
  split at h
  · exact ⟨_, _, (Option.some.inj h).symm⟩
  split at h
  · obtain ⟨descendant, -, rfl⟩ := Option.map_eq_some_iff.mp h
    exact ⟨_, _, rfl⟩
  · cases h

/-- A directory that looks like a bundle has a file in it. -/
theorem Backend.file_of_looksLikeBundleDir {t : DataTree} {a : List String}
    (h : Backend.looksLikeBundleDir t (spell a) = true) : ∃ k c, t.fileAt (a ++ [k]) = some c := by
  simp only [Backend.looksLikeBundleDir, Bool.and_eq_true, Bool.or_eq_true, normalize_spell] at h
  rcases h.2 with hmeta | ⟨hfiles, hne⟩
  · have hspell : spell a ++ [Step.into bundleManifest] = spell (a ++ [bundleManifest]) := by
      simp [spell]
    rw [Tree.isFile, hspell, Tree.readFile_spell] at hmeta
    obtain ⟨c, hc⟩ := Option.isSome_iff_exists.mp hmeta
    exact ⟨bundleManifest, c, hc⟩
  · cases hchildren : t.children a with
    | nil => simp [hchildren] at hne
    | cons child rest =>
      obtain ⟨k, n⟩ := child
      have hget : t.get (a ++ [k]) = some n := Tree.mem_children.mp (by simp [hchildren])
      cases n with
      | dir => simp [hchildren] at hfiles
      | file c => exact ⟨k, c, Tree.fileAt_eq_some_iff.mpr hget⟩

/-- No directory above a location holds a file, as far up as the directories that hold the
namespaces. -/
def NothingAbove (b : Backend) (t : DataTree) (loc : List String) : Prop :=
  ∀ a, StrictlyInside a loc → b.dataLoc.length + 1 < a.length → ∀ k c, t.fileAt (a ++ [k]) ≠ some c

/-- The check has nothing against a location that is not there and has no file above it. -/
theorem Backend.check_eq_none {t : DataTree} (hin : b.InNamespace loc)
    (hclear : NothingAbove b t loc) (hnone : t.get loc = none) :
    b.checkBundlePathCollision t (spell loc) = none := by
  obtain ⟨ns, ⟨rel, rfl⟩, -⟩ := hin
  have hdir : t.isDir (spell (b.dataLoc ++ ns.parts ++ rel)) = false := by
    rw [Bool.eq_false_iff, ne_eq, Tree.isDir_spell, hnone]
    exact nofun
  have hfind : (b.checkedAncestors (spell (b.dataLoc ++ ns.parts ++ rel))).find?
      (Backend.looksLikeBundleDir t) = none := by
    rw [List.find?_eq_none]
    intro anc hanc hlooks
    have hdrop := b.drop_dataRoot (ns.parts ++ rel)
    rw [← List.append_assoc] at hdrop
    simp only [Backend.checkedAncestors, hdrop, namespaceDepth_spell, List.mem_reverse,
      List.mem_map, List.mem_range] at hanc
    obtain ⟨i, hi, rfl⟩ := hanc
    rw [spell_take] at hlooks
    obtain ⟨k, c, hc⟩ := Backend.file_of_looksLikeBundleDir hlooks
    have hpos : 0 < ns.depth := by cases ns <;> simp [Namespace.depth, Namespace.parts]
    have hroot : b.dataRoot.length = b.dataLoc.length := by simp [b.dataRoot_eq, spell]
    have hlen : (b.dataLoc ++ ns.parts ++ rel).length =
        b.dataLoc.length + ns.depth + rel.length := by
      simp [Namespace.depth, Nat.add_assoc]
    have hrel : (spell (ns.parts ++ rel)).length = ns.depth + rel.length := by
      simp [spell, Namespace.depth]
    rw [hrel] at hi
    refine hclear _ ⟨List.take_prefix _ _, fun he => ?_⟩ ?_ k c hc
    · have htake := congrArg List.length he
      rw [List.length_take] at htake
      omega
    · rw [List.length_take]
      omega
  unfold Backend.checkBundlePathCollision
  dsimp only
  split
  · rfl
  split
  · rfl
  rw [hfind, hdir]
  rfl

/-- A location that is not there, with no file above it or in its way, is opened. -/
theorem Backend.opens_of_nothingAbove (hspell : b.resolve p = spell loc) (hin : b.InNamespace loc)
    (hclear : NothingAbove b d.tree loc) (hnone : d.tree.get loc = none)
    (hpass : d.tree.Passable (spell loc)) : ∃ k, (b.openBundleWrite now p d).1 = .ok k := by
  have hfree : b.FreeAt d p := by
    refine ⟨hspell ▸ Backend.check_eq_none hin hclear hnone, ?_⟩
    rw [Backend.location, hspell, normalize_spell]
    exact hnone
  have hreach : b.Reachable d p := by
    rw [Backend.Reachable, hspell]
    exact ⟨hpass.mono (List.dropLast_prefix _), Tree.opens_spell hin.ne_nil⟩
  obtain ⟨k, d', hok⟩ : ∃ k d', b.openBundleWrite now p d = (.ok k, d') :=
    (Backend.openBundleWrite_isOk_iff hfree).mpr hreach
  exact ⟨k, by rw [hok]⟩

/-! ## Where opening is refused -/

/-- A path that is taken is refused as a conflict. -/
def Backend.Conflicts (b : Backend) (now : Nat) (p : String) (d : Disk) : Prop :=
  ∃ q kind, (b.openBundleWrite now p d).1 = .error (.bundlePathConflict q kind)

/-- A bundle is not opened over a directory. -/
theorem Backend.conflicts_of_dir (hspell : b.resolve p = spell loc) (hloc : loc ≠ [])
    (hdir : d.tree.get loc = some .dir) : b.Conflicts now p d := by
  cases hcheck : b.checkBundlePathCollision d.tree (b.resolve p) with
  | some e =>
    obtain ⟨q, kind, rfl⟩ := Backend.conflict_of_check hcheck
    exact ⟨q, kind, by simp [Backend.openBundleWrite, hcheck]⟩
  | none =>
    have hpass : d.tree.Passable (b.resolve p).dropLast := by
      intro pre hpre c hc
      obtain ⟨a, rfl, ha⟩ := eq_spell_of_prefix (hspell ▸ hpre.trans (List.dropLast_prefix _))
      rw [normalize_spell] at hc
      by_cases he : a = loc
      · rw [he, hdir] at hc
        cases hc
      · rw [Tree.get_of_prefix ha he hdir] at hc
        cases hc
    obtain ⟨t, hparents, hres, hget⟩ :=
      Tree.mkdirParents_opens hpass (hspell ▸ Tree.opens_spell hloc)
    rw [hspell, normalize_spell, hdir] at hget
    have hmk : t.mkdir (b.resolve p) = .error .exist := by
      rw [Tree.mkdir, hres]
      simp only [hspell, normalize_spell, hget]
    exact ⟨p, _, by simp [Backend.openBundleWrite, hcheck, hparents, hmk]; rfl⟩

namespace AtRest

/-- A committed bundle is seen from its own path, from below and from above. -/
theorem conflicts_of_shadowed (h : AtRest b d) (hspell : b.resolve p = spell loc)
    (hin : b.InNamespace loc) (hs : Shadowed d loc) : b.Conflicts now p d := by
  obtain ⟨l, m, serial, hm, hnear⟩ := hs
  have hmeta := Tree.fileAt_eq_some_iff.mp hm
  by_cases hup : StrictlyInside l loc
  · cases hcheck : b.checkBundlePathCollision d.tree (b.resolve p) with
    | some e =>
      obtain ⟨q, kind, rfl⟩ := Backend.conflict_of_check hcheck
      exact ⟨q, kind, by simp [Backend.openBundleWrite, hcheck]⟩
    | none =>
      rw [hspell] at hcheck
      exact absurd hup (b.not_above_of_check hin (h.free.inside l (.inr ⟨m, serial, hm⟩)) hcheck hm)
  · have hdown : loc <+: l := by
      rcases hnear with hnear | hnear
      · by_contra hne
        exact hup ⟨hnear, fun he => hne (he ▸ List.prefix_rfl)⟩
      · exact hnear
    have hne : loc ≠ l ++ [bundleManifest] := by
      rintro rfl
      have hlen := hdown.length_le
      simp at hlen
    exact Backend.conflicts_of_dir hspell hin.ne_nil
      (Tree.get_of_prefix (hdown.trans (List.prefix_append _ _)) hne hmeta)

/-- Where no bundle is near and nothing is left, the bundle is opened. -/
theorem opens_of_clear (h : AtRest b d) (hspell : b.resolve p = spell loc) (hin : b.InNamespace loc)
    (hs : ¬Shadowed d loc) (hd : d.tree.get loc ≠ some .dir) :
    ∃ k, (b.openBundleWrite now p d).1 = .ok k := by
  have hnone : d.tree.get loc = none := by
    cases hget : d.tree.get loc with
    | none => rfl
    | some n =>
      cases n with
      | dir => exact absurd hget hd
      | file c =>
        obtain ⟨l, m, serial, hm, hlin⟩ := h.owned hin.below_data (Tree.fileAt_eq_some_iff.mpr hget)
        exact absurd ⟨l, m, serial, hm, .inl hlin.1⟩ hs
  have hclear : NothingAbove b d.tree loc := by
    intro a ha hlen k c
    have hdata : b.dataLoc <+: a :=
      List.prefix_of_prefix_length_le hin.below_data ha.1 (by omega)
    exact h.no_file_in hs hdata ha.1 k c
  exact Backend.opens_of_nothingAbove hspell hin hclear hnone (h.passable hs hin.below_data)

/-- Between two writes, conflicts are exact everywhere but at a directory left behind and at a
path that the operating system does not take. -/
theorem conflictsExactly_iff (h : AtRest b d) (refusal : Refusal) (hp : b.Plain (b.resolve p))
    (htaken : Shadowed d (b.location p) → OsPath (b.resolve p)) :
    ConflictsExactly b refusal now p d ↔
      ¬Leftover d (b.location p) ∧ OsPath (b.resolve p) := by
  obtain ⟨loc, hspell, hin⟩ := hp
  have hl : b.location p = loc := by rw [Backend.location, hspell, normalize_spell]
  by_cases hos : OsPath (b.resolve p)
  · have hopen : b.openOs refusal now p d = b.openBundleWrite now p d := if_pos hos
    rw [hl, and_iff_left hos]
    constructor
    · rintro ⟨hconf, -⟩ ⟨hdir, hs⟩
      rw [hl, ConflictAt, hopen] at hconf
      exact hs (hconf.mp (Backend.conflicts_of_dir hspell hin.ne_nil hdir))
    · intro hleft
      have hopens : ¬Shadowed d loc → ∃ k, (b.openBundleWrite now p d).1 = .ok k :=
        fun hs => h.opens_of_clear hspell hin hs fun hd => hleft ⟨hd, hs⟩
      refine ⟨⟨?_, fun hs => ?_⟩, fun hs => ?_⟩
      · rintro ⟨q, kind, hconf⟩
        rw [hl]
        by_contra hs
        obtain ⟨k, hk⟩ := hopens hs
        rw [hopen, hk] at hconf
        cases hconf
      · rw [ConflictAt, hopen]
        exact h.conflicts_of_shadowed hspell hin (hl ▸ hs)
      · rw [hopen]
        exact hopens (hl ▸ hs)
  · refine iff_of_false (fun hexact => ?_) fun hall => hos hall.2
    obtain ⟨k, hk⟩ := hexact.otherwise fun hs => hos (htaken hs)
    rw [Backend.openOs, if_neg hos] at hk
    cases hk

end AtRest

/-! ## One write at a time -/

/-- What a call must meet when writes come one at a time: a bundle is opened at a plain path of a
namespace, and opened or deleted only between two writes; a file stays in its bundle's
directory. -/
def Backend.OneByOne (b : Backend) (d : Disk) : BackendOp → Prop
  | .openBundleWrite _ path => b.Plain (b.resolve path) ∧ Idle d
  | .writeFile _ k name _ => ∀ w, d.writers k = some w → w.loc <+: fileLoc w.loc name
  | .commit .. => True
  | .abort .. => True
  | .deleteBundle .. => Idle d
  | .sweepNamespace .. => False

/-- The invariant of such a run: at most one writer is open, and its directory is there. -/
structure Steady (b : Backend) (d : Disk) : Prop where
  free : PrefixFree b d
  root : RootClear b d.tree
  single : ∀ k k' w w', d.writers k = some w → d.writers k' = some w' → k = k'
  there : ∀ k w, d.writers k = some w → d.tree.dirAt w.loc = true

/-- What happens inside a namespace leaves the way to it clear. -/
theorem RootClear.of_inside {t t' : DataTree} (h : RootClear b t) (hin : b.InNamespace loc)
    (hf : ∀ q, ¬loc <+: q → t'.fileAt q = t.fileAt q) : RootClear b t' := by
  intro q c hq
  rw [hf q]
  · exact h q c hq
  · intro hloc
    obtain ⟨ns, hpre, hne⟩ := hin
    have hlen := ((hpre.trans hloc).trans hq).length_le
    cases ns <;> simp [Namespace.parts] at hlen

/-- A root that is clear stays so as files go. -/
theorem RootClear.of_removed {t t' : DataTree} (h : RootClear b t)
    (hf : ∀ q c, t'.fileAt q = some c → t.fileAt q = some c) : RootClear b t' :=
  fun q c hq hc => h q c hq (hf q c hc)

namespace Steady

private theorem atRest (h : Steady b d) (hidle : Idle d) : AtRest b d := ⟨h.free, h.root, hidle⟩

/-- An open keeps a disk steady. -/
theorem openBundleWrite (h : Steady b d) {path : String} (hp : b.Plain (b.resolve path))
    (hidle : Idle d) : Steady b (b.openBundleWrite now path d).2 := by
  have hfree : PrefixFree b (b.openBundleWrite now path d).2 := by
    refine h.free.openBundleWrite ⟨hp, fun _ k w hw => ?_⟩
    rw [hidle k] at hw
    cases hw
  rcases Backend.openBundleWrite_cases (b := b) now path d with
    ⟨e, t, heq, hgrown⟩ | ⟨e, heq⟩ | ⟨t, t', -, hgrown, hmk, heq⟩
  · rw [heq] at hfree ⊢
    refine ⟨hfree, ?_, h.single, fun k w hw => ?_⟩
    · exact h.root.of_removed fun q c hc => by rwa [← hgrown.fileAt_eq]
    · rw [Disk.setTree_writers, hidle k] at hw
      cases hw
  · rw [heq]
    exact h
  · rw [heq] at hfree ⊢
    have hfiles : t'.fileAt = d.tree.fileAt :=
      (Tree.grown_of_mkdir hmk).fileAt_eq.trans hgrown.fileAt_eq
    have honly : ∀ k w, Function.update d.writers d.nextWriter (some ⟨b.resolve path, []⟩) k =
        some w → k = d.nextWriter ∧ w = ⟨b.resolve path, []⟩ := by
      intro k w hw
      rw [Function.update_apply] at hw
      split at hw
      · exact ⟨‹_›, (Option.some.inj hw).symm⟩
      · rw [hidle k] at hw
        cases hw
    refine ⟨hfree, ?_, ?_, ?_⟩
    · exact h.root.of_removed fun q c hc => by rwa [← hfiles]
    · intro k k' w w' hw hw'
      rw [(honly k w hw).1, (honly k' w' hw').1]
    · intro k w hw
      obtain ⟨-, rfl⟩ := honly k w hw
      exact Tree.dirAt_iff.mpr (Tree.isDir_iff.mp (Tree.isDir_of_mkdir hmk)).2

/-- A write keeps a disk steady. -/
theorem writeFile (h : Steady b d) {k : Nat} {name : String} {data : Bytes}
    (hin : ∀ w, d.writers k = some w → w.loc <+: fileLoc w.loc name) :
    Steady b (Backend.writeFile now k name data d).2 := by
  have hfree : PrefixFree b (Backend.writeFile now k name data d).2 :=
    h.free.writeFile_inside fun w hw => ⟨hin w hw, fun _ => h.there k w hw⟩
  rcases Backend.writeFile_cases now k name data d with
    ⟨e, heq⟩ | ⟨w, hw, -, -, ⟨e, t, heq, hgrown⟩ | ⟨t, t', hgrown, hwr, heq⟩⟩
  · rw [heq]
    exact h
  · rw [heq] at hfree ⊢
    refine ⟨hfree, ?_, h.single, fun k' w' hw' => ?_⟩
    · exact h.root.of_removed fun q c hc => by rwa [← hgrown.fileAt_eq]
    · exact Tree.dirAt_iff.mpr (hgrown.get_some (Tree.dirAt_iff.mp (h.there k' w' hw')))
  · obtain ⟨-, hkeep, -, hfiles⟩ := Backend.writeFile_ok heq hw
    rw [heq] at hfree ⊢
    have hsame : ∀ k' w', Function.update d.writers k
        (some { w with written := w.written ++ [(name, data)] }) k' = some w' →
        k' = k ∧ w'.loc = w.loc := by
      intro k' w' hw'
      rw [Function.update_apply] at hw'
      split at hw'
      · obtain rfl := Option.some.inj hw'
        exact ⟨‹_›, rfl⟩
      · rename_i hne
        exact absurd (h.single k' k w' w hw' hw) hne
    refine ⟨hfree, h.root.of_inside (h.free.inside w.loc (.inl ⟨k, w, hw, rfl⟩)) ?_, ?_, ?_⟩
    · intro q hq
      have hne : q ≠ fileLoc w.loc name := by
        rintro rfl
        exact hq (hin w hw)
      rw [hfiles, Function.update_of_ne hne]
    · intro k₁ k₂ w₁ w₂ hw₁ hw₂
      rw [(hsame k₁ w₁ hw₁).1, (hsame k₂ w₂ hw₂).1]
    · intro k' w' hw'
      obtain ⟨-, hloc⟩ := hsame k' w' hw'
      rw [hloc]
      exact Tree.dirAt_iff.mpr (hkeep _ (Tree.dirAt_iff.mp (h.there k w hw)))

/-- Once the open writer is gone, none is left. -/
theorem idle_update (h : Steady b d) {k : Nat} {w : Writer} (hw : d.writers k = some w) (k' : Nat) :
    Function.update d.writers k none k' = none := by
  rw [Function.update_apply]
  split
  · rfl
  · rename_i hne
    cases hw' : d.writers k' with
    | none => rfl
    | some w' => exact absurd (h.single k' k w' w hw' hw) hne

/-- An idle disk that is free of prefixes is steady. -/
theorem of_idle (hfree : PrefixFree b d) (hroot : RootClear b d.tree) (hidle : Idle d) :
    Steady b d := by
  refine ⟨hfree, hroot, fun k _ w _ hw => ?_, fun k w hw => ?_⟩
  all_goals
    rw [hidle k] at hw
    cases hw

/-- A commit keeps a disk steady. -/
theorem commit (h : Steady b d) {k : Nat} {m : BundleMeta} :
    Steady b (Backend.commit now k m d).2 := by
  have hfree : PrefixFree b (Backend.commit now k m d).2 := h.free.commit
  have hkeep := Backend.keepsDirs_commit now k m d
  rcases Backend.commit_cases now k m d with
    ⟨e, heq⟩ | ⟨w, hw, -, ⟨e, t, heq, hfiles⟩ | ⟨t, t', heq, hfiles⟩⟩
  · rw [heq]
    exact h
  · rw [heq] at hfree hkeep ⊢
    refine ⟨hfree, h.root.of_inside (h.free.inside w.loc (.inl ⟨k, w, hw, rfl⟩)) ?_, h.single, ?_⟩
    · intro q hq
      have hne : q ≠ w.loc ++ [bundleManifestTmp] := by
        rintro rfl
        exact hq (List.prefix_append _ _)
      rw [Disk.setTree_tree, hfiles, Function.update_of_ne hne]
    · intro k' w' hw'
      exact Tree.dirAt_iff.mpr (hkeep _ (Tree.dirAt_iff.mp (h.there k' w' hw')))
  · rw [heq] at hfree ⊢
    refine of_idle hfree (h.root.of_inside (h.free.inside w.loc (.inl ⟨k, w, hw, rfl⟩)) ?_)
      (h.idle_update hw)
    intro q hq
    have hne : ∀ name, q ≠ w.loc ++ [name] := by
      rintro name rfl
      exact hq (List.prefix_append _ _)
    show t'.fileAt q = _
    rw [hfiles, Function.update_of_ne (hne _), Function.update_of_ne (hne _)]

/-- An abort keeps a disk steady. -/
theorem abort (h : Steady b d) {k : Nat} : Steady b (Backend.abort now k d) := by
  have hfree : PrefixFree b (Backend.abort now k d) := h.free.abort
  cases hw : d.writers k with
  | none => simpa [Backend.abort, hw] using h
  | some w =>
    refine of_idle hfree (h.root.of_removed fun q c hc => ?_) fun k' => ?_
    · rw [abort_fileAt hw] at hc
      split at hc
      · cases hc
      · exact hc
    · have hwriters : (Backend.abort now k d).writers = Function.update d.writers k none := by
        simp [Backend.abort, hw]
      rw [hwriters]
      exact h.idle_update hw k'

/-- A delete keeps a disk steady. -/
theorem deleteBundle (h : Steady b d) {path : String} (hidle : Idle d) :
    Steady b (b.deleteBundle now path d).2 := by
  refine of_idle h.free.deleteBundle (h.root.of_removed fun q c hc => ?_) fun k => ?_
  · rw [Backend.deleteBundle_fileAt] at hc
    split at hc
    · cases hc
    · exact hc
  · rw [(Backend.deleteBundle_rest now path d).1]
    exact hidle k

/-- Directories alone are no writers and no files. -/
theorem widened {d' : Disk} (h : Steady b d) (hd : Widened d d') : Steady b d' := by
  refine ⟨h.free.widened hd, fun q c hq => ?_, ?_, fun k w hw => ?_⟩
  · rw [hd.files]
    exact h.root q c hq
  · rw [hd.writers]
    exact h.single
  · rw [hd.writers] at hw
    exact hd.dirs _ (h.there k w hw)

/-- Every call of such a run keeps the invariant. -/
theorem step (d : Disk) (op : BackendOp) (h : Steady b d) (hg : b.OneByOne d op) :
    Steady b (b.step d op) := by
  cases op with
  | openBundleWrite now path => exact h.openBundleWrite hg.1 hg.2
  | writeFile now k name data => exact h.writeFile hg
  | commit now k m => exact h.commit
  | abort now k => exact h.abort
  | deleteBundle now path => exact h.deleteBundle hg
  | sweepNamespace now minAge pre => exact hg.elim

/-- So does every call where the operating system refuses paths. -/
theorem osStep (refusal : Refusal) (d : Disk) (op : BackendOp) (h : Steady b d)
    (hg : b.OneByOne d op) : Steady b (b.osStep refusal d op) := by
  rcases b.osStep_cases refusal d op with heq | hd
  · rw [heq]
    exact h.step d op hg
  · exact h.widened hd

end Steady

/-- After any history of writes, aborted writes and deletes that come one at a time, whatever the
operating system does at a path that it does not take, opening a bundle conflicts exactly where a
committed bundle is at the path, above it or below it, and else succeeds, if and only if the path
is not a directory left behind with no such bundle and the operating system takes it. What it
does not take is asked about only where no committed bundle is near. -/
theorem conflicts_exact_iff (b : Backend) (refusal : Refusal) {t : DataTree}
    (ht : ∀ q c, b.dataLoc <+: q → t.fileAt q ≠ some c) (hroot : RootClear b t)
    (hnew : ∀ q m s, t.fileAt q ≠ some (.manifest m s)) (ops : List BackendOp)
    (hg : Runs.Guarded (b.osStep refusal) b.OneByOne (Disk.init t) ops)
    (hidle : Idle (Runs.run (b.osStep refusal) (Disk.init t) ops)) (now : Nat) {p : String}
    (hp : b.Plain (b.resolve p))
    (htaken : Shadowed (Runs.run (b.osStep refusal) (Disk.init t) ops) (b.location p) →
      OsPath (b.resolve p)) :
    ConflictsExactly b refusal now p (Runs.run (b.osStep refusal) (Disk.init t) ops) ↔
      ¬Leftover (Runs.run (b.osStep refusal) (Disk.init t) ops) (b.location p) ∧
        OsPath (b.resolve p) := by
  have hinit : Steady b (Disk.init t) :=
    Steady.of_idle (prefixFree_init ht hnew) hroot fun _ => rfl
  have hsteady := hg.invariant (Steady.osStep refusal) hinit
  exact (hsteady.atRest hidle).conflictsExactly_iff refusal hp htaken

/-- The bundle `store/p` is written. -/
def writtenBeside : List BackendOp :=
  [.openBundleWrite 0 "store/p", .writeFile 0 0 "a" [1], .commit 0 0 (smallMeta ["a"])]

/-- Beside a committed bundle a new one is opened, below it none. -/
theorem conflicts_exact_beside :
    ∃ d, d = Runs.run (srvBackend.osStep .plain) (Disk.init srvTree) writtenBeside ∧
      ConflictsExactly srvBackend .plain 1 "store/q" d ∧
      ConflictsExactly srvBackend .plain 1 "store/p/q" d := by
  refine ⟨_, rfl, ?_⟩
  have hnone : ∀ q c, srvTree.fileAt q ≠ some c := by simp [srvTree_fileAt]
  have hg : Runs.Guarded (srvBackend.osStep .plain) srvBackend.OneByOne (Disk.init srvTree)
      writtenBeside := by
    refine ⟨⟨⟨["srv", "data", "store", "p"], by decide, .store, by decide⟩, fun _ => rfl⟩, ?_,
      trivial, trivial⟩
    intro w hw
    have hopen : (srvBackend.osStep .plain (Disk.init srvTree)
        (.openBundleWrite 0 "store/p")).writers 0 = some ⟨srvBackend.resolve "store/p", []⟩ := by
      decide +kernel
    obtain rfl := Option.some.inj (hopen.symm.trans hw)
    decide
  have hidle : Idle (Runs.run (srvBackend.osStep .plain) (Disk.init srvTree) writtenBeside) := by
    intro k
    cases k with
    | zero => decide +kernel
    | succ k => rfl
  have hexact := fun p hp htaken => @conflicts_exact_iff srvBackend .plain _
    (fun q c _ => hnone q c) (fun q c _ => hnone q c) (fun q m s => hnone q _) _ hg hidle 1 p hp
    htaken
  constructor
  · rw [hexact "store/q" ⟨["srv", "data", "store", "q"], by decide, .store, by decide⟩
      fun _ => by decide +kernel]
    refine ⟨?_, by decide +kernel⟩
    rintro ⟨hdir, -⟩
    exact absurd hdir (by decide +kernel)
  · rw [hexact "store/p/q" ⟨["srv", "data", "store", "p", "q"], by decide, .store, by decide⟩
      fun _ => by decide +kernel]
    refine ⟨?_, by decide +kernel⟩
    rintro ⟨hdir, -⟩
    exact absurd hdir (by decide +kernel)

/-- The bundle `store/a/b` is written and deleted. -/
def writtenAndDeleted : List BackendOp :=
  [.openBundleWrite 0 "store/a/b", .writeFile 0 0 "f" [1], .commit 0 0 (smallMeta ["f"]),
    .deleteBundle 0 "store/a/b"]

/-- What is left is the directory `store/a`, and opening `store/a` is refused as a conflict
although no bundle is there. -/
theorem deleted_bundle_conflicts :
    ∃ d, d = Runs.run (srvBackend.osStep .plain) (Disk.init srvTree) writtenAndDeleted ∧
      Runs.Guarded (srvBackend.osStep .plain) srvBackend.OneByOne
        (Disk.init srvTree) writtenAndDeleted ∧
      (∀ l m serial, ¬ManifestAt d l m serial) ∧ ConflictAt srvBackend .plain 1 "store/a" d ∧
      ¬ConflictsExactly srvBackend .plain 1 "store/a" d := by
  refine ⟨_, rfl, ?_, ?_⟩
  · refine ⟨⟨⟨["srv", "data", "store", "a", "b"], by decide, .store, by decide⟩, fun _ => rfl⟩, ?_,
      trivial, ?_, trivial⟩
    · intro w hw
      have hopen :
        (srvBackend.osStep .plain (Disk.init srvTree) (.openBundleWrite 0 "store/a/b")).writers 0 =
          some ⟨srvBackend.resolve "store/a/b", []⟩ := by decide
      obtain rfl := Option.some.inj (hopen.symm.trans hw)
      decide
    · intro k
      cases k with
      | zero => decide
      | succ k => rfl
  · have hno : ∀ l m serial,
        ¬ManifestAt (Runs.run (srvBackend.osStep .plain) (Disk.init srvTree) writtenAndDeleted) l m
          serial := by
      intro l m serial hm
      have hmem := (Tree.get_eq_some_iff (by simp)).mp (Tree.fileAt_eq_some_iff.mp hm)
      have hdirs : ∀ e ∈ (Runs.run (srvBackend.osStep .plain) (Disk.init srvTree)
          writtenAndDeleted).tree.entries, e.2 = Node.dir := by decide
      exact absurd (hdirs _ hmem) (by simp)
    have hconf : ConflictAt srvBackend .plain 1 "store/a"
        (Runs.run (srvBackend.osStep .plain) (Disk.init srvTree) writtenAndDeleted) :=
      ⟨"store/a", .shadowChild, by decide⟩
    refine ⟨hno, hconf, fun h => ?_⟩
    obtain ⟨l, m, serial, hm, -⟩ := h.conflict.mp hconf
    exact hno l m serial hm

end Cassetta
