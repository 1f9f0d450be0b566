import Cassetta.Core.PathMap
import Cassetta.Guarantee.Cleanup
import Cassetta.Guarantee.Standing
import Cassetta.Storage.Visibility

/-!
# The disk as a map of bundles

What the backend is for: a map from locations to committed bundles, which a commit adds to and a
delete cuts from. In every run whose calls keep to themselves the disk is that map, replayed from
the commits and deletes alone: what is read at a path, the files of a bundle and the listing of a
prefix are what the map says, and opens, writes, aborts and passes of `gc.sweep` leave it alone.
-/

namespace Cassetta

open FileTree PathMap

/-! ## The map and its history -/

/-- What stands at a location: the commit whose manifest is in the directory. -/
def Disk.shelf (d : Disk) (loc : List String) : Option Commit :=
  match d.tree.fileAt (loc ++ [bundleManifest]) with
  | some (.manifest _ serial) => d.commits[serial]?
  | _ => none

/-- The change a call makes to the map: a commit that goes through, or a delete of a directory. -/
def BackendOp.edits (b : Backend) (d : Disk) : BackendOp → List (Edit String Commit)
  | .commit now h m =>
    match d.writers h with
    | some w =>
      if (Backend.commit now h m d).1 = .ok () then [.put w.loc ⟨w.loc, m, w.written⟩] else []
    | none => []
  | .deleteBundle _ path =>
    if d.tree.isDir (b.resolve path) then [.cut (b.location path)] else []
  | _ => []

/-- The changes of a run, in order. -/
def Backend.history (b : Backend) : Disk → List BackendOp → List (Edit String Commit)
  | _, [] => []
  | d, op :: rest => op.edits b d ++ b.history (b.step d op) rest

/-! ## The condition on each call -/

/-- Sweeps go over the namespaces of `gc`. -/
def BackendOp.OfGc : BackendOp → Prop
  | .sweepNamespace _ _ pre => pre ∈ gcNamespaces
  | _ => True

/-- A call that stays clear of open writers and of the insides of bundles. -/
def Backend.Orderly (b : Backend) (d : Disk) (op : BackendOp) : Prop :=
  b.CallClear d op ∧ b.NestClear d op ∧ op.OfGc

/-- No bundle and no open writer lies strictly above a location. -/
def Disk.Outer (d : Disk) (loc : List String) : Prop := ∀ l, Owner d l → ¬StrictlyInside l loc

/-- A file name that is read without steps up. -/
def PlainName (name : String) : Prop :=
  ∃ x, ∀ loc : List String, joinPath (spell loc) name = spell (loc ++ x)

private theorem plainName_of_manifest {names : List String} (h : validateManifest names = .ok ())
    {name : String} (hn : name ∈ names) : PlainName name := by
  obtain ⟨-, habs, -, -⟩ := validatePath_ok (validateManifest_ok h name hn).1
  obtain ⟨x, hx, -⟩ := exists_spell_of_manifest h hn []
  refine ⟨x, fun loc => ?_⟩
  rw [joinPath, habs, hx, spell_append]
  rfl

/-! ## The invariant -/

/-- What holds of a disk between orderly calls: no client's file stands where a manifest of a
bundle or an open writer goes, and every file has been written under a plain name. -/
structure Shelved (b : Backend) (d : Disk) : Prop where
  isolated : Isolated d
  prefixFree : PrefixFree b d
  named : WellNamed d
  unmasked : ∀ l, Owner d l → ∀ bytes, d.tree.fileAt (l ++ [bundleManifest]) ≠ some (.raw bytes)
  written : ∀ k w, d.writers k = some w → ∀ e ∈ w.written, PlainName e.1
  committed : ∀ c ∈ d.commits, ∀ e ∈ c.written, PlainName e.1

private theorem shelved_init {b : Backend} {t : DataTree} (ht : Named t)
    (hempty : ∀ q c, b.dataLoc <+: q → t.fileAt q ≠ some c)
    (hnew : ∀ q m s, t.fileAt q ≠ some (.manifest m s)) : Shelved b (Disk.init t) where
  isolated := isolated_init hnew
  prefixFree := prefixFree_init hempty hnew
  named := ⟨ht, by simp [Disk.init]⟩
  unmasked l hl bytes hf := by
    obtain ⟨hin, -⟩ := ((prefixFree_init hempty hnew).inside l hl).choose_spec
    exact hempty _ _ (((List.prefix_append _ _).trans hin).trans (List.prefix_append _ _)) hf
  written := by simp [Disk.init]
  committed := by simp [Disk.init]

variable {b : Backend} {d : Disk}

private theorem Backend.sweepNamespace_writers (now minAge : Nat) (pre : String) (d : Disk) :
    (b.sweepNamespace now minAge pre d).writers = d.writers := by
  unfold sweepNamespace
  generalize b.sweepTargets now minAge pre d = targets
  induction targets generalizing d with
  | nil => rfl
  | cons path rest ih => exact (ih _).trans (deleteBundle_rest now path d).1

/-- The writers after a call were there before, with the same directory and perhaps one more
file, or the call has opened them on a new directory. -/
theorem Backend.step_writers {op : BackendOp} {k : Nat} {w' : Writer}
    (h : (b.step d op).writers k = some w') :
    (∃ w, d.writers k = some w ∧ w'.bundleDir = w.bundleDir ∧ (w'.written = w.written ∨
        ∃ now name data, op = .writeFile now k name data ∧
          w'.written = w.written ++ [(name, data)])) ∨
      (∃ now path, op = .openBundleWrite now path) ∧ d.tree.get w'.loc = none ∧
        w'.written = [] := by
  have hsame : d.writers k = some w' → ∃ w, d.writers k = some w ∧ w'.bundleDir = w.bundleDir ∧
      (w'.written = w.written ∨ ∃ now name data, op = .writeFile now k name data ∧
        w'.written = w.written ++ [(name, data)]) := fun hw => ⟨w', hw, rfl, .inl rfl⟩
  cases op with
  | openBundleWrite now path =>
    rcases openBundleWrite_cases (b := b) now path d with
      ⟨e, t, heq, -⟩ | ⟨e, heq⟩ | ⟨t, t', -, hg, hmk, heq⟩
    · rw [step, heq] at h
      exact .inl (hsame h)
    · rw [step, heq] at h
      exact .inl (hsame h)
    · rw [step, heq] at h
      simp only [Function.update_apply] at h
      split at h
      · obtain rfl := Option.some.inj h
        right
        refine ⟨⟨now, path, rfl⟩, ?_, rfl⟩
        obtain ⟨-, hn, -, -⟩ := Tree.mkdir_ok hmk
        cases hd : d.tree.get (normalize (b.resolve path)) with
        | none => exact hd
        | some n =>
          rw [hg.get_some hd] at hn
          cases hn
      · exact .inl (hsame h)
  | writeFile now k' name data =>
    left
    rcases writeFile_cases now k' name data d with
      ⟨e, heq⟩ | ⟨w, hw, -, -, ⟨e, t, heq, -⟩ | ⟨t, t', -, -, heq⟩⟩
    · rw [step, heq] at h
      exact hsame h
    · rw [step, heq] at h
      exact hsame h
    · rw [step, heq] at h
      simp only [Function.update_apply] at h
      split at h
      · rename_i hk
        obtain rfl := Option.some.inj h
        exact ⟨w, hk ▸ hw, rfl, .inr ⟨now, name, data, by rw [hk], rfl⟩⟩
      · exact hsame h
  | commit now k' m =>
    left
    rcases commit_cases now k' m d with
      ⟨e, heq⟩ | ⟨w, -, -, ⟨e, t, heq, -⟩ | ⟨t, t', heq, -⟩⟩
    · rw [step, heq] at h
      exact hsame h
    · rw [step, heq] at h
      exact hsame h
    · rw [step, heq] at h
      simp only [Function.update_apply] at h
      split at h
      · cases h
      · exact hsame h
  | abort now k' =>
    left
    simp only [step, abort] at h
    split at h
    · exact hsame h
    · simp only [Function.update_apply] at h
      split at h
      · cases h
      · exact hsame h
  | deleteBundle now path =>
    rw [step, (deleteBundle_rest now path d).1] at h
    exact .inl (hsame h)
  | sweepNamespace now minAge pre =>
    rw [step, sweepNamespace_writers] at h
    exact .inl (hsame h)

/-- The owners after a call were there before, or the call has made a directory for them. -/
theorem Backend.step_owner {op : BackendOp} {l : List String} (h : Owner (b.step d op) l) :
    Owner d l ∨ (∃ now path, op = .openBundleWrite now path) ∧ d.tree.get l = none := by
  rcases h with ⟨k, w', hw', rfl⟩ | ⟨m, s, hm⟩
  · rcases step_writers hw' with ⟨w, hw, hdir, -⟩ | ⟨hopen, hnone, -⟩
    · exact .inl (.inl ⟨k, w, hw, by rw [Writer.loc, Writer.loc, hdir]⟩)
    · exact .inr ⟨hopen, hnone⟩
  · left
    rcases step_fileAt hm with hold | hput
    · exact .inr ⟨m, s, hold⟩
    · cases op with
      | commit now k m' =>
        simp only [BackendOp.puts] at hput
        split at hput
        · rename_i w hw
          split at hput
          · rw [List.mem_pair, Prod.mk.injEq, Prod.mk.injEq] at hput
            rcases hput with ⟨hl, -⟩ | ⟨hl, -⟩
            · exact .inl ⟨k, w, hw, (List.append_inj' hl rfl).1.symm⟩
            · exact absurd hl (append_tmp_ne_manifest _ _)
          · cases hput
        · cases hput
      | writeFile now k name data =>
        simp only [BackendOp.puts] at hput
        split at hput <;> simp at hput
      | _ => cases hput

/-- The commits after a call were made before, or the call has made one from a writer. -/
theorem Backend.mem_step_commits {op : BackendOp} {c : Commit}
    (h : c ∈ (b.step d op).commits) :
    c ∈ d.commits ∨ ∃ k w, d.writers k = some w ∧ c.written = w.written := by
  cases op with
  | openBundleWrite now path =>
    left
    rcases openBundleWrite_cases (b := b) now path d with
      ⟨e, t, heq, -⟩ | ⟨e, heq⟩ | ⟨t, t', -, -, -, heq⟩ <;> rwa [step, heq] at h
  | writeFile now k name data =>
    left
    rcases writeFile_cases now k name data d with
      ⟨e, heq⟩ | ⟨w, -, -, -, ⟨e, t, heq, -⟩ | ⟨t, t', -, -, heq⟩⟩ <;> rwa [step, heq] at h
  | commit now k m =>
    rcases commit_cases now k m d with
      ⟨e, heq⟩ | ⟨w, hw, -, ⟨e, t, heq, -⟩ | ⟨t, t', heq, -⟩⟩
    · rw [step, heq] at h
      exact .inl h
    · rw [step, heq] at h
      exact .inl h
    · rw [step, heq] at h
      rcases List.mem_append.mp h with hold | hnew
      · exact .inl hold
      · obtain rfl := List.mem_singleton.mp hnew
        exact .inr ⟨k, w, hw, rfl⟩
  | abort now k =>
    left
    simp only [step, abort] at h
    split at h <;> exact h
  | deleteBundle now path =>
    rw [step, (deleteBundle_rest now path d).2.2] at h
    exact .inl h
  | sweepNamespace now minAge pre =>
    rw [step, sweepNamespace_commits] at h
    exact .inl h

/-- Several deletes keep a disk well named. -/
theorem WellNamed.deletes (h : WellNamed d) (now : Nat) (paths : List String) :
    WellNamed (paths.foldl (fun d path => (b.deleteBundle now path d).2) d) := by
  induction paths generalizing d with
  | nil => exact h
  | cons path rest ih => exact ih (h.deleteBundle now path)

/-- Every operation keeps a disk well named. -/
theorem WellNamed.step (hroot : ∀ k ∈ b.root, FileName k) (h : WellNamed d) (op : BackendOp) :
    WellNamed (b.step d op) := by
  cases op with
  | openBundleWrite now path => exact h.openBundleWrite hroot now path
  | writeFile now k name data => exact h.writeFile now k name data
  | commit now k m => exact h.commit now k m
  | abort now k => exact h.abort now k
  | deleteBundle now path => exact h.deleteBundle now path
  | sweepNamespace now minAge pre => exact h.deletes now _

namespace Shelved

/-- A client's file lies where its writer's own manifest does not go, so it masks no other. -/
theorem unmasked_step (h : Shelved b d) {op : BackendOp} (hg : b.Orderly d op) {l : List String}
    (hl : Owner (b.step d op) l) (bytes : Bytes) :
    (b.step d op).tree.fileAt (l ++ [bundleManifest]) ≠ some (.raw bytes) := by
  intro hf
  have hold : d.tree.fileAt (l ++ [bundleManifest]) ≠ some (.raw bytes) := by
    intro hf
    rcases Backend.step_owner hl with hown | ⟨-, hnone⟩
    · exact h.unmasked l hown bytes hf
    · exact not_prefix_of_fresh hnone hf (List.prefix_append _ _)
  rcases Backend.step_fileAt hf with hf' | hput
  · exact hold hf'
  cases op with
  | writeFile now k name data =>
    rcases Backend.writeFile_cases now k name data d with
      ⟨e, heq⟩ | ⟨w, hw, hne, hdup, -⟩
    · rw [Backend.step, heq] at hf
      exact hold hf
    · simp only [BackendOp.puts, hw, List.mem_singleton, Prod.mk.injEq] at hput
      obtain ⟨hin, hmeta, -, -⟩ := hg.1 w hw hne hdup
      rw [← hput.1] at hin hmeta
      have hwl : w.loc <+: l := by
        rcases List.prefix_concat_iff.mp hin.1 with he | hp
        · exact absurd he.symm hin.2
        · exact hp
      have hown : Owner d l := (Backend.step_owner hl).resolve_right (by simp)
      by_cases he : l = w.loc
      · exact hmeta (by rw [he])
      · exact h.prefixFree.antichain w.loc l (.inl ⟨k, w, hw, rfl⟩) hown ⟨hwl, he⟩
  | commit now k m =>
    simp only [BackendOp.puts] at hput
    split at hput
    · split at hput <;> simp at hput
    · cases hput
  | _ => cases hput

/-- Names stay plain. -/
theorem written_step (h : Shelved b d) {op : BackendOp} (hg : b.Orderly d op) {k : Nat}
    {w' : Writer} (hw' : (b.step d op).writers k = some w') : ∀ e ∈ w'.written, PlainName e.1 := by
  rcases Backend.step_writers hw' with ⟨w, hw, -, hwr⟩ | ⟨-, -, hnil⟩
  · rcases hwr with hsame | ⟨now, name, data, rfl, hnew⟩
    · rw [hsame]
      exact h.written k w hw
    · rw [hnew]
      intro e he
      rcases List.mem_append.mp he with he | he
      · exact h.written k w hw e he
      · obtain rfl := List.mem_singleton.mp he
        obtain ⟨⟨names, hnames, hmem⟩, -⟩ := hg.2.1
        exact plainName_of_manifest hnames hmem
  · simp [hnil]

private theorem committed_step (h : Shelved b d) (op : BackendOp) :
    ∀ c ∈ (b.step d op).commits, ∀ e ∈ c.written, PlainName e.1 := by
  intro c hc
  rcases Backend.mem_step_commits hc with hold | ⟨k, w, hw, hwr⟩
  · exact h.committed c hold
  · rw [hwr]
    exact h.written k w hw

/-- An orderly operation keeps a disk shelved. -/
theorem step {op : BackendOp} (hroot : ∀ k ∈ b.root, FileName k) (h : Shelved b d)
    (hg : b.Orderly d op) : Shelved b (b.step d op) where
  isolated := Isolated.step d op h.isolated hg.1
  prefixFree := PrefixFree.step d op h.prefixFree hg.2.1
  named := WellNamed.step hroot h.named op
  unmasked _ hl bytes := h.unmasked_step hg hl bytes
  written _ _ hw := h.written_step hg hw
  committed := h.committed_step op

end Shelved

/-! ## Each call edits the map -/

private theorem Disk.shelf_eq_some_iff {l : List String} {c : Commit} :
    d.shelf l = some c ↔ ∃ m s, ManifestAt d l m s ∧ d.commits[s]? = some c := by
  unfold shelf ManifestAt
  split
  · rename_i m s hf
    constructor
    · exact fun hc => ⟨m, s, hf, hc⟩
    · rintro ⟨m', s', hf', hc⟩
      rw [hf] at hf'
      obtain ⟨-, rfl⟩ := Blob.manifest.inj (Option.some.inj hf')
      exact hc
  · rename_i hno
    simp only [reduceCtorEq, false_iff]
    rintro ⟨m, s, hf, -⟩
    exact hno m s hf

/-- A manifest that has stood until now is numbered as it was. -/
theorem Isolated.getElem?_commits {d' : Disk} (h : Isolated d) (hc : d.commits <+: d'.commits)
    {l : List String} {m : BundleMeta} {s : Nat} (hm : ManifestAt d l m s) :
    d'.commits[s]? = d.commits[s]? := by
  obtain ⟨c, hcs, -⟩ := h.complete l m s hm
  rw [hcs, getElem?_of_extends hc hcs]

/-- Disks with the same manifests are the same map. -/
theorem Isolated.shelf_congr {d' : Disk} (h : Isolated d) (hc : d.commits <+: d'.commits)
    {l : List String} (hm : ∀ m s, ManifestAt d' l m s ↔ ManifestAt d l m s) :
    d'.shelf l = d.shelf l := by
  ext c
  rw [Disk.shelf_eq_some_iff, Disk.shelf_eq_some_iff]
  constructor
  · rintro ⟨m, s, hman, hcs⟩
    rw [hm] at hman
    exact ⟨m, s, hman, (h.getElem?_commits hc hman) ▸ hcs⟩
  · rintro ⟨m, s, hman, hcs⟩
    exact ⟨m, s, (hm m s).mpr hman, (h.getElem?_commits hc hman).trans hcs⟩

namespace Shelved

/-- A committed bundle is none of an open writer's business. -/
theorem not_manifest_of_writer (h : Shelved b d) {k : Nat} {w : Writer}
    (hw : d.writers k = some w) {l : List String} (hl : w.loc <+: l ++ [bundleManifest])
    (m : BundleMeta) (s : Nat) : ¬ManifestAt d l m s := fun hm =>
  (h.isolated.clear k w hw l m s hm).1 hl

private theorem shelf_writeFile (h : Shelved b d) {now k : Nat} {name : String} {data : Bytes}
    (hg : b.CallClear d (.writeFile now k name data)) :
    (Backend.writeFile now k name data d).2.shelf = d.shelf := by
  rcases Backend.writeFile_cases now k name data d with
    ⟨e, heq⟩ | ⟨w, hw, hne, hdup, ⟨e, t, heq, hgrown⟩ | ⟨t, t', hgrown, hwr, heq⟩⟩
  · rw [heq]
  · rw [heq]
    ext l : 1
    refine h.isolated.shelf_congr ?_ fun m s => ?_
    · exact List.prefix_refl _
    rw [ManifestAt, ManifestAt, Disk.setTree_tree, hgrown.fileAt_eq]
  · rw [heq]
    ext l : 1
    refine h.isolated.shelf_congr ?_ fun m s => ?_
    · exact List.prefix_refl _
    have hfiles : t'.fileAt = Function.update d.tree.fileAt (fileLoc w.loc name)
        (some (.raw data)) := by
      rw [Tree.fileAt_write hwr, hgrown.fileAt_eq, Writer.normalize_target]
    simp only [ManifestAt, Disk.setTree_tree, hfiles]
    by_cases hq : l ++ [bundleManifest] = fileLoc w.loc name
    · have hin := (hg w hw hne hdup).1.1
      rw [← hq] at hin
      simp only [hq, Function.update_self, Option.some.injEq, reduceCtorEq, false_iff]
      rw [← hq]
      exact h.not_manifest_of_writer hw hin m s
    · rw [Function.update_of_ne hq]

private theorem shelf_commit (h : Shelved b d) (now k : Nat) (m : BundleMeta) :
    (Backend.commit now k m d).2.shelf =
      replay d.shelf (BackendOp.edits b d (.commit now k m)) := by
  rcases Backend.commit_cases now k m d with
    ⟨e, heq⟩ | ⟨w, hw, hcheck, ⟨e, t, heq, hfiles⟩ | ⟨t, t', heq, hfiles⟩⟩
  · have hnil : BackendOp.edits b d (.commit now k m) = [] := by
      simp only [BackendOp.edits]
      split
      · simp [heq]
      · rfl
    rw [hnil, heq, replay_nil]
  · have hnil : BackendOp.edits b d (.commit now k m) = [] := by
      simp [BackendOp.edits, hw, heq]
    rw [hnil, heq, replay_nil]
    ext l : 1
    refine h.isolated.shelf_congr ?_ fun m' s => ?_
    · exact List.prefix_refl _
    simp only [ManifestAt, Disk.setTree_tree, hfiles]
    rw [Function.update_of_ne (append_tmp_ne_manifest _ _)]
  · have hone : BackendOp.edits b d (.commit now k m) = [.put w.loc ⟨w.loc, m, w.written⟩] := by
      simp [BackendOp.edits, hw, heq]
    rw [hone, heq]
    ext l : 1
    show _ = Function.update d.shelf w.loc (some ⟨w.loc, m, w.written⟩) l
    by_cases hl : l = w.loc
    · subst hl
      rw [Function.update_self, Disk.shelf]
      simp [hfiles]
    · rw [Function.update_of_ne hl]
      refine h.isolated.shelf_congr ?_ fun m' s => ?_
      · exact List.prefix_append _ _
      simp only [ManifestAt, Disk.setTree_tree, hfiles]
      rw [Function.update_of_ne (by simpa using hl),
        Function.update_of_ne (append_tmp_ne_manifest _ _)]

private theorem shelf_abort (h : Shelved b d) (now k : Nat) :
    (Backend.abort now k d).shelf = d.shelf := by
  ext l : 1
  have hc : d.commits <+: (Backend.abort now k d).commits := b.step_commits d (.abort now k)
  refine h.isolated.shelf_congr hc fun m s => ⟨fun hm => ?_, fun hm => ?_⟩
  · cases hw : d.writers k with
    | none =>
      have hsame : Backend.abort now k d = d := by simp [Backend.abort, hw]
      rwa [hsame] at hm
    | some w =>
      rw [ManifestAt, abort_fileAt hw] at hm
      split at hm
      · cases hm
      · exact hm
  · exact (h.isolated.abort_keeps now k l m s hm).1

end Shelved

/-- A manifest goes with a directory at or above its own. -/
theorem Backend.manifestAt_deleteBundle (now : Nat) (path : String) {l : List String}
    {m : BundleMeta} {s : Nat} :
    ManifestAt (b.deleteBundle now path d).2 l m s ↔
      ManifestAt d l m s ∧ ¬(d.tree.isDir (b.resolve path) = true ∧ b.location path <+: l) := by
  rw [ManifestAt, deleteBundle_fileAt]
  by_cases hd : d.tree.isDir (b.resolve path) = true
  · have hdir : d.tree.get (b.location path) = some .dir := (Tree.isDir_iff.mp hd).2
    by_cases hp : b.location path <+: l
    · simp [hd, hp, hp.trans (List.prefix_append l [bundleManifest])]
    · simp only [hd, hp, true_and, and_false, not_false_eq_true, and_true]
      split
      · rename_i hq
        rcases List.prefix_concat_iff.mp hq with he | hq
        · simp only [reduceCtorEq, false_iff]
          intro hm
          have hfile := Tree.fileAt_eq_some_iff.mp hm
          rw [← he, hdir] at hfile
          cases hfile
        · exact absurd hq hp
      · rfl
  · simp [hd, ManifestAt]

namespace Shelved

private theorem shelf_deleteBundle (h : Shelved b d) (now : Nat) (path : String) :
    (b.deleteBundle now path d).2.shelf =
      replay d.shelf (BackendOp.edits b d (.deleteBundle now path)) := by
  have hc : (b.deleteBundle now path d).2.commits = d.commits :=
    (Backend.deleteBundle_rest _ _ _).2.2
  ext l : 1
  by_cases hd : d.tree.isDir (b.resolve path) = true
  · have hone : BackendOp.edits b d (.deleteBundle now path) = [.cut (b.location path)] := by
      simp [BackendOp.edits, hd]
    rw [hone]
    show _ = if b.location path <+: l then none else d.shelf l
    split
    · rename_i hp
      rw [Option.eq_none_iff_forall_ne_some]
      intro c hs
      obtain ⟨m, s, hm, -⟩ := Disk.shelf_eq_some_iff.mp hs
      exact (Backend.manifestAt_deleteBundle now path |>.mp hm).2 ⟨hd, hp⟩
    · rename_i hp
      refine h.isolated.shelf_congr (hc ▸ List.prefix_refl _) fun m s => ?_
      rw [Backend.manifestAt_deleteBundle, and_iff_left]
      exact fun hq => hp hq.2
  · have hnil : BackendOp.edits b d (.deleteBundle now path) = [] := by
      simp [BackendOp.edits, hd]
    rw [hnil, replay_nil]
    refine h.isolated.shelf_congr (hc ▸ List.prefix_refl _) fun m s => ?_
    rw [Backend.manifestAt_deleteBundle, and_iff_left]
    exact fun hq => hd hq.1

/-- What a sweep removes has files of an owner in it, and so no bundle at or below it. -/
theorem not_manifest_of_swept (h : Shelved b d) {now minAge : Nat} {pre : String}
    (hpre : pre ∈ gcNamespaces) {path : String} (hp : path ∈ b.sweepTargets now minAge pre d)
    {l : List String} (hl : b.location path <+: l) (m : BundleMeta) (s : Nat) :
    ¬ManifestAt d l m s := by
  intro hm
  obtain ⟨base, hres, hdata⟩ : ∃ base, b.resolve pre = spell base ∧ b.dataLoc <+: base := by
    obtain ⟨hinbox, hstore⟩ := b.resolve_namespace
    simp only [gcNamespaces, List.mem_cons, List.not_mem_nil, or_false] at hpre
    rcases hpre with rfl | rfl
    · exact ⟨_, hinbox, List.prefix_append _ _⟩
    · exact ⟨_, hstore, List.prefix_append _ _⟩
  obtain ⟨refs, hrefs⟩ := Backend.listBundles_ok (Backend.dataRoot_prefix hres hdata) d true
  obtain ⟨r, hr, rfl, hmeta, -⟩ := (Backend.mem_sweepTargets hrefs).mp hp
  obtain ⟨-, hin, -, -, hs⟩ := Backend.spelled_of_listed h.named.tree hres hrefs hr
  rcases hs with ⟨-, hyes⟩ | ⟨hno, hfiles, -, -⟩
  · rw [hmeta] at hyes
    cases hyes
  obtain ⟨k, hk⟩ := List.exists_mem_of_ne_nil _ hfiles
  obtain ⟨c, hc⟩ := Backend.mem_fileNames.mp hk
  have hbelow : b.dataLoc <+: b.location r.path := hdata.trans hin.1
  obtain ⟨o, ho, hoin⟩ := h.prefixFree.owned _ c (hbelow.trans (List.prefix_append _ _)) hc
  have hol : o <+: b.location r.path := by
    rcases List.prefix_concat_iff.mp hoin.1 with he | hq
    · exact absurd he.symm hoin.2
    · exact hq
  have heq : l = o := by
    by_contra hne
    exact h.prefixFree.antichain o l ho (.inr ⟨m, s, hm⟩) ⟨hol.trans hl, hne⟩
  subst heq
  have hsame : b.location r.path = l := hl.eq_of_length (le_antisymm hl.length_le hol.length_le)
  exact hno (Backend.mem_fileNames.mpr ⟨_, hsame ▸ hm⟩)

/-- Deletes that reach no bundle leave every manifest. -/
theorem manifestAt_deletes {now : Nat} {paths : List String} {d : Disk}
    (h : ∀ path ∈ paths, ∀ l m s, b.location path <+: l → ¬ManifestAt d l m s) (l : List String)
    (m : BundleMeta) (s : Nat) :
    ManifestAt (paths.foldl (fun d path => (b.deleteBundle now path d).2) d) l m s ↔
      ManifestAt d l m s := by
  induction paths generalizing d with
  | nil => rfl
  | cons path rest ih =>
    rw [List.forall_mem_cons] at h
    have hone : ∀ l m s, ManifestAt (b.deleteBundle now path d).2 l m s ↔ ManifestAt d l m s := by
      intro l m s
      rw [Backend.manifestAt_deleteBundle, and_iff_left_iff_imp]
      exact fun hm hq => h.1 l m s hq.2 hm
    rw [List.foldl_cons, ih fun p hp l m s hl hm => h.2 p hp l m s hl ((hone l m s).mp hm), hone]

private theorem shelf_sweepNamespace (h : Shelved b d) (now minAge : Nat) {pre : String}
    (hpre : pre ∈ gcNamespaces) : (b.sweepNamespace now minAge pre d).shelf = d.shelf := by
  ext l : 1
  refine h.isolated.shelf_congr ?_ fun m s => ?_
  · rw [Backend.sweepNamespace_commits]
  · exact manifestAt_deletes (fun path hp l m s hl => h.not_manifest_of_swept hpre hp hl m s) l m s

private theorem shelf_openBundleWrite (h : Shelved b d) (now : Nat) (path : String) :
    (b.openBundleWrite now path d).2.shelf = d.shelf := by
  rcases Backend.openBundleWrite_cases (b := b) now path d with
    ⟨e, t, heq, hg⟩ | ⟨e, heq⟩ | ⟨t, t', -, hg, hmk, heq⟩
  · rw [heq]
    ext l : 1
    refine h.isolated.shelf_congr ?_ fun m s => ?_
    · exact List.prefix_refl _
    · rw [ManifestAt, ManifestAt, Disk.setTree_tree, hg.fileAt_eq]
  · rw [heq]
  · rw [heq]
    ext l : 1
    refine h.isolated.shelf_congr ?_ fun m s => ?_
    · exact List.prefix_refl _
    · simp only [ManifestAt, Disk.setTree_tree, (Tree.grown_of_mkdir hmk).fileAt_eq, hg.fileAt_eq]

/-- A call changes the map by its edits. -/
theorem shelf_step (h : Shelved b d) {op : BackendOp} (hg : b.Orderly d op) :
    (b.step d op).shelf = replay d.shelf (op.edits b d) := by
  cases op with
  | openBundleWrite now path => exact h.shelf_openBundleWrite now path
  | writeFile now k name data => exact h.shelf_writeFile hg.1
  | commit now k m => exact h.shelf_commit now k m
  | abort now k => exact h.shelf_abort now k
  | deleteBundle now path => exact h.shelf_deleteBundle now path
  | sweepNamespace now minAge pre => exact h.shelf_sweepNamespace now minAge hg.2.2

/-- A run changes the map by its history. -/
theorem shelf_run (hroot : ∀ k ∈ b.root, FileName k) (h : Shelved b d) {ops : List BackendOp}
    (hg : Runs.Guarded b.step b.Orderly d ops) :
    Shelved b (Runs.run b.step d ops) ∧
      (Runs.run b.step d ops).shelf = replay d.shelf (b.history d ops) := by
  induction ops generalizing d with
  | nil => exact ⟨h, rfl⟩
  | cons op rest ih =>
    obtain ⟨hs, heq⟩ := ih (h.step hroot hg.1) hg.2
    refine ⟨hs, ?_⟩
    rw [Runs.run_cons, heq, h.shelf_step hg.1, Backend.history, replay_append]

/-! ## What is seen of the map -/

/-- Above a file without an owner's directory in between stands the owner itself. -/
theorem owner_of_outer (h : Shelved b d) {loc : List String} (hdata : b.dataLoc <+: loc)
    (hout : d.Outer loc) {k : String} {c : Blob} (hc : d.tree.fileAt (loc ++ [k]) = some c) :
    Owner d loc := by
  obtain ⟨o, ho, hin⟩ := h.prefixFree.owned _ c (hdata.trans (List.prefix_append _ _)) hc
  have hol : o <+: loc := by
    rcases List.prefix_concat_iff.mp hin.1 with he | hq
    · exact absurd he.symm hin.2
    · exact hq
  by_cases he : loc = o
  · exact he ▸ ho
  · exact absurd ⟨hol, he⟩ (hout o ho)

/-- At such a location a file `meta.json` is a manifest. -/
theorem manifest_of_outer (h : Shelved b d) {loc : List String} (hdata : b.dataLoc <+: loc)
    (hout : d.Outer loc) {c : Blob} (hc : d.tree.fileAt (loc ++ [bundleManifest]) = some c) :
    ∃ m s, c = .manifest m s ∧ ManifestAt d loc m s := by
  cases c with
  | raw bytes => exact absurd hc (h.unmasked loc (h.owner_of_outer hdata hout hc) bytes)
  | manifest m s => exact ⟨m, s, rfl, hc⟩

/-- A manifest that stands is that of the commit on the map. -/
theorem shelf_of_manifest (h : Shelved b d) {loc : List String} {m : BundleMeta} {s : Nat}
    (hm : ManifestAt d loc m s) : ∃ c, d.shelf loc = some c ∧ c.manifest = m := by
  obtain ⟨c, hc, -, hman, -⟩ := h.isolated.complete loc m s hm
  exact ⟨c, Disk.shelf_eq_some_iff.mpr ⟨m, s, hm, hc⟩, hman⟩

/-- A manifest is read from the shelf. -/
theorem readBundleMeta_eq (h : Shelved b d) {path : String} {loc : List String}
    (hres : b.resolve path = spell loc) (hdata : b.dataLoc <+: loc) (hout : d.Outer loc) :
    b.readBundleMeta d.tree path = (d.shelf loc).map (·.manifest) := by
  rw [Backend.readBundleMeta_eq hres, Backend.metaAt]
  cases hc : d.tree.fileAt (loc ++ [bundleManifest]) with
  | none => simp [Disk.shelf, hc]
  | some blob =>
    obtain ⟨m, s, rfl, hm⟩ := h.manifest_of_outer hdata hout hc
    obtain ⟨c, hs, hman⟩ := h.shelf_of_manifest hm
    rw [hs, Option.map_some, hman]
    rfl

private theorem openBundleFileRead_eq (h : Shelved b d) {path : String} {loc : List String}
    {c : Commit}
    (hres : b.resolve path = spell loc) (hs : d.shelf loc = some c) {f : FileRecord}
    (hf : f ∈ c.manifest.files) :
    ∃ data, (f.name, data) ∈ c.written ∧ b.openBundleFileRead d.tree path f.name = some data := by
  obtain ⟨m, s, hm, hc⟩ := Disk.shelf_eq_some_iff.mp hs
  obtain ⟨c', hc', -, rfl, hall⟩ := h.isolated.complete loc m s hm
  obtain rfl : c' = c := Option.some.inj (hc'.symm.trans hc)
  obtain ⟨data, hmem, -, hfile⟩ := hall f hf
  refine ⟨data, hmem, ?_⟩
  obtain ⟨x, hx⟩ := h.committed c' (List.mem_of_getElem? hc) _ hmem
  have hloc : fileLoc loc f.name = loc ++ x := by
    have hn := normalize_joinPath (spell loc) f.name
    rw [hx, normalize_spell, normalize_spell] at hn
    exact hn.symm
  have hmeta : d.tree.isFile (Backend.metaPath (b.resolve path)) = true := by
    have hp : Backend.metaPath (spell loc) = spell (loc ++ [bundleManifest]) := by
      simp [Backend.metaPath, spell]
    rw [Tree.isFile, hres, hp, Tree.readFile_spell, hm]
    rfl
  rw [Backend.openBundleFileRead, if_pos hmeta, hres, hx, Tree.readFile_spell, ← hloc, hfile]
  rfl

/-- What is listed with a manifest is on the map, and what is on the map is listed. -/
theorem listBundles_eq (h : Shelved b d) (hroot : ∀ k ∈ b.root, FileName k) {pre : String}
    {base : List String} (hres : b.resolve pre = spell base) (hdata : b.dataLoc <+: base) :
    ∃ refs, b.listBundles d pre false = .ok refs ∧ (refs.map (·.path)).Pairwise (· < ·) ∧
      (∀ loc, StrictlyInside base loc → (d.shelf loc).isSome →
        b.relPosix (spell loc) ∈ refs.map (·.path)) ∧
      ∀ r ∈ refs, ∃ loc, StrictlyInside base loc ∧ b.resolve r.path = spell loc ∧
        (d.Outer loc → (d.shelf loc).isSome) := by
  obtain ⟨refs, hrefs⟩ := Backend.listBundles_ok (Backend.dataRoot_prefix hres hdata) d false
  refine ⟨refs, hrefs, ?_, fun loc hin hsome => ?_, fun r hr => ?_⟩
  · obtain ⟨x, rfl⟩ := hdata
    have hproper : Proper (spell x) := (Backend.proper_resolve hroot pre).of_sublist fun s hs => by
      rw [hres, spell_append]
      exact List.mem_append_right _ hs
    exact Backend.sorted_listBundles h.named.tree hproper (by rw [hres, spell_append]; rfl) hrefs
  · obtain ⟨c, hc⟩ := Option.isSome_iff_exists.mp hsome
    obtain ⟨m, s, hm, -⟩ := Disk.shelf_eq_some_iff.mp hc
    obtain ⟨refs', hrefs', hmem⟩ := h.prefixFree.mem_listBundles hm hres hdata hin false
    obtain rfl := Except.ok.inj (hrefs.symm.trans hrefs')
    exact List.mem_map_of_mem hmem
  · obtain ⟨hloc, hin, -, -, hs⟩ := Backend.spelled_of_listed h.named.tree hres hrefs hr
    refine ⟨_, hin, hloc, fun hout => ?_⟩
    rcases hs with ⟨hmeta, -⟩ | ⟨-, -, horphan, -⟩
    · obtain ⟨blob, hblob⟩ := Backend.mem_fileNames.mp hmeta
      obtain ⟨m, s, -, hm⟩ := h.manifest_of_outer (hdata.trans hin.1) hout hblob
      obtain ⟨c, hc, -⟩ := h.shelf_of_manifest hm
      exact Option.isSome_iff_exists.mpr ⟨c, hc⟩
    · cases horphan

end Shelved

/-! ## Runs -/

/-- What a disk shows of its bundles is what a map holds: the manifest at a path, the content of
every file of a bundle, and the listing of a prefix, which is sorted. A location inside another
bundle or an open writer's directory is left open. -/
structure Shows (b : Backend) (d : Disk) (s : List String → Option Commit) : Prop where
  read : ∀ path loc, b.resolve path = spell loc → b.dataLoc <+: loc → d.Outer loc →
    b.readBundleMeta d.tree path = (s loc).map (·.manifest)
  file : ∀ path loc c, b.resolve path = spell loc → s loc = some c → ∀ f ∈ c.manifest.files,
    ∃ data, (f.name, data) ∈ c.written ∧ b.openBundleFileRead d.tree path f.name = some data
  listed : ∀ pre base, b.resolve pre = spell base → b.dataLoc <+: base →
    ∃ refs, b.listBundles d pre false = .ok refs ∧ (refs.map (·.path)).Pairwise (· < ·) ∧
      (∀ loc, StrictlyInside base loc → (s loc).isSome →
        b.relPosix (spell loc) ∈ refs.map (·.path)) ∧
      ∀ r ∈ refs, ∃ loc, StrictlyInside base loc ∧ b.resolve r.path = spell loc ∧
        (d.Outer loc → (s loc).isSome)

/-- A shelved disk shows its shelf. -/
theorem Shelved.shows (h : Shelved b d) (hroot : ∀ k ∈ b.root, FileName k) :
    Shows b d d.shelf where
  read _ _ hres hdata hout := h.readBundleMeta_eq hres hdata hout
  file _ _ _ hres hs _ hf := h.openBundleFileRead_eq hres hs hf
  listed _ _ hres hdata := h.listBundles_eq hroot hres hdata

private theorem shelf_init {t : DataTree} (hnew : ∀ q m s, t.fileAt q ≠ some (.manifest m s)) :
    (Disk.init t).shelf = fun _ => none := by
  ext l : 1
  rw [Option.eq_none_iff_forall_ne_some]
  intro c hc
  obtain ⟨m, s, hm, -⟩ := Disk.shelf_eq_some_iff.mp hc
  exact hnew _ m s hm

/-- One writer alone. -/
def oneWrite : List BackendOp :=
  [.openBundleWrite 0 "store/p", .writeFile 0 0 "a" [1], .commit 0 0 (smallMeta ["a"])]

private theorem oneWrite_orderly :
    Runs.Guarded srvBackend.step srvBackend.Orderly (Disk.init srvTree) oneWrite := by
  have hopen : (srvBackend.step (Disk.init srvTree) (.openBundleWrite 0 "store/p")).writers 0 =
      some ⟨srvBackend.resolve "store/p", []⟩ := by decide
  refine ⟨⟨?_, ⟨⟨["srv", "data", "store", "p"], by decide, .store, by decide⟩, ?_⟩, trivial⟩,
    ⟨?_, ⟨⟨["a"], by decide, by decide⟩, ?_⟩, trivial⟩, ⟨trivial, trivial, trivial⟩, trivial⟩
  · intro _ h w hw
    simp [Disk.init] at hw
  · intro _ h w hw
    simp [Disk.init] at hw
  · intro w hw _ _
    obtain rfl := Option.some.inj (hopen.symm.trans hw)
    decide
  · intro w hw
    left
    decide

private theorem oneWrite_history : srvBackend.history (Disk.init srvTree) oneWrite =
    [.put ["srv", "data", "store", "p"]
      ⟨["srv", "data", "store", "p"], smallMeta ["a"], [("a", [1])]⟩] := by decide

/-- In every run of orderly calls from a disk without bundles, what the disk shows is the map that
its commits and deletes alone lead to. -/
theorem run_shows (b : Backend) (hroot : ∀ k ∈ b.root, FileName k) {t : DataTree} (ht : Named t)
    (hempty : ∀ q c, b.dataLoc <+: q → t.fileAt q ≠ some c)
    (hnew : ∀ q m s, t.fileAt q ≠ some (.manifest m s)) (ops : List BackendOp)
    (hg : Runs.Guarded b.step b.Orderly (Disk.init t) ops) :
    Shows b (Runs.run b.step (Disk.init t) ops)
      (replay (fun _ => none) (b.history (Disk.init t) ops)) := by
  obtain ⟨h, heq⟩ := (shelved_init ht hempty hnew).shelf_run hroot hg
  rw [← shelf_init hnew, ← heq]
  exact h.shows hroot

/-- The map has its commit, and the disk shows it. -/
theorem run_shows_single :
    Shows srvBackend (Runs.run srvBackend.step (Disk.init srvTree) oneWrite)
      (replay (fun _ => none) [.put ["srv", "data", "store", "p"]
        ⟨["srv", "data", "store", "p"], smallMeta ["a"], [("a", [1])]⟩]) := by
  have hshows := run_shows srvBackend (by decide) named_srvTree (by simp [srvTree_fileAt])
    (by simp [srvTree_fileAt]) _ oneWrite_orderly
  rwa [oneWrite_history] at hshows

/-- In every such run a manifest is read at a location exactly when the last commit or delete that
touches the location is the commit of that manifest there. -/
theorem run_reads_last (b : Backend) (hroot : ∀ k ∈ b.root, FileName k) {t : DataTree}
    (ht : Named t) (hempty : ∀ q c, b.dataLoc <+: q → t.fileAt q ≠ some c)
    (hnew : ∀ q m s, t.fileAt q ≠ some (.manifest m s)) (ops : List BackendOp)
    (hg : Runs.Guarded b.step b.Orderly (Disk.init t) ops) {path : String} {loc : List String}
    (hres : b.resolve path = spell loc) (hdata : b.dataLoc <+: loc)
    (hout : (Runs.run b.step (Disk.init t) ops).Outer loc) (m : BundleMeta) :
    b.readBundleMeta (Runs.run b.step (Disk.init t) ops).tree path = some m ↔
      ∃ before after c, b.history (Disk.init t) ops = before ++ .put loc c :: after ∧
        c.manifest = m ∧ ∀ e ∈ after, ¬e.Touches loc := by
  obtain ⟨h, heq⟩ := (shelved_init ht hempty hnew).shelf_run hroot hg
  rw [h.readBundleMeta_eq hres hdata hout, heq, shelf_init hnew, Option.map_eq_some_iff]
  constructor
  · rintro ⟨c, hc, hman⟩
    obtain ⟨before, after, hsplit, hafter⟩ := replay_eq_some_iff.mp hc
    exact ⟨before, after, c, hsplit, hman, hafter⟩
  · rintro ⟨before, after, c, hsplit, hman, hafter⟩
    exact ⟨c, replay_eq_some_iff.mpr ⟨before, after, hsplit, hafter⟩, hman⟩

/-- One writer alone: its manifest is read, since nothing came after its commit. -/
theorem run_reads_last_single :
    srvBackend.readBundleMeta (Runs.run srvBackend.step (Disk.init srvTree) oneWrite).tree
      "store/p" = some (smallMeta ["a"]) := by
  have hnew : ∀ q m s, srvTree.fileAt q ≠ some (.manifest m s) := by simp [srvTree_fileAt]
  have hout : (Runs.run srvBackend.step (Disk.init srvTree) oneWrite).Outer
      ["srv", "data", "store", "p"] := by
    obtain ⟨h, -⟩ := (shelved_init named_srvTree (by simp [srvTree_fileAt]) hnew).shelf_run
      (b := srvBackend) (by decide) oneWrite_orderly
    refine fun l hl => h.prefixFree.antichain l _ hl (.inr ⟨smallMeta ["a"], 0, ?_⟩)
    unfold ManifestAt
    decide
  exact (run_reads_last srvBackend (by decide) named_srvTree (by simp [srvTree_fileAt]) hnew _
    oneWrite_orderly (by decide) (by decide) hout _).mpr ⟨[], [], _, oneWrite_history, rfl, by simp⟩

end Cassetta
