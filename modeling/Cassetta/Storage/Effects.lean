import Cassetta.Storage.Backend

/-!
# What each backend call does

One lemma a call. Each says everything that can come out of the call, so that the invariants
of later modules never look inside the definitions.
-/

namespace Cassetta

open FileTree

namespace Backend

variable {b : Backend}

/-! ## Opening -/

/-- `open_bundle_write` either adds directories on the way to its target and reports an
error, or it makes the bundle directory, which was not there, and hands out a new writer. -/
theorem openBundleWrite_cases (now : Nat) (path : String) (d : Disk) :
    (∃ e t, b.openBundleWrite now path d = (.error e, d.setTree now t) ∧
        Tree.Grown (b.resolve path) d.tree t) ∨
      (∃ e, b.openBundleWrite now path d = (.error e, d)) ∨
      ∃ t t', b.checkBundlePathCollision d.tree (b.resolve path) = none ∧
        Tree.Grown (b.resolve path) d.tree t ∧ t.mkdir (b.resolve path) = .ok t' ∧
        b.openBundleWrite now path d = (.ok d.nextWriter,
          { d.setTree now t' with
            writers := Function.update d.writers d.nextWriter (some ⟨b.resolve path, []⟩)
            nextWriter := d.nextWriter + 1 }) := by
  have hpre : (b.resolve path).dropLast <+: b.resolve path := List.dropLast_prefix _
  have hgrown := (Tree.grown_mkdirParents d.tree (b.resolve path).dropLast).mono hpre
  cases hc : b.checkBundlePathCollision d.tree (b.resolve path) with
  | some err => exact .inr (.inl ⟨err, by simp [openBundleWrite, hc]⟩)
  | none =>
    rcases hp : d.tree.mkdirParents (b.resolve path).dropLast with ⟨r, t⟩
    rw [hp] at hgrown
    cases r with
    | error e => exact .inl ⟨.ofErrno e, t, by simp [openBundleWrite, hc, hp], hgrown⟩
    | ok u =>
      cases hm : t.mkdir (b.resolve path) with
      | ok t' => exact .inr (.inr ⟨t, t', rfl, hgrown, hm, by simp [openBundleWrite, hc, hp, hm]⟩)
      | error e =>
        left
        cases e with
        | exist =>
          refine ⟨.bundlePathConflict path (collisionKind t (b.resolve path)), t, ?_, hgrown⟩
          simp [openBundleWrite, hc, hp, hm]
        | noEntry => exact ⟨.ofErrno .noEntry, t, by simp [openBundleWrite, hc, hp, hm], hgrown⟩
        | notDir => exact ⟨.ofErrno .notDir, t, by simp [openBundleWrite, hc, hp, hm], hgrown⟩
        | isDir => exact ⟨.ofErrno .isDir, t, by simp [openBundleWrite, hc, hp, hm], hgrown⟩

/-! ## Writing -/

/-- `write_file` into a tree adds directories on the way to the target, and on success sets
one file there. -/
theorem writeTarget_cases (t : DataTree) (target : List (Step String)) (data : Bytes) :
    (∃ e t', writeTarget t target data = (.error e, t') ∧ Tree.Grown target t t') ∨
      ∃ t' t'', writeTarget t target data = (.ok (), t'') ∧ Tree.Grown target t t' ∧
        t'.write target (.raw data) = .ok t'' := by
  have hgrown := (Tree.grown_mkdirParents t target.dropLast).mono (List.dropLast_prefix target)
  rcases hp : t.mkdirParents target.dropLast with ⟨r, t'⟩
  rw [hp] at hgrown
  cases r with
  | error e => exact .inl ⟨.ofErrno e, t', by simp [writeTarget, hp], hgrown⟩
  | ok u =>
    cases hw : t'.write target (.raw data) with
    | error e => exact .inl ⟨.ofErrno e, t', by simp [writeTarget, hp, hw], hgrown⟩
    | ok t'' => exact .inr ⟨t', t'', by simp [writeTarget, hp, hw], hgrown, hw⟩

/-- `write_file` leaves the disk alone, or adds directories, or also sets the one file and
notes it in the writer. -/
theorem writeFile_cases (now : Nat) (handle : Nat) (name : String) (data : Bytes) (d : Disk) :
    (∃ e, writeFile now handle name data d = (.error e, d)) ∨
      ∃ w, d.writers handle = some w ∧ name ≠ "" ∧ name ∉ w.written.map Prod.fst ∧
        ((∃ e t, writeFile now handle name data d = (.error e, d.setTree now t) ∧
            Tree.Grown (w.target name) d.tree t) ∨
          ∃ t t', Tree.Grown (w.target name) d.tree t ∧
            t.write (w.target name) (.raw data) = .ok t' ∧
            writeFile now handle name data d = (.ok data.length,
              { d.setTree now t' with
                writers := Function.update d.writers handle
                  (some { w with written := w.written ++ [(name, data)] }) })) := by
  cases hw : d.writers handle with
  | none => exact .inl ⟨.valueError "closed", by simp [writeFile, hw]⟩
  | some w =>
    by_cases hempty : name = ""
    · exact .inl ⟨.valueError "Bundle file name must not be empty", by simp [writeFile, hw, hempty]⟩
    by_cases hdup : name ∈ w.written.map Prod.fst
    · refine .inl ⟨.valueError ("Duplicate file name in bundle: " ++ name), ?_⟩
      simp only [writeFile, hw, if_neg hempty, if_pos hdup]
    refine .inr ⟨w, rfl, hempty, hdup, ?_⟩
    rcases writeTarget_cases d.tree (w.target name) data with
      ⟨e, t, ht, hg⟩ | ⟨t, t', ht, hg, hwr⟩
    · refine .inl ⟨e, t, ?_, hg⟩
      simp only [writeFile, hw, if_neg hempty, if_neg hdup, ht]
    · refine .inr ⟨t, t', hg, hwr, ?_⟩
      simp only [writeFile, hw, if_neg hempty, if_neg hdup, ht]

/-! ## Committing -/

/-- An accepted manifest lists exactly the written names, each with its length. -/
theorem commitCheck_ok {w : Writer} {m : BundleMeta} (h : commitCheck w m = .ok ()) :
    m.files ≠ [] ∧ m.names.Nodup ∧ (∀ n, n ∈ m.names ↔ n ∈ w.written.map Prod.fst) ∧
      ∀ f ∈ m.files, ∃ data, (f.name, data) ∈ w.written ∧ (data.length : Int) = f.size := by
  unfold commitCheck at h
  split at h
  · cases h
  rename_i hne
  split at h
  · cases h
  rename_i hnd
  split at h
  · cases h
  rename_i hset
  split at h
  · rename_i hall
    refine ⟨hne, not_not.mp hnd, fun n => ?_, fun f hf => ?_⟩
    · rw [← List.mem_toFinset, not_not.mp hset, List.mem_toFinset]
    · simp only [List.all_eq_true, List.any_eq_true, decide_eq_true_eq] at hall
      obtain ⟨⟨n, data⟩, hmem, rfl, hlen⟩ := hall f hf
      exact ⟨data, hmem, hlen⟩
  · cases h

/-- Where the manifest of a directory is. -/
theorem normalize_metaPath (dir : List (Step String)) :
    normalize (metaPath dir) = normalize dir ++ [bundleManifest] := by
  simp [metaPath, Step.apply]

/-- Where the temporary manifest of a directory is. -/
theorem normalize_tmpPath (dir : List (Step String)) :
    normalize (tmpPath dir) = normalize dir ++ [bundleManifestTmp] := by
  simp [tmpPath, Step.apply]

/-- The temporary manifest has another name. -/
theorem tmp_ne_manifest : bundleManifestTmp ≠ bundleManifest := by decide

/-- `commit` leaves the tree alone, or leaves only the half-written manifest behind, or puts
the manifest in place and closes the writer. -/
theorem commit_cases (now : Nat) (handle : Nat) (m : BundleMeta) (d : Disk) :
    (∃ e, commit now handle m d = (.error e, d)) ∨
      ∃ w, d.writers handle = some w ∧ commitCheck w m = .ok () ∧
        ((∃ e t, commit now handle m d = (.error e, d.setTree now t) ∧
            t.fileAt = Function.update d.tree.fileAt (w.loc ++ [bundleManifestTmp])
              (some (.manifest m d.commits.length))) ∨
          ∃ t t', commit now handle m d = (.ok (),
              { (d.setTree now t).setTree now t' with
                writers := Function.update d.writers handle none
                commits := d.commits ++ [⟨w.loc, m, w.written⟩] }) ∧
            t'.fileAt = Function.update
              (Function.update d.tree.fileAt (w.loc ++ [bundleManifestTmp]) none)
              (w.loc ++ [bundleManifest]) (some (.manifest m d.commits.length))) := by
  cases hw : d.writers handle with
  | none => exact .inl ⟨.valueError "closed", by simp [commit, hw]⟩
  | some w =>
    cases hc : commitCheck w m with
    | error e => exact .inl ⟨e, by simp [commit, hw, hc]⟩
    | ok u =>
      cases ht : d.tree.write (tmpPath w.bundleDir) (.manifest m d.commits.length) with
      | error e => exact .inl ⟨.ofErrno e, by simp [commit, hw, hc, ht]⟩
      | ok t =>
        have hfiles := Tree.fileAt_write ht
        rw [normalize_tmpPath, ← Writer.loc] at hfiles
        refine .inr ⟨w, rfl, hc, ?_⟩
        cases hr : t.rename (tmpPath w.bundleDir) (metaPath w.bundleDir) with
        | error e => exact .inl ⟨.ofErrno e, t, by simp [commit, hw, hc, ht, hr], hfiles⟩
        | ok t' =>
          refine .inr ⟨t, t', by simp [commit, hw, hc, ht, hr], ?_⟩
          have hne : normalize (tmpPath w.bundleDir) ≠ normalize (metaPath w.bundleDir) := by
            simp [normalize_tmpPath, normalize_metaPath, tmp_ne_manifest]
          rw [Tree.fileAt_rename hr hne, normalize_tmpPath, normalize_metaPath,
            ← Writer.loc, hfiles]
          simp

/-! ## Removing -/

/-- `rmtree` takes away every file at or below its target, when that is a directory. -/
theorem rmtree_fileAt (t : DataTree) (path : List (Step String)) (q : List String) :
    (t.rmtree path).2.fileAt q =
      if t.isDir path = true ∧ normalize path <+: q then none else t.fileAt q := by
  unfold Tree.rmtree
  cases hs : t.stat path with
  | error e => simp [Tree.isDir, hs]
  | ok n =>
    cases n with
    | file c => simp [Tree.isDir, hs]
    | dir =>
      have hdir := (Tree.stat_eq_ok_iff.mp hs).2
      by_cases hq : q = []
      · simp only [hq]
        split <;> simp [Tree.fileAt]
      simp only [Tree.isDir, hs, true_and]
      split
      · by_cases he : normalize path = q
        · subst he
          simp [Tree.fileAt, Tree.get_clear _ _ hq, hdir]
        · by_cases hp : normalize path <+: q <;>
            simp [Tree.fileAt, Tree.get_clear _ _ hq, he, hp]
      · by_cases hp : normalize path <+: q <;>
          simp [Tree.fileAt, Tree.get_remove _ _ hq, hp]

/-- The files `delete_bundle` leaves. -/
theorem deleteBundle_fileAt (now : Nat) (path : String) (d : Disk) (q : List String) :
    (b.deleteBundle now path d).2.tree.fileAt q =
      if d.tree.isDir (b.resolve path) = true ∧ b.location path <+: q then none
      else d.tree.fileAt q := by
  unfold deleteBundle
  split
  · rename_i hd
    have h := rmtree_fileAt d.tree (b.resolve path) q
    rcases hr : d.tree.rmtree (b.resolve path) with ⟨r, t⟩
    rw [hr] at h
    cases r <;> exact h
  · rename_i hd
    simp [hd]

/-- `delete_bundle` touches nothing but the tree and its times. -/
theorem deleteBundle_rest (now : Nat) (path : String) (d : Disk) :
    (b.deleteBundle now path d).2.writers = d.writers ∧
      (b.deleteBundle now path d).2.nextWriter = d.nextWriter ∧
      (b.deleteBundle now path d).2.commits = d.commits := by
  unfold deleteBundle
  split
  · rcases d.tree.rmtree (b.resolve path) with ⟨r, t⟩
    cases r <;> exact ⟨rfl, rfl, rfl⟩
  · exact ⟨rfl, rfl, rfl⟩

end Backend

/-- The files `abort` leaves. -/
theorem abort_fileAt {d : Disk} {k : Nat} {w : Writer} (hw : d.writers k = some w)
    (now : Nat) (q : List String) :
    (Backend.abort now k d).tree.fileAt q =
      if d.tree.isDir w.bundleDir = true ∧ w.loc <+: q then none else d.tree.fileAt q := by
  simp only [Backend.abort, hw]
  exact Backend.rmtree_fileAt d.tree w.bundleDir q

/-! ## A small server -/

/-- A manifest of one-byte files. -/
def smallMeta (names : List String) : BundleMeta where
  bundleId := 7
  sender := none
  createdAt := 0
  contentType := "application/octet-stream"
  fileCount := names.length
  files := names.map fun n => ⟨n, 1, "application/octet-stream"⟩

/-- The tree of the small server has no files. -/
theorem srvTree_fileAt (q : List String) : srvTree.fileAt q = none := by
  refine Option.eq_none_iff_forall_ne_some.mpr fun c h => ?_
  rw [Tree.fileAt_eq_some_iff, srvTree, Tree.get_insert (by decide)] at h
  split at h
  · cases h
  · rw [Tree.get_empty] at h
    split at h <;> cases h

end Cassetta
