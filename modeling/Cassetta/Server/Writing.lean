import Cassetta.Server.Rules
import Cassetta.Storage.Laying

/-!
# One bundle, written by a surface

`writeBundle` as a whole: exactly when it goes through, and that a write which fails leaves
every file as it was.
-/

namespace Cassetta

open Prog FileTree

variable {cfg : Config} {env : Environment} {s : Server}

/-! ## Where it goes through -/

/-- The names and contents of parts. -/
def partFiles (parts : List FilePart) : List (String × Bytes) := parts.map fun f => (f.name, f.data)

/-- The records a write surface makes of its parts. -/
def partRecords (cfg : Config) (parts : List FilePart) : List FileRecord :=
  parts.map fun f => ⟨f.name, f.data.length, cfg.pickMime f.name f.mime⟩

/-- The manifest a write surface makes of its parts. -/
def partMeta (cfg : Config) (parts : List FilePart) (sender : Option String) (contentType : String)
    (bundleId : Id) (createdAt : Nat) : BundleMeta where
  bundleId := bundleId
  sender := sender
  createdAt := createdAt
  contentType := contentType
  fileCount := (partRecords cfg parts).length
  files := partRecords cfg parts

/-- Files are written where the storage writes them all. -/
theorem returns_writeFiles {handle : Nat} {parts : List FilePart}
    {Q : List FileRecord → Server → Prop} :
    Returns (exec cfg env) (writeFiles cfg handle parts) Q s ↔
      ∃ d', Backend.writeAll s.wall handle (partFiles parts) s.disk = .ok d' ∧
        Q (partRecords cfg parts) (s.setDisk d') := by
  induction parts generalizing s Q with
  | nil => simp [writeFiles, partFiles, partRecords, Backend.writeAll, Server.setDisk]
  | cons f rest ih =>
    have hstep : Returns (exec cfg env) (writeFiles cfg handle (f :: rest)) Q s ↔
        Returns (exec cfg env) (writeFile handle f.name f.data) (fun _ s' =>
          Returns (exec cfg env) (writeFiles cfg handle rest) (fun records s'' =>
            Q (⟨f.name, f.data.length, cfg.pickMime f.name f.mime⟩ :: records) s'') s') s := by
      simp only [Returns, writeFiles, wpE_bind, wpE_pure]
    rw [hstep, returns_writeFile]
    have hcons : partFiles (f :: rest) = (f.name, f.data) :: partFiles rest := rfl
    constructor
    · rintro ⟨n, d₁, h₁, hrest⟩
      obtain ⟨d', hw, hq⟩ := ih.mp hrest
      refine ⟨d', ?_, hq⟩
      rw [hcons, Backend.writeAll, h₁]
      exact hw
    · rintro ⟨d', hw, hq⟩
      rw [hcons, Backend.writeAll] at hw
      rcases h₁ : Backend.writeFile s.wall handle f.name f.data s.disk with ⟨r, d₁⟩
      simp only [h₁] at hw
      cases r with
      | error e => cases hw
      | ok n => exact ⟨n, d₁, rfl, ih.mpr ⟨d', hw, hq⟩⟩

/-- What is done with an open writer. -/
def fillBundle (cfg : Config) (handle : Nat) (parts : List FilePart) (sender : Option String)
    (contentType : String) (bundleId : Id) : Handler BundleMeta := do
  let records ← writeFiles cfg handle parts
  let createdAt ← now
  let m : BundleMeta :=
    { bundleId, sender, createdAt, contentType, fileCount := records.length, files := records }
  commit handle m
  pure m

/-- A bundle is opened, and then filled or given up. -/
theorem writeBundle_eq (path : String) (parts : List FilePart) (sender : Option String)
    (contentType : String) (bundleId : Id) :
    writeBundle cfg path parts sender contentType bundleId = (do
      let r ← openBundleWrite path
      let handle ← orRaise r
      Upload.orAbort handle (fillBundle cfg handle parts sender contentType bundleId)) := rfl

section Bundle

variable {path : String} {parts : List FilePart} {sender : Option String} {contentType : String}
  {bundleId : Id}

/-- A bundle is filled where the storage writes all files and commits. -/
theorem returns_fillBundle {handle : Nat} {Q : BundleMeta → Server → Prop} :
    Returns (exec cfg env) (fillBundle cfg handle parts sender contentType bundleId) Q s ↔
      ∃ d₁ d₂, Backend.writeAll s.wall handle (partFiles parts) s.disk = .ok d₁ ∧
        Backend.commit s.reading handle (partMeta cfg parts sender contentType bundleId s.reading)
          d₁ = (.ok (), d₂) ∧
        Q (partMeta cfg parts sender contentType bundleId s.reading) (s.timed.setDisk d₂) := by
  simp only [Returns, fillBundle, wpE_bind, wpE_now_reading, wpE_pure, true_and]
  rw [← Returns, returns_writeFiles]
  constructor
  · rintro ⟨d₁, hw, hc⟩
    rw [← Returns, returns_commit] at hc
    obtain ⟨d₂, hc, hq⟩ := hc
    exact ⟨d₁, d₂, hw, hc, hq⟩
  · rintro ⟨d₁, d₂, hw, hc, hq⟩
    refine ⟨d₁, hw, ?_⟩
    rw [← Returns, returns_commit]
    exact ⟨d₂, hc, hq⟩

/-- A bundle is written exactly when it can be opened, its files written and its manifest
committed. -/
theorem returns_writeBundle {Q : BundleMeta → Server → Prop} :
    Returns (exec cfg env) (writeBundle cfg path parts sender contentType bundleId) Q s ↔
      ∃ k d₁ d₂ d₃, cfg.backend.openBundleWrite s.wall path s.disk = (.ok k, d₁) ∧
        Backend.writeAll s.wall k (partFiles parts) d₁ = .ok d₂ ∧
        Backend.commit s.reading k (partMeta cfg parts sender contentType bundleId s.reading) d₂ =
          (.ok (), d₃) ∧
        Q (partMeta cfg parts sender contentType bundleId s.reading) (s.timed.setDisk d₃) := by
  rw [writeBundle_eq]
  refine (wpE_bind _ _ _).trans (wpE_openBundleWrite.trans ?_)
  rw [true_and]
  refine (wpE_bind _ _ _).trans (wpE_orRaise.trans ?_)
  rcases cfg.backend.openBundleWrite s.wall path s.disk with ⟨r, d₁⟩
  cases r with
  | error e => simp
  | ok k =>
    refine returns_orAbort.trans (returns_fillBundle.trans ?_)
    constructor
    · rintro ⟨d₂, d₃, hw, hc, hq⟩
      exact ⟨k, d₁, d₂, d₃, rfl, hw, hc, hq⟩
    · rintro ⟨k', d', d₂, d₃, heq, hw, hc, hq⟩
      obtain ⟨hk, rfl⟩ := Prod.mk.inj heq
      obtain rfl := Except.ok.inj hk
      exact ⟨d₂, d₃, hw, hc, hq⟩

end Bundle

/-! ## Where it fails -/

/-- `commit` makes and takes away no directory. -/
theorem Backend.keepsDirs_commit (now handle : Nat) (m : BundleMeta) (d : Disk) :
    KeepsDirs d.tree (Backend.commit now handle m d).2.tree := by
  have hrefl : KeepsDirs d.tree d.tree := fun _ h => h
  unfold Backend.commit
  split
  · exact hrefl
  rename_i w hw
  split
  · exact hrefl
  split
  · exact hrefl
  rename_i t ht
  split
  · exact keepsDirs_write ht
  · rename_i t' hr
    have hne :
      normalize (Backend.tmpPath w.bundleDir) ≠ normalize (Backend.metaPath w.bundleDir) := by
      simp [Backend.normalize_tmpPath, Backend.normalize_metaPath, Backend.tmp_ne_manifest]
    exact (keepsDirs_write ht).trans (keepsDirs_rename hr hne)

/-- A directory that is kept is one. -/
theorem KeepsDirs.isDir {t t' : DataTree} (h : KeepsDirs t t') {path : List (Step String)}
    (hd : t.isDir path = true) : t'.isDir path = true := by
  obtain ⟨hres, hget⟩ := Tree.isDir_iff.mp hd
  exact Tree.isDir_iff.mpr ⟨Tree.resolveFrom_mono h hres, h _ hget⟩

/-- A writer at work on a directory that was not there: outside of it every file is as in the
tree before. -/
structure Working (before : DataTree) (dir : List (Step String)) (k : Nat) (d : Disk) : Prop where
  writer : ∃ written, d.writers k = some ⟨dir, written⟩
  isDir : d.tree.isDir dir = true
  new : ∀ q, normalize dir <+: q → before.fileAt q = none
  outside : ∀ q, ¬normalize dir <+: q → d.tree.fileAt q = before.fileAt q

namespace Working

variable {before : DataTree} {dir : List (Step String)} {k : Nat} {d : Disk}

/-- An open that succeeds begins the work on a bundle. -/
theorem openBundleWrite {b : Backend} {now : Nat} {path : String} {d' : Disk}
    (h : b.openBundleWrite now path d = (.ok k, d')) : Working d.tree (b.resolve path) k d' := by
  rcases Backend.openBundleWrite_cases (b := b) now path d with
    ⟨e, t, heq, -⟩ | ⟨e, heq⟩ | ⟨t, t', -, hgrown, hmk, heq⟩
  · rw [heq] at h
    cases h
  · rw [heq] at h
    cases h
  rw [heq] at h
  obtain ⟨hk, rfl⟩ := Prod.mk.inj h
  obtain rfl := Except.ok.inj hk
  obtain ⟨-, hnone, -, -⟩ := Tree.mkdir_ok hmk
  have hfiles : t'.fileAt = d.tree.fileAt :=
    (Tree.grown_of_mkdir hmk).fileAt_eq.trans hgrown.fileAt_eq
  refine ⟨⟨[], Function.update_self ..⟩, Tree.isDir_of_mkdir hmk, fun q hq => ?_, fun q _ => ?_⟩
  · cases hf : d.tree.fileAt q with
    | none => rfl
    | some c =>
      rw [← hgrown.fileAt_eq, Tree.fileAt_eq_some_iff] at hf
      by_cases he : normalize (b.resolve path) = q
      · rw [he, hf] at hnone
        cases hnone
      · rw [Tree.get_of_prefix hq he hf] at hnone
        cases hnone
  · show t'.fileAt q = _
    rw [hfiles]

/-- A write inside the bundle goes on with the work. -/
theorem writeFile {now : Nat} {name : String} {data : Bytes} (h : Working before dir k d)
    (hinside : normalize dir <+: fileLoc (normalize dir) name) :
    Working before dir k (Backend.writeFile now k name data d).2 := by
  obtain ⟨written, hw⟩ := h.writer
  rcases Backend.writeFile_cases now k name data d with
    ⟨e, heq⟩ | ⟨w, hw', -, -, ⟨e, t, heq, hgrown⟩ | ⟨t, t', hgrown, hwr, heq⟩⟩
  · rw [heq]
    exact h
  · rw [heq]
    have hkeep : KeepsDirs d.tree t := fun q => hgrown.get_some
    refine ⟨⟨written, hw⟩, hkeep.isDir h.isDir, h.new, fun q hq => ?_⟩
    show t.fileAt q = _
    rw [hgrown.fileAt_eq]
    exact h.outside q hq
  · obtain ⟨hw₁, hkeep, -, hfiles⟩ := Backend.writeFile_ok heq hw
    rw [heq]
    refine ⟨⟨_, hw₁⟩, hkeep.isDir h.isDir, h.new, fun q hq => ?_⟩
    have hne : q ≠ fileLoc (Writer.loc ⟨dir, written⟩) name := by
      rintro rfl
      exact hq hinside
    rw [hfiles, Function.update_of_ne hne]
    exact h.outside q hq

/-- A commit that fails leaves the writer at work. -/
theorem commit {now : Nat} {m : BundleMeta} {e : StorageError} {d' : Disk}
    (h : Working before dir k d) (hc : Backend.commit now k m d = (.error e, d')) :
    Working before dir k d' := by
  obtain ⟨written, hw⟩ := h.writer
  have hkeep := Backend.keepsDirs_commit now k m d
  rw [hc] at hkeep
  rcases Backend.commit_cases now k m d with
    ⟨e', heq⟩ | ⟨w, hw', -, ⟨e', t, heq, hfiles⟩ | ⟨t, t', heq, -⟩⟩
  · rw [hc] at heq
    obtain ⟨-, rfl⟩ := Prod.mk.inj heq
    exact h
  · obtain rfl := Option.some.inj (hw.symm.trans hw')
    rw [hc] at heq
    obtain ⟨-, rfl⟩ := Prod.mk.inj heq
    refine ⟨⟨written, hw⟩, hkeep.isDir h.isDir, h.new, fun q hq => ?_⟩
    have hne : q ≠ Writer.loc ⟨dir, written⟩ ++ [bundleManifestTmp] := by
      rintro rfl
      exact hq (List.prefix_append _ _)
    rw [Disk.setTree_tree, hfiles, Function.update_of_ne hne]
    exact h.outside q hq
  · rw [hc] at heq
    cases heq

/-- Aborting puts every file back. -/
theorem abort {now : Nat} (h : Working before dir k d) :
    (Backend.abort now k d).tree.fileAt = before.fileAt := by
  obtain ⟨written, hw⟩ := h.writer
  funext q
  rw [abort_fileAt hw]
  by_cases hq : normalize dir <+: q
  · rw [if_pos ⟨h.isDir, hq⟩, h.new q hq]
  · rw [if_neg fun hand => hq hand.2]
    exact h.outside q hq

end Working

/-- A bundle whose parts stay in their directory is written, or every file is as it was. -/
theorem fails_writeBundle (path : String) {parts : List FilePart} (sender : Option String)
    (contentType : String) (bundleId : Id)
    (hinside : ∀ f ∈ parts,
      cfg.backend.location path <+: fileLoc (cfg.backend.location path) f.name) :
    wpE (exec cfg env) (fun _ _ => True)
      (writeBundle cfg path parts sender contentType bundleId) (fun _ _ => True)
      (fun _ s' => s'.disk.tree.fileAt = s.disk.tree.fileAt) s := by
  rw [writeBundle_eq]
  refine (wpE_bind _ _ _).mpr (wpE_openBundleWrite.mpr ⟨trivial, ?_⟩)
  refine (wpE_bind _ _ _).mpr (wpE_orRaise.mpr ?_)
  rcases hopen : cfg.backend.openBundleWrite s.wall path s.disk with ⟨r, d₁⟩
  cases r with
  | error e =>
    rcases Backend.openBundleWrite_cases (b := cfg.backend) s.wall path s.disk with
      ⟨e', t, heq, hgrown⟩ | ⟨e', heq⟩ | ⟨t, t', -, -, -, heq⟩
    · rw [hopen] at heq
      obtain ⟨-, rfl⟩ := Prod.mk.inj heq
      exact hgrown.fileAt_eq
    · rw [hopen] at heq
      obtain ⟨-, rfl⟩ := Prod.mk.inj heq
      rfl
    · rw [hopen] at heq
      cases heq
  | ok k =>
    have hopened : Working s.disk.tree (cfg.backend.resolve path) k d₁ := .openBundleWrite hopen
    have hwrites : ∀ (parts : List FilePart) (s₁ : Server), (∀ f ∈ parts,
        cfg.backend.location path <+: fileLoc (cfg.backend.location path) f.name) →
        Working s.disk.tree (cfg.backend.resolve path) k s₁.disk →
        wpE (exec cfg env) (fun _ _ => True) (writeFiles cfg k parts)
          (fun _ s' => Working s.disk.tree (cfg.backend.resolve path) k s'.disk)
          (fun _ s' => Working s.disk.tree (cfg.backend.resolve path) k s'.disk) s₁ := by
      intro parts
      induction parts with
      | nil => exact fun _ _ h => h
      | cons f rest ih =>
        intro s₁ hin h
        have hfile : Working s.disk.tree (cfg.backend.resolve path) k
            (Backend.writeFile s₁.wall k f.name f.data s₁.disk).2 := h.writeFile (hin f (by simp))
        simp only [writeFiles, writeFile, wpE_bind, wpE_tryWriteFile, wpE_orRaise, true_and,
          wpE_pure]
        split
        · exact ih _ (fun f' hf' => hin f' (by simp [hf'])) hfile
        · exact hfile
    refine (wpE_tryCatch _ _).mpr ?_
    simp only [fillBundle, wpE_bind, wpE_now_reading, true_and, commit, wpE_tryCommit, wpE_orRaise,
      wpE_pure, wpE_abort, wpE_throw]
    refine wpE_mono (fun records s₂ h => ?_) (fun e s₂ h => h.abort)
      (hwrites parts (s.setDisk d₁) hinside hopened)
    split
    · trivial
    · rename_i e hc
      exact (h.commit (Prod.ext hc rfl)).abort

end Cassetta
