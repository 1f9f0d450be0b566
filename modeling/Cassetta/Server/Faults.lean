import Cassetta.Server.StoreWrite
import Cassetta.Storage.Room

/-!
# Storage calls that fail

The disk may fail any storage call with an `OSError`, after the call has done a part of what it
does. `execFaulty` answers the calls as `exec` does but for those that fail. This module says
when a bundle is written all the same, and what a write that does not go through leaves.
-/

namespace Cassetta

open Prog FileTree

variable {cfg : Config} {env : Environment} {s : Server}

/-! ## Failing calls -/

/-- The calls that only look at the disk. -/
def Call.looks : Call → Bool
  | .readBundleMeta _ | .openBundleFileRead .. | .listBundles .. => true
  | _ => false

/-- What a call that stops half way may have changed: a delete has removed some files, a write
has written a part of its file, a commit has written a part of the temporary manifest. -/
def Call.Touches (b : Backend) (d : Disk) : Call → List String → Option Blob → Prop
  | .deleteBundle path, q, found => found = none ∧ b.location path <+: q
  | .writeFile handle name _, q, _ => ∃ w, d.writers handle = some w ∧ q = fileLoc w.loc name
  | .commit handle _, q, _ => ∃ w, d.writers handle = some w ∧ q = w.loc ++ [bundleManifestTmp]
  | _, _, _ => False

/-- A disk on which a call has stopped half way. -/
structure HalfDone (b : Backend) (c : Call) (d d' : Disk) : Prop where
  writers : d'.writers = d.writers
  files : ∀ q, d'.tree.fileAt q = d.tree.fileAt q ∨ c.Touches b d q (d'.tree.fileAt q)
  looks : c.looks = true → d' = d

/-- Which storage calls fail, with what error, and the disk each leaves. -/
structure Faults (b : Backend) where
  fault : Call → Option (Errno × (Disk → Disk))
  halfDone : ∀ {c e left}, fault c = some (e, left) → ∀ d, HalfDone b c d (left d)

/-- Nothing fails. -/
def Faults.none (b : Backend) : Faults b := ⟨fun _ => Option.none, nofun⟩

/-- How a storage call raises. -/
def Call.raises : (c : Call) → Option (StorageError → c.Answer)
  | .openBundleWrite _ => some fun e => (.error e : Except StorageError Nat)
  | .writeFile .. => some fun e => (.error e : Except StorageError Nat)
  | .commit .. => some fun e => (.error e : Except StorageError Unit)
  | .readBundleMeta _ => some fun e => (.error e : Except StorageError BundleMeta)
  | .openBundleFileRead .. => some fun e => (.error e : Except StorageError Bytes)
  | .listBundles .. => some fun e => (.error e : Except StorageError (List Backend.BundleRef))
  | .deleteBundle _ => some fun e => (.error e : Except StorageError Unit)
  | _ => Option.none

/-- Answer a call, on a disk that fails some. -/
def execFaulty (cfg : Config) (env : Environment) (faults : Faults cfg.backend) (c : Call)
    (s : Server) : c.Answer × Server :=
  match c.raises, faults.fault c with
  | some raise, some (e, left) => (raise (.osError e), s.setDisk (left s.disk))
  | _, _ => exec cfg env c s

section Faulty

variable {faults : Faults cfg.backend}

/-- A call without a fault is answered as always. -/
theorem execFaulty_eq {c : Call} (h : faults.fault c = none) (s : Server) :
    execFaulty cfg env faults c s = exec cfg env c s := by
  unfold execFaulty
  rw [h]
  cases c.raises <;> rfl

/-- A call with a fault raises it, and leaves what it leaves. -/
theorem execFaulty_fault {c : Call} {raise : StorageError → c.Answer} (hc : c.raises = some raise)
    {e : Errno} {left : Disk → Disk} (h : faults.fault c = some (e, left)) (s : Server) :
    execFaulty cfg env faults c s = (raise (.osError e), s.setDisk (left s.disk)) := by
  unfold execFaulty
  rw [hc, h]

/-! ## Deletes -/

/-- A delete with a fault raises it. -/
theorem runE_faulty_deleteQuiet_fails {path : String} {e : Errno} {left : Disk → Disk}
    (hf : faults.fault (.deleteBundle path) = some (e, left)) (s : Server) :
    runE (execFaulty cfg env faults) (deleteQuiet path) s =
      (.error (.storage (.osError e)), s.setDisk (left s.disk)) := by
  have hcall : runE (execFaulty cfg env faults) (deleteBundle path) s =
      (.ok (.error (.osError e)), s.setDisk (left s.disk)) := by
    show (Except.ok (execFaulty cfg env faults (.deleteBundle path) s).1,
      (execFaulty cfg env faults (.deleteBundle path) s).2) = _
    rw [execFaulty_fault rfl hf]
    rfl
  rw [deleteQuiet, runE_bind_ok hcall]
  rfl

/-- A delete without a fault goes through. -/
theorem runE_faulty_deleteQuiet {path : String} {loc : List String}
    (hspell : cfg.backend.resolve path = spell loc) (hne : loc ≠ [])
    (hf : faults.fault (.deleteBundle path) = none) (s : Server) :
    runE (execFaulty cfg env faults) (deleteQuiet path) s =
      (.ok (), s.setDisk (cfg.backend.deleteBundle s.wall path s.disk).2) := by
  have hcall : runE (execFaulty cfg env faults) (deleteBundle path) s =
      (.ok (cfg.backend.deleteBundle s.wall path s.disk).1,
        s.setDisk (cfg.backend.deleteBundle s.wall path s.disk).2) := by
    show (Except.ok (execFaulty cfg env faults (.deleteBundle path) s).1,
      (execFaulty cfg env faults (.deleteBundle path) s).2) = _
    rw [execFaulty_eq hf]
    rfl
  rw [deleteQuiet, runE_bind_ok hcall, Backend.deleteBundle_spelled hspell hne]
  by_cases hdir : s.disk.tree.dirAt loc = true
  · rw [if_pos hdir]
    rfl
  · rw [if_neg hdir]
    rfl

/-! ## Where a write goes through -/

/-- Raising an error does not depend on the storage. -/
theorem wpE_orRaise_congr {h h' : (c : Call) → Server → c.Answer × Server}
    {guard : Server → Call → Prop} {α : Type} {r : Except StorageError α} {Q : α → Server → Prop}
    {E : Exc → Server → Prop} :
    wpE h guard (orRaise r) Q E s ↔ wpE h' guard (orRaise r) Q E s := by
  cases r <;> rfl

private theorem returns_faulty_writeFile {handle : Nat} {name : String} {data : Bytes}
    {Q : Nat → Server → Prop} :
    Returns (execFaulty cfg env faults) (writeFile handle name data) Q s ↔
      faults.fault (.writeFile handle name data) = none ∧
        Returns (exec cfg env) (writeFile handle name data) Q s := by
  have hcall : ∀ h : (c : Call) → Server → c.Answer × Server,
      Returns h (writeFile handle name data) Q s ↔
        True ∧ wpE h (fun _ _ => True) (orRaise (h (.writeFile handle name data) s).1) Q
          (fun _ _ => False) (h (.writeFile handle name data) s).2 := fun h => wpE_bind _ _ _
  rw [hcall, hcall]
  cases hf : faults.fault (.writeFile handle name data) with
  | none =>
    rw [execFaulty_eq hf, eq_self, true_and, true_and, true_and]
    exact wpE_orRaise_congr
  | some fault =>
    rw [execFaulty_fault rfl hf]
    simp

private theorem returns_faulty_commit {handle : Nat} {m : BundleMeta} {Q : Unit → Server → Prop} :
    Returns (execFaulty cfg env faults) (commit handle m) Q s ↔
      faults.fault (.commit handle m) = none ∧
        Returns (exec cfg env) (commit handle m) Q s := by
  have hcall : ∀ h : (c : Call) → Server → c.Answer × Server,
      Returns h (commit handle m) Q s ↔
        True ∧ wpE h (fun _ _ => True) (orRaise (h (.commit handle m) s).1) Q
          (fun _ _ => False) (h (.commit handle m) s).2 := fun h => wpE_bind _ _ _
  rw [hcall, hcall]
  cases hf : faults.fault (.commit handle m) with
  | none =>
    rw [execFaulty_eq hf, eq_self, true_and, true_and, true_and]
    exact wpE_orRaise_congr
  | some fault =>
    rw [execFaulty_fault rfl hf]
    simp

private theorem returns_faulty_writeFiles {handle : Nat} {parts : List FilePart}
    {Q : List FileRecord → Server → Prop} :
    Returns (execFaulty cfg env faults) (writeFiles cfg handle parts) Q s ↔
      (∀ f ∈ parts, faults.fault (.writeFile handle f.name f.data) = none) ∧
        Returns (exec cfg env) (writeFiles cfg handle parts) Q s := by
  induction parts generalizing s Q with
  | nil => simp [writeFiles, Returns]
  | cons f rest ih =>
    have hstep : ∀ h : (c : Call) → Server → c.Answer × Server,
        Returns h (writeFiles cfg handle (f :: rest)) Q s ↔
        Returns h (writeFile handle f.name f.data) (fun _ s' =>
          Returns h (writeFiles cfg handle rest) (fun records s'' =>
            Q (⟨f.name, f.data.length, cfg.pickMime f.name f.mime⟩ :: records) s'') s') s := by
      intro h
      simp only [Returns, writeFiles, wpE_bind, wpE_pure]
    rw [hstep, hstep, returns_faulty_writeFile]
    simp only [ih, List.forall_mem_cons, and_assoc]
    rw [returns_writeFile, returns_writeFile]
    constructor
    · rintro ⟨hf, n, d', hw, hrest, hq⟩
      exact ⟨hf, hrest, n, d', hw, hq⟩
    · rintro ⟨hf, hrest, n, d', hw, hq⟩
      exact ⟨hf, n, d', hw, hrest, hq⟩

private theorem wpE_faulty_now {guard : Server → Call → Prop} {Q : Nat → Server → Prop}
    {E : Exc → Server → Prop} :
    wpE (execFaulty cfg env faults) guard now Q E s ↔ guard s .now ∧ Q s.reading s.timed := Iff.rfl

section Bundle

variable {path : String} {parts : List FilePart} {sender : Option String} {contentType : String}
  {bundleId : Id}

private theorem returns_faulty_fillBundle {handle : Nat} {Q : BundleMeta → Server → Prop} :
    Returns (execFaulty cfg env faults) (fillBundle cfg handle parts sender contentType bundleId)
        Q s ↔
      (∀ f ∈ parts, faults.fault (.writeFile handle f.name f.data) = none) ∧
        faults.fault
          (.commit handle (partMeta cfg parts sender contentType bundleId s.reading)) = none ∧
        Returns (exec cfg env) (fillBundle cfg handle parts sender contentType bundleId) Q s := by
  have hfill : Returns (execFaulty cfg env faults)
      (fillBundle cfg handle parts sender contentType bundleId) Q s ↔
      Returns (execFaulty cfg env faults) (writeFiles cfg handle parts) (fun records s' =>
        Returns (execFaulty cfg env faults) (commit handle
          { bundleId, sender, createdAt := s'.reading, contentType,
            fileCount := records.length, files := records }) (fun _ s'' =>
          Q { bundleId, sender, createdAt := s'.reading, contentType,
              fileCount := records.length, files := records } s'') s'.timed) s := by
    simp only [Returns, fillBundle, wpE_bind, wpE_faulty_now, wpE_pure, true_and]
  rw [hfill, returns_faulty_writeFiles, returns_fillBundle, returns_writeFiles]
  simp only [returns_faulty_commit, returns_commit]
  constructor
  · rintro ⟨hfiles, d₁, hw, hfault, d₂, hc, hq⟩
    exact ⟨hfiles, hfault, d₁, d₂, hw, hc, hq⟩
  · rintro ⟨hfiles, hfault, d₁, d₂, hw, hc, hq⟩
    exact ⟨hfiles, d₁, hw, hfault, d₂, hc, hq⟩

/-- A bundle can be written from the disk at hand: there is room for it at its path under its
names, and none of the calls that open, fill and commit it fails. -/
structure GoesThrough (cfg : Config) (faults : Faults cfg.backend) (path : String)
    (parts : List FilePart) (sender : Option String) (contentType : String) (bundleId : Id)
    (s : Server) : Prop where
  room : cfg.backend.Room s.disk path (parts.map FilePart.name)
  opens : faults.fault (.openBundleWrite path) = none
  fills : ∀ f ∈ parts, faults.fault (.writeFile s.disk.nextWriter f.name f.data) = none
  commits : faults.fault (.commit s.disk.nextWriter
    (partMeta cfg parts sender contentType bundleId s.reading)) = none

private theorem goesThrough_iff :
    GoesThrough cfg faults path parts sender contentType bundleId s ↔
      ∃ k d₁ d₂ d₃, faults.fault (.openBundleWrite path) = none ∧
        cfg.backend.openBundleWrite s.wall path s.disk = (.ok k, d₁) ∧
        (∀ f ∈ parts, faults.fault (.writeFile k f.name f.data) = none) ∧
        Backend.writeAll s.wall k (partFiles parts) d₁ = .ok d₂ ∧
        faults.fault (.commit k (partMeta cfg parts sender contentType bundleId s.reading)) =
          none ∧
        Backend.commit s.reading k (partMeta cfg parts sender contentType bundleId s.reading) d₂ =
          (.ok (), d₃) := by
  have hnames : (partFiles parts).map Prod.fst = parts.map FilePart.name := by
    simp [partFiles, Function.comp_def]
  have hmeta : (partMeta cfg parts sender contentType bundleId s.reading).files.map
      (fun f => (f.name, f.size)) =
        (partFiles parts).map fun e => (e.1, (e.2.length : Int)) := by
    simp [partMeta, partRecords, partFiles, Function.comp_def]
  have hroom := Backend.room_iff (b := cfg.backend) (d := s.disk) path s.wall s.reading hmeta
  rw [hnames] at hroom
  constructor
  · rintro ⟨hr, hopens, hfills, hcommits⟩
    obtain ⟨k, d₁, d₂, d₃, hopen, hwr, hc⟩ := hroom.mpr hr
    obtain rfl := Backend.openBundleWrite_handle hopen
    exact ⟨_, d₁, d₂, d₃, hopens, hopen, hfills, hwr, hcommits, hc⟩
  · rintro ⟨k, d₁, d₂, d₃, hopens, hopen, hfills, hwr, hcommits, hc⟩
    obtain rfl := Backend.openBundleWrite_handle hopen
    exact ⟨hroom.mp ⟨_, d₁, d₂, d₃, hopen, hwr, hc⟩, hopens, hfills, hcommits⟩

variable (env faults path parts sender contentType bundleId) in
/-- A bundle is written exactly if no fault stops it. -/
theorem returns_faulty_writeBundle (s : Server) :
    Returns (execFaulty cfg env faults) (writeBundle cfg path parts sender contentType bundleId)
        (fun _ _ => True) s ↔
      GoesThrough cfg faults path parts sender contentType bundleId s := by
  have hopen : Returns (execFaulty cfg env faults)
      (writeBundle cfg path parts sender contentType bundleId) (fun _ _ => True) s ↔
      True ∧ wpE (execFaulty cfg env faults) (fun _ _ => True)
        (do
          let handle ← orRaise (execFaulty cfg env faults (.openBundleWrite path) s).1
          Upload.orAbort handle (fillBundle cfg handle parts sender contentType bundleId))
        (fun _ _ => True) (fun _ _ => False)
        (execFaulty cfg env faults (.openBundleWrite path) s).2 := by
    rw [writeBundle_eq]
    exact wpE_bind _ _ _
  rw [hopen, true_and, wpE_bind]
  cases hf : faults.fault (.openBundleWrite path) with
  | some fault =>
    rw [execFaulty_fault rfl hf]
    simp [goesThrough_iff, hf]
  | none =>
    rw [execFaulty_eq hf]
    rcases hd : cfg.backend.openBundleWrite s.wall path s.disk with ⟨r, d₁⟩
    have hcall : exec cfg env (.openBundleWrite path) s = (r, s.setDisk d₁) := by
      rw [exec, hd]
      rfl
    rw [hcall]
    cases r with
    | error e => simp [goesThrough_iff, hd]
    | ok k =>
      refine wpE_orRaise.trans ?_
      show Returns (execFaulty cfg env faults) _ _ _ ↔ _
      rw [returns_orAbort, returns_faulty_fillBundle, returns_fillBundle, goesThrough_iff]
      constructor
      · rintro ⟨hfiles, hfault, d₂, d₃, hw, hc, -⟩
        exact ⟨k, d₁, d₂, d₃, hf, hd, hfiles, hw, hfault, hc⟩
      · rintro ⟨k', d₁', d₂, d₃, -, heq, hfiles, hw, hfault, hc⟩
        rw [hd] at heq
        obtain ⟨hk, rfl⟩ := Prod.mk.inj heq
        obtain rfl := Except.ok.inj hk
        exact ⟨hfiles, hfault, d₂, d₃, hw, hc, trivial⟩

/-! ## What a failed write leaves -/

/-- A part has a name that leads to a place from the bundle directory. -/
def Leads (loc : List String) (parts : List FilePart) (q : List String) : Prop :=
  ∃ f ∈ parts, fileLoc loc f.name = q

/-- A writer is open on a directory, and only the places the parts lead to and that of the
temporary manifest have changed. -/
structure Filling (before : DataTree) (loc : List String) (parts : List FilePart) (k : Nat)
    (d : Disk) : Prop where
  writer : ∃ written, d.writers k = some ⟨spell loc, written⟩
  others : ∀ q, q ≠ loc ++ [bundleManifestTmp] → ¬Leads loc parts q →
    d.tree.fileAt q = before.fileAt q

namespace Filling

variable {before : DataTree} {loc : List String} {k : Nat} {d d' : Disk}

private theorem writeFile_halfDone (h : Filling before loc parts k d) {f : FilePart}
    (hf : f ∈ parts)
    (hd : HalfDone cfg.backend (.writeFile k f.name f.data) d d') :
    Filling before loc parts k d' := by
  obtain ⟨written, hw⟩ := h.writer
  refine ⟨⟨written, by rw [hd.writers, hw]⟩, fun q hq hlead => ?_⟩
  rcases hd.files q with hsame | ⟨w, hw', rfl⟩
  · exact hsame.trans (h.others q hq hlead)
  · obtain rfl := Option.some.inj (hw'.symm.trans hw)
    have hloc : Writer.loc ⟨spell loc, written⟩ = loc := normalize_spell loc
    exact absurd ⟨f, hf, by rw [hloc]⟩ hlead

private theorem commit_halfDone (h : Filling before loc parts k d) {m : BundleMeta}
    (hd : HalfDone cfg.backend (.commit k m) d d') : Filling before loc parts k d' := by
  obtain ⟨written, hw⟩ := h.writer
  refine ⟨⟨written, by rw [hd.writers, hw]⟩, fun q hq hlead => ?_⟩
  rcases hd.files q with hsame | ⟨w, hw', rfl⟩
  · exact hsame.trans (h.others q hq hlead)
  · obtain rfl := Option.some.inj (hw'.symm.trans hw)
    have hloc : Writer.loc ⟨spell loc, written⟩ = loc := normalize_spell loc
    exact absurd (by rw [hloc]) hq

/-- A write of a file keeps a bundle being filled. -/
theorem writeFile (h : Filling before loc parts k d) {f : FilePart} (hf : f ∈ parts) (now : Nat) :
    Filling before loc parts k (Backend.writeFile now k f.name f.data d).2 := by
  obtain ⟨written, hw⟩ := h.writer
  rcases Backend.writeFile_cases now k f.name f.data d with
    ⟨e, heq⟩ | ⟨w, hw', -, -, ⟨e, t, heq, hgrown⟩ | ⟨t, t', -, -, heq⟩⟩
  · rw [heq]
    exact h
  · rw [heq]
    refine ⟨⟨written, hw⟩, fun q hq hlead => ?_⟩
    rw [Disk.setTree_tree, hgrown.fileAt_eq]
    exact h.others q hq hlead
  · obtain ⟨hw₁, -, -, hfiles⟩ := Backend.writeFile_ok heq hw
    have hloc : Writer.loc ⟨spell loc, written⟩ = loc := normalize_spell loc
    rw [heq]
    refine ⟨⟨_, hw₁⟩, fun q hq hlead => ?_⟩
    have hne : q ≠ fileLoc (Writer.loc ⟨spell loc, written⟩) f.name := by
      rintro rfl
      exact hlead ⟨f, hf, by rw [hloc]⟩
    rw [hfiles, Function.update_of_ne hne]
    exact h.others q hq hlead

variable (cfg) in
/-- A commit puts the manifest in place, or the writer stays open. -/
theorem commit (h : Filling before loc parts k d) (now : Nat) (m : BundleMeta) :
    match (Backend.commit now k m d).1 with
    | .ok () => cfg.backend.metaAt (Backend.commit now k m d).2.tree loc = some m ∧
        ∀ q, q ≠ loc ++ [bundleManifest] → ¬Leads loc parts q →
          (Backend.commit now k m d).2.tree.fileAt q =
            if q = loc ++ [bundleManifestTmp] then none else before.fileAt q
    | .error _ => Filling before loc parts k (Backend.commit now k m d).2 := by
  obtain ⟨written, hw⟩ := h.writer
  have hloc : Writer.loc ⟨spell loc, written⟩ = loc := normalize_spell loc
  rcases Backend.commit_cases now k m d with
    ⟨e, heq⟩ | ⟨w, hw', -, ⟨e, t, heq, hfiles⟩ | ⟨t, t', heq, hfiles⟩⟩
  · rw [heq]
    exact h
  · obtain rfl := Option.some.inj (hw'.symm.trans hw)
    rw [heq]
    refine ⟨⟨written, hw⟩, fun q hq hlead => ?_⟩
    rw [Disk.setTree_tree, hfiles, hloc, Function.update_of_ne hq]
    exact h.others q hq hlead
  · obtain rfl := Option.some.inj (hw'.symm.trans hw)
    rw [heq]
    rw [hloc] at hfiles
    refine ⟨?_, fun q hq hlead => ?_⟩
    · show cfg.backend.metaAt t' loc = some m
      rw [Backend.metaAt, hfiles, Function.update_self]
      rfl
    · show t'.fileAt q = _
      rw [hfiles, Function.update_of_ne hq]
      by_cases htmp : q = loc ++ [bundleManifestTmp]
      · rw [if_pos htmp, htmp, Function.update_self]
      · rw [if_neg htmp, Function.update_of_ne htmp]
        exact h.others q htmp hlead

/-- Aborting leaves no file in the directory. -/
theorem abort (h : Filling before loc parts k d) (now : Nat) {q : List String} :
    (StrictlyInside loc q → (Backend.abort now k d).tree.fileAt q = none) ∧
      (¬StrictlyInside loc q → ¬Leads loc parts q →
        (Backend.abort now k d).tree.fileAt q = before.fileAt q) := by
  obtain ⟨written, hw⟩ := h.writer
  have hloc : Writer.loc ⟨spell loc, written⟩ = loc := normalize_spell loc
  rw [abort_fileAt hw, hloc]
  constructor
  · intro hq
    split
    · rfl
    · rename_i hnot
      refine Option.eq_none_iff_forall_ne_some.mpr fun c hc => hnot ⟨?_, hq.1⟩
      exact Tree.isDir_spell.mpr
        (Tree.get_of_prefix hq.1 hq.2.symm (Tree.fileAt_eq_some_iff.mp hc))
  · intro hq hlead
    have htmp : q ≠ loc ++ [bundleManifestTmp] := by
      rintro rfl
      exact hq (strictlyInside_concat _ _)
    split
    · rename_i hdir
      have hself : q = loc := by
        by_contra hne
        exact hq ⟨hdir.2, hne⟩
      rw [← h.others q htmp hlead, hself, Tree.fileAt, Tree.isDir_spell.mp hdir.1]
    · exact h.others q htmp hlead

end Filling

section Fill

variable {before : DataTree} {loc : List String} {k : Nat} {rest : List FilePart}

/-- The writes keep the writer open, whatever they answer. -/
theorem wpE_faulty_writeFiles (h : Filling before loc parts k s.disk) (hrest : rest ⊆ parts) :
    wpE (execFaulty cfg env faults) (fun _ _ => True) (writeFiles cfg k rest)
      (fun _ s' => Filling before loc parts k s'.disk)
      (fun _ s' => Filling before loc parts k s'.disk) s := by
  induction rest generalizing s with
  | nil => exact h
  | cons f rest ih =>
    obtain ⟨hmem, hsub⟩ := List.cons_subset.mp hrest
    refine (wpE_bind _ _ _).mpr ((wpE_bind _ _ _).mpr ⟨trivial, ?_⟩)
    cases hf : faults.fault (.writeFile k f.name f.data) with
    | some fault =>
      rw [execFaulty_fault rfl hf]
      exact h.writeFile_halfDone hmem (faults.halfDone hf s.disk)
    | none =>
      rw [execFaulty_eq hf]
      have hnext := h.writeFile hmem s.wall
      refine wpE_orRaise.mpr ?_
      split
      · exact (wpE_bind _ _ _).mpr (wpE_mono (fun _ _ h => h) (fun _ _ h => h) (ih hnext hsub))
      · exact hnext

private theorem wpE_faulty_fillBundle (h : Filling before loc parts k s.disk) :
    wpE (execFaulty cfg env faults) (fun _ _ => True)
      (fillBundle cfg k parts sender contentType bundleId)
      (fun m s' => m.bundleId = bundleId ∧ cfg.backend.metaAt s'.disk.tree loc = some m ∧
        ∀ q, q ≠ loc ++ [bundleManifest] → ¬Leads loc parts q → s'.disk.tree.fileAt q =
          if q = loc ++ [bundleManifestTmp] then none else before.fileAt q)
      (fun _ s' => Filling before loc parts k s'.disk) s := by
  refine (wpE_bind _ _ _).mpr (wpE_mono (fun records s₁ hw => ?_) (fun _ _ hw => hw)
    (wpE_faulty_writeFiles h (List.Subset.refl parts)))
  refine (wpE_bind _ _ _).mpr (wpE_faulty_now.mpr ⟨trivial, ?_⟩)
  refine (wpE_bind _ _ _).mpr ((wpE_bind _ _ _).mpr ⟨trivial, ?_⟩)
  have hw' : Filling before loc parts k s₁.timed.disk := hw
  generalize s₁.timed = s₂ at hw' ⊢
  cases hf : faults.fault (.commit k
      { bundleId, sender, createdAt := s₁.reading, contentType,
        fileCount := records.length, files := records }) with
  | some fault =>
    rw [execFaulty_fault rfl hf]
    exact hw'.commit_halfDone (faults.halfDone hf s₂.disk)
  | none =>
    rw [execFaulty_eq hf]
    have hc := hw'.commit cfg s₂.wall
      { bundleId, sender, createdAt := s₁.reading, contentType,
        fileCount := records.length, files := records }
    refine wpE_orRaise.mpr ?_
    split
    · rename_i heq
      change (Backend.commit _ _ _ _).1 = _ at heq
      rw [heq] at hc
      exact ⟨rfl, hc⟩
    · rename_i heq
      change (Backend.commit _ _ _ _).1 = _ at heq
      rw [heq] at hc
      exact hc

end Fill

variable (env faults parts sender contentType bundleId) in
/-- A write where no file is puts its manifest in place when it goes through, and changes no
place but those its parts lead to. One that fails leaves every file as it was but where its
parts lead out of the directory. -/
theorem wpE_faulty_writeBundle {loc : List String} (hspell : cfg.backend.resolve path = spell loc)
    (hnone : ∀ q, StrictlyInside loc q → s.disk.tree.fileAt q = none) :
    wpE (execFaulty cfg env faults) (fun _ _ => True)
      (writeBundle cfg path parts sender contentType bundleId)
      (fun m s' => m.bundleId = bundleId ∧ cfg.backend.metaAt s'.disk.tree loc = some m ∧
        ∀ q, q ≠ loc ++ [bundleManifest] → ¬Leads loc parts q →
          s'.disk.tree.fileAt q = s.disk.tree.fileAt q)
      (fun _ s' => ∀ q, (Leads loc parts q → StrictlyInside loc q) →
        s'.disk.tree.fileAt q = s.disk.tree.fileAt q) s := by
  have hcall : exec cfg env (.openBundleWrite path) s =
      ((cfg.backend.openBundleWrite s.wall path s.disk).1,
        s.setDisk (cfg.backend.openBundleWrite s.wall path s.disk).2) := rfl
  rw [writeBundle_eq]
  refine (wpE_bind _ _ _).mpr ⟨trivial, (wpE_bind _ _ _).mpr ?_⟩
  cases hf : faults.fault (.openBundleWrite path) with
  | some fault =>
    rw [execFaulty_fault rfl hf]
    exact fun q _ => ((faults.halfDone hf s.disk).files q).resolve_right fun h => h
  | none =>
    rw [execFaulty_eq hf, hcall]
    rcases Backend.openBundleWrite_cases (b := cfg.backend) s.wall path s.disk with
      ⟨e, t, heq, hgrown⟩ | ⟨e, heq⟩ | ⟨t, t', -, hgrown, hmk, heq⟩
    · rw [heq]
      exact fun q _ => congrFun hgrown.fileAt_eq q
    · rw [heq]
      exact fun _ _ => rfl
    · rw [heq]
      have hfiles : t'.fileAt = s.disk.tree.fileAt :=
        (Tree.grown_of_mkdir hmk).fileAt_eq.trans hgrown.fileAt_eq
      have hopen : Filling s.disk.tree loc parts s.disk.nextWriter
          { s.disk.setTree s.wall t' with
            writers := Function.update s.disk.writers s.disk.nextWriter
              (some ⟨cfg.backend.resolve path, []⟩)
            nextWriter := s.disk.nextWriter + 1 } :=
        ⟨⟨[], by rw [← hspell]; exact Function.update_self ..⟩, fun q _ _ => congrFun hfiles q⟩
      refine wpE_orRaise.mpr ((wpE_tryCatch _ _).mpr
        (wpE_mono (fun m s₂ hm => ?_) (fun e s₂ hw => ?_) (wpE_faulty_fillBundle hopen)))
      · refine ⟨hm.1, hm.2.1, fun q hq hlead => ?_⟩
        rw [hm.2.2 q hq hlead]
        split
        · rename_i htmp
          rw [hnone q (htmp ▸ strictlyInside_concat _ _)]
        · rfl
      · refine (wpE_bind _ _ _).mpr ⟨trivial, fun q hq => ?_⟩
        by_cases hin : StrictlyInside loc q
        · rw [hnone q hin]
          exact (hw.abort s₂.wall).1 hin
        · exact (hw.abort s₂.wall).2 hin fun hlead => hin (hq hlead)

end Bundle

end Faulty

end Cassetta
