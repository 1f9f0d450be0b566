import Cassetta.Storage.Listing
import Cassetta.Storage.RoundTrip

/-!
# When a bundle is seen

A reader finds a bundle by the file `meta.json` in its directory. The writer puts that file in
place with a rename at the end; the files of the client go into the same directory before, so
a name that leads to `meta.json` shows the bundle too early.
-/

namespace Cassetta

open FileTree

/-! ## One writer -/

/-- A call on an open writer. -/
inductive WriterCall where
  | writeFile (now : Nat) (name : String) (data : Bytes)
  | commit (now : Nat) (m : BundleMeta)
  | abort (now : Nat)

def WriterCall.op (handle : Nat) : WriterCall → BackendOp
  | .writeFile now name data => .writeFile now handle name data
  | .commit now m => .commit now handle m
  | .abort now => .abort now handle

/-- The manifest a call puts in place for good. -/
def WriterCall.commits (handle : Nat) (d : Disk) : WriterCall → Option BundleMeta
  | .commit now m => if (Backend.commit now handle m d).1 = .ok () then some m else none
  | _ => none

/-- A file that does not lead to the manifest of the bundle. -/
def WriterCall.Clear (loc : List String) : WriterCall → Prop
  | .writeFile _ name _ => fileLoc loc name ≠ loc ++ [bundleManifest]
  | _ => True

namespace Backend

variable (b : Backend)

/-- The disk after some calls on a writer. -/
def runWriter (handle : Nat) (d : Disk) (calls : List WriterCall) : Disk :=
  Runs.run (fun d c => b.step d (WriterCall.op handle c)) d calls

/-- The manifest that the calls have committed. -/
def committedBy (handle : Nat) : Disk → List WriterCall → Option BundleMeta
  | _, [] => none
  | d, c :: rest =>
    match c.commits handle d with
    | some m => some m
    | none => committedBy handle (b.step d (c.op handle)) rest

/-- A listing shows a bundle at a location. -/
def Reports (d : Disk) (loc : List String) : Prop :=
  ∃ pre orphans refs r, b.listBundles d pre orphans = .ok refs ∧ r ∈ refs ∧ r.hasMeta = true ∧
    b.location r.path = loc

variable {b} {d d' : Disk} {path : String} {handle : Nat}

/-- Without a file `meta.json` there is nothing to see. -/
theorem unseen_of_fileAt (hnamed : Named d.tree)
    (h : d.tree.fileAt (b.location path ++ [bundleManifest]) = none) :
    b.readBundleMeta d.tree path = none ∧ ¬b.Reports d (b.location path) := by
  constructor
  · rw [readBundleMeta, Option.bind_eq_none_iff]
    intro blob hr
    have hf := fileAt_of_readFile hr
    rw [normalize_metaPath, ← location, h] at hf
    cases hf
  · rintro ⟨pre, orphans, refs, r, hl, hr, hmeta, hloc⟩
    obtain ⟨x, -, hres, -, -, hs⟩ := resolve_of_mem_listBundles hnamed hl hr
    rw [location_of_resolve hres] at hloc
    rw [hloc] at hs
    rcases hs with ⟨hmem, -⟩ | ⟨-, -, -, hno⟩
    · obtain ⟨c, hc⟩ := mem_fileNames.mp hmem
      rw [h] at hc
      cases hc
    · rw [hmeta] at hno
      cases hno

/-- A closed writer does nothing more. -/
theorem runWriter_closed (h : d.writers handle = none) (calls : List WriterCall) :
    b.runWriter handle d calls = d ∧ b.committedBy handle d calls = none := by
  induction calls with
  | nil => exact ⟨rfl, rfl⟩
  | cons c rest ih =>
    have hstep : b.step d (c.op handle) = d ∧ c.commits handle d = none := by
      cases c <;> simp [WriterCall.op, WriterCall.commits, step, writeFile, commit, abort, h]
    refine ⟨?_, ?_⟩
    · rw [runWriter, Runs.run_cons, hstep.1]
      exact ih.1
    · rw [committedBy, hstep.2, hstep.1]
      exact ih.2

/-! ## One call -/

/-- A writer is open and its bundle is not to be seen. -/
structure Unseen (b : Backend) (handle : Nat) (path : String) (d : Disk) : Prop where
  writer : ∃ written, d.writers handle = some ⟨b.resolve path, written⟩
  named : Named d.tree
  free : d.tree.fileAt (b.location path ++ [bundleManifest]) = none

/-- What a call on an open writer leads to. -/
def Follows (b : Backend) (handle : Nat) (path : String) (d : Disk)
    (committed : Option BundleMeta) :
    Prop :=
  committed = none ∧ Unseen b handle path d ∨
    d.writers handle = none ∧
      ((∃ m, committed = some m ∧ b.readBundleMeta d.tree path = some m) ∨
        committed = none ∧ Named d.tree ∧
          d.tree.fileAt (b.location path ++ [bundleManifest]) = none)

variable (hroot : ∀ k ∈ b.root, FileName k)
include hroot

/-- A write leaves a bundle unseen. -/
theorem Unseen.writeFile (h : Unseen b handle path d) {now : Nat} {name : String} {data : Bytes}
    (hclear : WriterCall.Clear (b.location path) (.writeFile now name data)) :
    Unseen b handle path (Backend.writeFile now handle name data d).2 := by
  obtain ⟨written, hw⟩ := h.writer
  have hproper : ∀ w : Writer, d.writers handle = some w → Proper (w.target name) := by
    intro w hw'
    obtain rfl := Option.some.inj (hw.symm.trans hw')
    exact proper_joinPath (proper_resolve hroot path) name
  rcases writeFile_cases now handle name data d with
    ⟨e, heq⟩ | ⟨w, hw', -, -, ⟨e, t, heq, hg⟩ | ⟨t, t', hg, hwr, heq⟩⟩
  · rw [heq]
    exact h
  · rw [heq]
    exact ⟨⟨written, hw⟩, h.named.grown (hproper w hw') hg,
      by rw [Disk.setTree_tree, hg.fileAt_eq, h.free]⟩
  · rw [heq]
    refine ⟨⟨written ++ [(name, data)], ?_⟩,
      (h.named.grown (hproper w hw') hg).write (hproper w hw') hwr, ?_⟩
    · obtain rfl := Option.some.inj (hw.symm.trans hw')
      exact Function.update_self ..
    · obtain rfl := Option.some.inj (hw.symm.trans hw')
      have hne : b.location path ++ [bundleManifest] ≠ fileLoc (b.location path) name := hclear.symm
      have hloc : Writer.loc ⟨b.resolve path, written⟩ = b.location path := rfl
      rw [Disk.setTree_tree, Tree.fileAt_write hwr, hg.fileAt_eq, Writer.normalize_target, hloc,
        Function.update_of_ne hne, h.free]

/-- A commit shows a bundle, or leaves it unseen. -/
theorem Unseen.commit (h : Unseen b handle path d) (now : Nat) (m : BundleMeta) :
    Follows b handle path (Backend.commit now handle m d).2
      (WriterCall.commits handle d (.commit now m)) := by
  obtain ⟨written, hw⟩ := h.writer
  have hdir := proper_resolve hroot path
  have htmp : Proper (tmpPath (b.resolve path)) :=
    hdir.append fun k hk => by simp at hk; subst hk; decide
  rcases hc : Backend.commit now handle m d with ⟨r, d'⟩
  cases r with
  | ok u =>
    obtain ⟨-, -, hmeta, hfiles⟩ := commit_ok hc hw
    right
    have hclosed : d'.writers handle = none := by
      rcases commit_cases now handle m d with
        ⟨e, heq⟩ | ⟨w, -, -, ⟨e, t, heq, -⟩ | ⟨t, t', heq, -⟩⟩
      · rw [heq] at hc
        cases hc
      · rw [heq] at hc
        cases hc
      · rw [heq] at hc
        obtain ⟨-, rfl⟩ := Prod.mk.inj hc
        exact Function.update_self ..
    refine ⟨hclosed, .inl ⟨m, by simp [WriterCall.commits, hc], ?_⟩⟩
    have hloc : Writer.loc ⟨b.resolve path, written⟩ = b.location path := rfl
    rw [readBundleMeta, KeepsDirs.readFile (fun q hq => hq) hmeta, hfiles, normalize_metaPath, hloc,
      ← location, Function.update_self]
    rfl
  | error err =>
    left
    refine ⟨by simp [WriterCall.commits, hc], ?_⟩
    unfold Backend.commit at hc
    rw [hw] at hc
    simp only at hc
    split at hc
    · obtain ⟨-, rfl⟩ := Prod.mk.inj hc
      exact h
    · split at hc
      · obtain ⟨-, rfl⟩ := Prod.mk.inj hc
        exact h
      · rename_i t ht
        split at hc
        · obtain ⟨-, rfl⟩ := Prod.mk.inj hc
          refine ⟨⟨written, hw⟩, h.named.write htmp ht, ?_⟩
          rw [Disk.setTree_tree, Tree.fileAt_write ht, normalize_tmpPath, ← location,
            Function.update_of_ne (append_tmp_ne_manifest _ _), h.free]
        · cases (Prod.mk.inj hc).1

/-- A call of the writer shows a bundle exactly if it commits it. -/
theorem Unseen.step (h : Unseen b handle path d) {c : WriterCall}
    (hclear : c.Clear (b.location path)) :
    Follows b handle path (b.step d (c.op handle)) (c.commits handle d) := by
  cases c with
  | writeFile now name data => exact .inl ⟨rfl, h.writeFile hroot hclear⟩
  | commit now m => exact h.commit hroot now m
  | abort now =>
    obtain ⟨written, hw⟩ := h.writer
    right
    have hab : b.step d (WriterCall.op handle (.abort now)) =
        { d.setTree now (d.tree.rmtree (b.resolve path)).2 with
          writers := Function.update d.writers handle none } := by
      simp [WriterCall.op, Backend.step, abort, hw]
    rw [hab]
    refine ⟨Function.update_self .., .inr ⟨rfl, h.named.rmtree _, ?_⟩⟩
    rw [Disk.setTree_tree, rmtree_fileAt]
    split
    · rfl
    · exact h.free

/-! ## Whole writes -/

/-- Calls of the writer show a bundle exactly if they commit it. -/
theorem Unseen.run (h : Unseen b handle path d) {calls : List WriterCall}
    (hclear : ∀ c ∈ calls, c.Clear (b.location path)) :
    b.readBundleMeta (b.runWriter handle d calls).tree path = b.committedBy handle d calls ∧
      (b.committedBy handle d calls = none →
        ¬b.Reports (b.runWriter handle d calls) (b.location path)) := by
  induction calls generalizing d with
  | nil =>
    obtain ⟨hread, hlist⟩ := unseen_of_fileAt h.named h.free
    exact ⟨hread, fun _ => hlist⟩
  | cons c rest ih =>
    have hrun : b.runWriter handle d (c :: rest) =
        b.runWriter handle (b.step d (c.op handle)) rest := rfl
    rw [hrun, committedBy]
    rcases h.step hroot (hclear c (by simp)) with ⟨hnone, hnext⟩ | ⟨hclosed, hend⟩
    · rw [hnone]
      exact ih hnext fun c' hc' => hclear c' (by simp [hc'])
    · obtain ⟨hsame, hno⟩ := runWriter_closed hclosed rest
      rw [hsame]
      rcases hend with ⟨m, hsome, hread⟩ | ⟨hnone, hnamed, hfree⟩
      · rw [hsome]
        exact ⟨hread, fun hc => by cases hc⟩
      · rw [hnone, hno]
        obtain ⟨hread, hlist⟩ := unseen_of_fileAt hnamed hfree
        exact ⟨hread, fun _ => hlist⟩

/-- Before the writer is opened, and at every point of a write none of whose names leads to
`meta.json`, readers see the manifest that was committed, and nothing as long as none was. -/
theorem write_visible (hnamed : Named d.tree) {now : Nat} {d₁ : Disk}
    (hopen : b.openBundleWrite now path d = (.ok handle, d₁)) :
    (b.readBundleMeta d.tree path = none ∧ ¬b.Reports d (b.location path)) ∧
      ∀ calls : List WriterCall, (∀ c ∈ calls, c.Clear (b.location path)) →
        b.readBundleMeta (b.runWriter handle d₁ calls).tree path =
            b.committedBy handle d₁ calls ∧
          (b.committedBy handle d₁ calls = none →
            ¬b.Reports (b.runWriter handle d₁ calls) (b.location path)) := by
  rcases openBundleWrite_cases (b := b) now path d with
    ⟨e, t, heq, -⟩ | ⟨e, heq⟩ | ⟨t, t', -, hg, hm, heq⟩
  · rw [heq] at hopen
    cases hopen
  · rw [heq] at hopen
    cases hopen
  · rw [heq] at hopen
    obtain ⟨hh, rfl⟩ := Prod.mk.inj hopen
    obtain rfl := Except.ok.inj hh
    have hproper := proper_resolve hroot path
    have hgm := Tree.grown_of_mkdir hm
    have hfree : d.tree.fileAt (b.location path ++ [bundleManifest]) = none := by
      refine Option.eq_none_iff_forall_ne_some.mpr fun blob hf => ?_
      have hin := Tree.get_dropLast (Tree.fileAt_eq_some_iff.mp hf)
      rw [List.dropLast_concat] at hin
      have hno := (Tree.mkdir_ok hm).2.1
      rw [← location, hg.get_some hin] at hno
      cases hno
    refine ⟨unseen_of_fileAt hnamed hfree, fun calls hclear => Unseen.run hroot ?_ hclear⟩
    refine ⟨⟨[], Function.update_self ..⟩, (hnamed.grown hproper hg).grown hproper hgm, ?_⟩
    rw [Disk.setTree_tree, hgm.fileAt_eq, hg.fileAt_eq, hfree]

end Backend

/-! ## On a small disk -/

/-- The tree of the small server is named. -/
theorem named_srvTree : Named srvTree := named_of_entries (by decide)

/-- A write, looked at before its commit and after it. -/
theorem write_visible_single :
    ∃ d₁, srvBackend.openBundleWrite 0 "store/p" (Disk.init srvTree) = (.ok 0, d₁) ∧
      srvBackend.readBundleMeta
          (srvBackend.runWriter 0 d₁ [.writeFile 0 "a" [1]]).tree "store/p" = none ∧
      srvBackend.readBundleMeta (srvBackend.runWriter 0 d₁
        [.writeFile 0 "a" [1], .commit 0 (smallMeta ["a"])]).tree "store/p" =
          some (smallMeta ["a"]) := by
  have hopen : srvBackend.openBundleWrite 0 "store/p" (Disk.init srvTree) =
      (.ok 0, srvBackend.step (Disk.init srvTree) (.openBundleWrite 0 "store/p")) :=
    Prod.ext (by decide +kernel) rfl
  obtain ⟨-, hall⟩ := Backend.write_visible (by decide) named_srvTree hopen
  have hclear : ∀ c ∈ [WriterCall.writeFile 0 "a" [1], .commit 0 (smallMeta ["a"])],
      c.Clear (srvBackend.location "store/p") := by
    intro c hc
    simp only [List.mem_cons, List.not_mem_nil, or_false] at hc
    rcases hc with rfl | rfl
    · show fileLoc _ _ ≠ _
      decide
    · trivial
  refine ⟨_, hopen, ?_, ?_⟩
  · rw [(hall [.writeFile 0 "a" [1]] fun c hc => hclear c (by simp_all)).1]
    rfl
  · rw [(hall _ hclear).1]
    decide +kernel

/-- A file `./meta.json`, which an accepted manifest may name, shows the bundle before its
commit. -/
theorem write_visible_early :
    validateManifest ["./meta.json"] = .ok () ∧
      (srvBackend.openBundleWrite 0 "store/p" (Disk.init srvTree)).1 = .ok 0 ∧
      srvBackend.committedBy 0 (srvBackend.openBundleWrite 0 "store/p" (Disk.init srvTree)).2
        [.writeFile 0 "./meta.json" [1]] = none ∧
      srvBackend.Reports (srvBackend.runWriter 0
        (srvBackend.openBundleWrite 0 "store/p" (Disk.init srvTree)).2
        [.writeFile 0 "./meta.json" [1]]) (srvBackend.location "store/p") := by
  refine ⟨by decide, by decide +kernel, by decide +kernel,
    "store/", false, [⟨"store/p", true, 0⟩], ⟨"store/p", true, 0⟩, ?_, by simp, rfl, rfl⟩
  decide +kernel

end Cassetta
