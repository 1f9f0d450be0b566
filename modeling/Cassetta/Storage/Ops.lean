import Cassetta.Core.Runs
import Cassetta.Storage.Effects

/-!
# Runs of backend calls

The calls of any number of writers and deleters, one after the other in any order. A pass of
`gc.sweep` is, for each namespace, one listing followed by the deletes it calls for; a pass
that is interleaved with other calls is covered by single deletes.
-/

namespace Cassetta

open FileTree

/-! ## Locations -/

/-- Where a file name leads from a bundle's location. -/
def fileLoc (loc : List String) (name : String) : List String :=
  if isAbsolute name then normalize (steps name) else normalizeFrom loc (steps name)

/-- A name leads below the directory it is joined to. -/
theorem normalize_joinPath (dir : List (Step String)) (name : String) :
    normalize (joinPath dir name) = fileLoc (normalize dir) name := by
  unfold joinPath fileLoc
  split
  · rfl
  · rw [normalize_append]

/-- A name leads below the location of its writer. -/
theorem Writer.normalize_target (w : Writer) (name : String) :
    normalize (w.target name) = fileLoc w.loc name := normalize_joinPath _ _

/-- One location is the other or lies above it. -/
def Comparable (a c : List String) : Prop := a <+: c ∨ c <+: a

instance (a c : List String) : Decidable (Comparable a c) := inferInstanceAs (Decidable (_ ∨ _))

/-- Two locations above a third are comparable. -/
theorem comparable_of_below {a c q : List String} (ha : a <+: q) (hc : c <+: q) :
    Comparable a c := List.prefix_or_prefix_of_prefix ha hc

/-- Strictly inside a directory. -/
def StrictlyInside (dir q : List String) : Prop := dir <+: q ∧ q ≠ dir

instance (dir q : List String) : Decidable (StrictlyInside dir q) :=
  inferInstanceAs (Decidable (_ ∧ _))

/-- What is one step below a directory is strictly inside. -/
theorem strictlyInside_concat (dir : List String) (k : String) :
    StrictlyInside dir (dir ++ [k]) := ⟨List.prefix_append _ _, by simp⟩

/-! ## gc.sweep -/

/-- `_NAMESPACES`. -/
def gcNamespaces : List String := ["inbox/", "store/"]

namespace Backend

variable (b : Backend)

/-- The orphans of one namespace that a sweep would delete. -/
def sweepTargets (now : Nat) (minAge : Nat) (pre : String) (d : Disk) : List String :=
  match b.listBundles d pre true with
  | .error _ => []
  | .ok refs => (refs.filter fun r =>
      ¬r.hasMeta ∧ ¬now < r.mtime + secondsToMicros minAge).map (·.path)

/-- The loop of `sweep` over one namespace; a delete that fails is skipped. -/
def sweepNamespace (now : Nat) (minAge : Nat) (pre : String) (d : Disk) : Disk :=
  (b.sweepTargets now minAge pre d).foldl (fun d path => (b.deleteBundle now path d).2) d

/-- `gc.sweep`. -/
def sweep (now : Nat) (minAge : Nat) (d : Disk) : Disk :=
  gcNamespaces.foldl (fun d pre => b.sweepNamespace now minAge pre d) d

end Backend

/-! ## Calls -/

/-- One backend call, with the moment it is made. -/
inductive BackendOp where
  | openBundleWrite (now : Nat) (path : String)
  | writeFile (now : Nat) (handle : Nat) (name : String) (data : Bytes)
  | commit (now : Nat) (handle : Nat) (m : BundleMeta)
  | abort (now : Nat) (handle : Nat)
  | deleteBundle (now : Nat) (path : String)
  | sweepNamespace (now : Nat) (minAge : Nat) (pre : String)

/-- The disk after a call. -/
def Backend.step (b : Backend) (d : Disk) : BackendOp → Disk
  | .openBundleWrite now path => (b.openBundleWrite now path d).2
  | .writeFile now h name data => (Backend.writeFile now h name data d).2
  | .commit now h m => (Backend.commit now h m d).2
  | .abort now h => Backend.abort now h d
  | .deleteBundle now path => (b.deleteBundle now path d).2
  | .sweepNamespace now minAge pre => b.sweepNamespace now minAge pre d

/-! ## Where file contents come from -/

/-- The file contents a call puts in place when it goes through: what a writer writes, and
the manifest of a commit under its final or its temporary name. -/
def BackendOp.puts (d : Disk) : BackendOp → List (List String × Blob)
  | .writeFile _ h name data =>
    match d.writers h with
    | some w => [(fileLoc w.loc name, .raw data)]
    | none => []
  | .commit _ h m =>
    match d.writers h with
    | some w =>
      if Backend.commitCheck w m = .ok () then
        [(w.loc ++ [bundleManifest], .manifest m d.commits.length),
          (w.loc ++ [bundleManifestTmp], .manifest m d.commits.length)]
      else []
    | none => []
  | _ => []

/-- A manifest that a call puts in place carries the number of the next commit. -/
theorem BackendOp.puts_manifest {d : Disk} {op : BackendOp} {q : List String} {m : BundleMeta}
    {n : Nat} (h : (q, .manifest m n) ∈ op.puts d) : n = d.commits.length := by
  cases op with
  | writeFile now k name data =>
    simp only [puts] at h
    split at h <;> simp at h
  | commit now k m' =>
    simp only [puts] at h
    split at h
    · split at h
      · simp only [List.mem_cons, Prod.mk.injEq, Blob.manifest.injEq, List.not_mem_nil,
          or_false] at h
        rcases h with ⟨-, -, h⟩ | ⟨-, -, h⟩ <;> exact h
      · cases h
    · cases h
  | _ => cases h

/-- A file that a delete leaves was there. -/
theorem Backend.deleteBundle_fileAt_some {b : Backend} {now : Nat} {path : String} {d : Disk}
    {q : List String} {blob : Blob} (h : (b.deleteBundle now path d).2.tree.fileAt q = some blob) :
    d.tree.fileAt q = some blob := by
  rw [deleteBundle_fileAt] at h
  split at h
  · cases h
  · exact h

private theorem Backend.sweepNamespace_fileAt_some {b : Backend} {now minAge : Nat} {pre : String}
    {d : Disk} {q : List String} {blob : Blob}
    (h : (b.sweepNamespace now minAge pre d).tree.fileAt q = some blob) :
    d.tree.fileAt q = some blob := by
  unfold sweepNamespace at h
  generalize b.sweepTargets now minAge pre d = targets at h
  induction targets generalizing d with
  | nil => exact h
  | cons path rest ih => exact deleteBundle_fileAt_some (ih h)

/-- Every file of the disk after a call was there before, or the call put it there. -/
theorem Backend.step_fileAt {b : Backend} {d : Disk} {op : BackendOp} {q : List String}
    {blob : Blob} (h : (b.step d op).tree.fileAt q = some blob) :
    d.tree.fileAt q = some blob ∨ (q, blob) ∈ op.puts d := by
  cases op with
  | openBundleWrite now path =>
    left
    rcases openBundleWrite_cases (b := b) now path d with
      ⟨e, t, heq, hg⟩ | ⟨e, heq⟩ | ⟨t, t', -, hg, hm, heq⟩
    · rw [step, heq] at h
      rwa [← hg.fileAt_eq]
    · rwa [step, heq] at h
    · rw [step, heq] at h
      rwa [← hg.fileAt_eq, ← (Tree.grown_of_mkdir hm).fileAt_eq]
  | writeFile now k name data =>
    rcases writeFile_cases now k name data d with ⟨e, heq⟩ | ⟨w, hw, -, -, hrest⟩
    · rw [step, heq] at h
      exact .inl h
    · rcases hrest with ⟨e, t, heq, hg⟩ | ⟨t, t', hg, hwr, heq⟩
      · rw [step, heq] at h
        left
        rwa [← hg.fileAt_eq]
      · rw [step, heq] at h
        simp only [Disk.setTree_tree, Tree.fileAt_write hwr, hg.fileAt_eq] at h
        by_cases hq : q = normalize (w.target name)
        · subst hq
          rw [Function.update_self] at h
          right
          simp [BackendOp.puts, hw, w.normalize_target name, Option.some.inj h]
        · rw [Function.update_of_ne hq] at h
          exact .inl h
  | commit now k m =>
    rcases commit_cases now k m d with ⟨e, heq⟩ | ⟨w, hw, hc, hrest⟩
    · rw [step, heq] at h
      exact .inl h
    · rcases hrest with ⟨e, t, heq, hf⟩ | ⟨t, t', heq, hf⟩
      · rw [step, heq] at h
        simp only [Disk.setTree_tree, hf] at h
        by_cases hq : q = w.loc ++ [bundleManifestTmp]
        · subst hq
          rw [Function.update_self] at h
          right
          simp [BackendOp.puts, hw, hc, Option.some.inj h]
        · rw [Function.update_of_ne hq] at h
          exact .inl h
      · rw [step, heq] at h
        simp only [Disk.setTree_tree, hf] at h
        by_cases hq : q = w.loc ++ [bundleManifest]
        · subst hq
          rw [Function.update_self] at h
          right
          simp [BackendOp.puts, hw, hc, Option.some.inj h]
        · rw [Function.update_of_ne hq] at h
          by_cases hq' : q = w.loc ++ [bundleManifestTmp]
          · subst hq'
            simp at h
          · rw [Function.update_of_ne hq'] at h
            exact .inl h
  | abort now k =>
    left
    cases hw : d.writers k with
    | none => simpa [step, abort, hw] using h
    | some w =>
      rw [step, abort_fileAt hw] at h
      split at h
      · cases h
      · exact h
  | deleteBundle now path => exact .inl (deleteBundle_fileAt_some h)
  | sweepNamespace now minAge pre => exact .inl (sweepNamespace_fileAt_some h)

/-! ## The numbers of commits -/

/-- A sweep leaves the log of commits. -/
theorem Backend.sweepNamespace_commits (b : Backend) (now minAge : Nat) (pre : String) (d : Disk) :
    (b.sweepNamespace now minAge pre d).commits = d.commits := by
  unfold sweepNamespace
  generalize b.sweepTargets now minAge pre d = targets
  induction targets generalizing d with
  | nil => rfl
  | cons path rest ih => exact (ih _).trans (deleteBundle_rest now path d).2.2

/-- Commits are only added. -/
theorem Backend.step_commits (b : Backend) (d : Disk) (op : BackendOp) :
    d.commits <+: (b.step d op).commits := by
  cases op with
  | openBundleWrite now path =>
    rcases openBundleWrite_cases (b := b) now path d with
      ⟨e, t, heq, -⟩ | ⟨e, heq⟩ | ⟨t, t', -, -, -, heq⟩ <;> simp [step, heq]
  | writeFile now k name data =>
    rcases writeFile_cases now k name data d with
      ⟨e, heq⟩ | ⟨w, -, -, -, ⟨e, t, heq, -⟩ | ⟨t, t', -, -, heq⟩⟩ <;> simp [step, heq]
  | commit now k m =>
    rcases commit_cases now k m d with
      ⟨e, heq⟩ | ⟨w, -, -, ⟨e, t, heq, -⟩ | ⟨t, t', heq, -⟩⟩ <;> simp [step, heq]
  | abort now k =>
    cases hw : d.writers k <;> simp [step, abort, hw]
  | deleteBundle now path => simp [step, (deleteBundle_rest (b := b) now path d).2.2]
  | sweepNamespace now minAge pre => simp [step, sweepNamespace_commits]

/-- The manifest in a bundle directory carries the number of a commit made there. -/
def Numbered (d : Disk) : Prop :=
  ∀ l m n, d.tree.fileAt (l ++ [bundleManifest]) = some (.manifest m n) →
    ∃ c, d.commits[n]? = some c ∧ c.loc = l

/-- An item of a list is in every extension at its place. -/
theorem getElem?_of_extends {α : Type} {l l' : List α} (h : l <+: l') {n : Nat} {a : α}
    (ha : l[n]? = some a) : l'[n]? = some a := by
  obtain ⟨rest, rfl⟩ := h
  rw [List.getElem?_append_left (List.getElem?_eq_some_iff.mp ha).1, ha]

/-- Every operation keeps the writers numbered. -/
theorem Numbered.step {b : Backend} {d : Disk} (h : Numbered d) (op : BackendOp) :
    Numbered (b.step d op) := by
  intro l m n hf
  have hold : d.tree.fileAt (l ++ [bundleManifest]) = some (.manifest m n) →
      ∃ c, (b.step d op).commits[n]? = some c ∧ c.loc = l := fun hf => by
    obtain ⟨c, hc, hl⟩ := h l m n hf
    exact ⟨c, getElem?_of_extends (b.step_commits d op) hc, hl⟩
  rcases Backend.step_fileAt hf with hf' | hput
  · exact hold hf'
  cases op with
  | commit now k m' =>
    rcases Backend.commit_cases now k m' d with ⟨e, heq⟩ | ⟨w, hw, -, hrest⟩
    · rw [Backend.step, heq] at hf
      exact hold hf
    · have htmp : l ++ [bundleManifest] ≠ w.loc ++ [bundleManifestTmp] := by
        simp [Backend.tmp_ne_manifest.symm]
      rcases hrest with ⟨e, t, heq, hfiles⟩ | ⟨t, t', heq, hfiles⟩
      · simp only [Backend.step, heq, Disk.setTree_tree, hfiles] at hf
        rw [Function.update_of_ne htmp] at hf
        exact hold hf
      · simp only [Backend.step, heq, Disk.setTree_tree, hfiles] at hf
        by_cases hq : l = w.loc
        · subst hq
          rw [Function.update_self] at hf
          obtain ⟨-, rfl⟩ := Blob.manifest.inj (Option.some.inj hf)
          exact ⟨⟨w.loc, m', w.written⟩, by simp [Backend.step, heq], rfl⟩
        · rw [Function.update_of_ne (by simpa using hq), Function.update_of_ne htmp] at hf
          exact hold hf
  | writeFile now k name data =>
    simp only [BackendOp.puts] at hput
    split at hput <;> simp at hput
  | _ => cases hput

/-- A whole pass of `gc.sweep` is two steps of a run. -/
theorem Backend.sweep_eq_run (b : Backend) (now : Nat) (minAge : Nat) (d : Disk) :
    b.sweep now minAge d = Runs.run b.step d
      [.sweepNamespace now minAge "inbox/", .sweepNamespace now minAge "store/"] := rfl

end Cassetta
