import Cassetta.Server.Writing

/-!
# A bundle until it is committed

The surfaces that write a manifest's files open the bundle, write, commit, and abort when
something fails. Here is what the tree looks like in between and after an abort, directories
included: opening makes the directories above the bundle, and these are never taken away.
-/

namespace Cassetta

open Prog FileTree

variable {cfg : Config} {env : Environment}

/-! ## Opening -/

namespace Backend

variable (b : Backend)

/-- The tree after the directories above a bundle have been made, as far as that goes. -/
def above (t : DataTree) (path : String) : DataTree :=
  (t.mkdirParents (b.resolve path).dropLast).2

/-- The way to a path does not lead through its end, as far as directories can be made on it. -/
def StaysFree (t : DataTree) (path : String) : Prop :=
  ∀ pre, pre <+: (b.resolve path).dropLast → normalize pre = b.location path → ¬t.Passable pre

instance (t : DataTree) (path : String) : Decidable (b.StaysFree t path) :=
  decidable_of_iff (∀ pre ∈ (b.resolve path).dropLast.inits, normalize pre = b.location path →
    ¬t.Passable pre) (by simp only [StaysFree, List.mem_inits])

/-- Every directory above a bundle that can be made is there already. -/
def Prepared (t : DataTree) (path : String) : Prop :=
  ∀ pre, pre <+: (b.resolve path).dropLast → t.Passable pre → t.get (normalize pre) ≠ none

instance (t : DataTree) (path : String) : Decidable (b.Prepared t path) :=
  decidable_of_iff (∀ pre ∈ (b.resolve path).dropLast.inits, t.Passable pre →
    t.get (normalize pre) ≠ none) (by simp only [Prepared, List.mem_inits])

variable {b} {t : DataTree} {path : String}

/-- Making the directories above a bundle grows the tree. -/
theorem grown_above : Tree.Grown (b.resolve path).dropLast t (b.above t path) :=
  Tree.grown_mkdirParents _ _

/-- The directories above a free path leave it free, or they make it. -/
theorem above_location (hfree : t.get (b.location path) = none) :
    (b.above t path).get (b.location path) = if b.StaysFree t path then none else some .dir := by
  by_cases hstays : b.StaysFree t path
  · rw [if_pos hstays]
    rcases @grown_above b t path (b.location path) with he | ⟨-, hd, -⟩
    · exact he.trans hfree
    · obtain ⟨pre, hp, hl, hpass⟩ := (Tree.mkdirParents_get_iff hfree).mp hd
      exact absurd hpass (hstays pre hp hl)
  · rw [if_neg hstays]
    simp only [StaysFree, not_forall, not_not] at hstays
    obtain ⟨pre, hp, hl, hpass⟩ := hstays
    exact (Tree.mkdirParents_get_iff hfree).mpr ⟨pre, hp, hl, hpass⟩

/-- Making the directories above a bundle changes nothing exactly where all that can be made are
there. -/
theorem above_eq_iff : (∀ q, (b.above t path).get q = t.get q) ↔ b.Prepared t path := by
  constructor
  · intro hsame pre hp hpass hnone
    have hmade := Tree.made_of_passable hp hpass hnone
    have hget := hsame (normalize pre)
    rw [above, hmade, hnone] at hget
    cases hget
  · intro hprepared q
    rcases @grown_above b t path q with he | ⟨hnone, hdir, -⟩
    · exact he
    · obtain ⟨pre, hp, rfl, hpass⟩ := (Tree.mkdirParents_get_iff hnone).mp hdir
      exact absurd hnone (hprepared pre hp hpass)

/-- An open that fails has made no more than the directories above the bundle. -/
theorem openBundleWrite_error {now : Nat} {d d' : Disk} {e : StorageError}
    (h : b.openBundleWrite now path d = (.error e, d')) : d'.commits = d.commits ∧
      (b.checkBundlePathCollision d.tree (b.resolve path) ≠ none ∧ d'.tree = d.tree ∨
        b.checkBundlePathCollision d.tree (b.resolve path) = none ∧
          d'.tree = b.above d.tree path) := by
  unfold openBundleWrite at h
  cases hc : b.checkBundlePathCollision d.tree (b.resolve path) with
  | some err =>
    simp only [hc] at h
    obtain ⟨-, rfl⟩ := Prod.mk.inj h
    exact ⟨rfl, .inl ⟨nofun, rfl⟩⟩
  | none =>
    have habove : b.above d.tree path = (d.tree.mkdirParents (b.resolve path).dropLast).2 := rfl
    rw [habove]
    rcases hup : d.tree.mkdirParents (b.resolve path).dropLast with ⟨r, t⟩
    simp only [hc, hup] at h
    cases r with
    | error e' =>
      obtain ⟨-, rfl⟩ := Prod.mk.inj h
      exact ⟨rfl, .inr ⟨rfl, rfl⟩⟩
    | ok u =>
      dsimp only at h
      split at h
      · obtain ⟨-, rfl⟩ := Prod.mk.inj h
        exact ⟨rfl, .inr ⟨rfl, rfl⟩⟩
      · obtain ⟨-, rfl⟩ := Prod.mk.inj h
        exact ⟨rfl, .inr ⟨rfl, rfl⟩⟩
      · cases h

/-- A bundle that is opened has passed the collision check. -/
theorem check_of_openBundleWrite {now k : Nat} {d d' : Disk}
    (h : b.openBundleWrite now path d = (.ok k, d')) :
    b.checkBundlePathCollision d.tree (b.resolve path) = none := by
  cases hc : b.checkBundlePathCollision d.tree (b.resolve path) with
  | none => rfl
  | some err =>
    simp only [openBundleWrite, hc] at h
    cases h

/-- A path that is made on the way to it is not opened. -/
theorem openBundleWrite_occupied (now : Nat) {d : Disk}
    (hc : b.checkBundlePathCollision d.tree (b.resolve path) = none)
    (hd : (b.above d.tree path).get (b.location path) = some .dir) :
    ∃ e d', b.openBundleWrite now path d = (.error e, d') := by
  rcases h : b.openBundleWrite now path d with ⟨r, d'⟩
  cases r with
  | error e => exact ⟨e, d', rfl⟩
  | ok k =>
    unfold openBundleWrite at h
    rw [above] at hd
    rcases hup : d.tree.mkdirParents (b.resolve path).dropLast with ⟨r, t⟩
    rw [hup] at hd
    simp only [hc, hup] at h
    cases r with
    | error e' => cases h
    | ok u =>
      dsimp only at h
      split at h
      · cases h
      · cases h
      · rename_i t' hm
        rw [location, (Tree.mkdir_ok hm).2.1] at hd
        cases hd

end Backend

/-! ## An open bundle -/

/-- A writer at work on a bundle that was opened on a disk: outside the bundle there is what was
there then, and the directories above it. -/
structure Staged (b : Backend) (path : String) (before : Disk) (k : Nat) (d : Disk) : Prop where
  writer : ∃ written, d.writers k = some ⟨b.resolve path, written⟩
  opens : Tree.Opens (b.resolve path)
  isDir : d.tree.isDir (b.resolve path) = true
  free : (b.above before.tree path).get (b.location path) = none
  outside : ∀ q, ¬b.location path <+: q → d.tree.get q = (b.above before.tree path).get q
  commits : d.commits = before.commits

/-- What an abort leaves of a bundle: the directories above it. -/
structure Undone (b : Backend) (path : String) (before : Disk) (d : Disk) : Prop where
  tree : ∀ q, d.tree.get q = (b.above before.tree path).get q
  commits : d.commits = before.commits

namespace Staged

variable {b : Backend} {path : String} {before d : Disk} {k : Nat}

/-- An open that succeeds stages a bundle. -/
theorem openBundleWrite {now : Nat} {d' : Disk}
    (h : b.openBundleWrite now path d = (.ok k, d')) : Staged b path d k d' := by
  unfold Backend.openBundleWrite at h
  dsimp only at h
  split at h
  · cases h
  have habove : b.above d.tree path = (d.tree.mkdirParents (b.resolve path).dropLast).2 := rfl
  rcases hup : d.tree.mkdirParents (b.resolve path).dropLast with ⟨r, t⟩
  simp only [hup] at h habove
  cases r with
  | error e => cases h
  | ok u =>
    dsimp only at h
    split at h
    · cases h
    · cases h
    · rename_i t' hm
      obtain ⟨hk, rfl⟩ := Prod.mk.inj h
      obtain rfl := Except.ok.inj hk
      obtain ⟨-, hn, -, hget⟩ := Tree.mkdir_ok hm
      have hopens := (Tree.mkdirParents_mkdir_iff.mp ⟨t, t', hup, hm⟩).2.1
      refine ⟨⟨[], Function.update_self ..⟩, hopens, Tree.isDir_of_mkdir hm, ?_, fun q hq => ?_,
        rfl⟩
      · rw [habove]
        exact hn
      · rw [habove]
        show t'.get q = t.get q
        rw [hget, if_neg]
        rintro rfl
        exact hq (List.prefix_refl _)

/-- Nothing is below a bundle before it is opened. -/
theorem free_below (h : Staged b path before k d) {q : List String} (hq : b.location path <+: q) :
    (b.above before.tree path).get q = none := by
  by_cases he : b.location path = q
  · rw [← he, h.free]
  · refine Option.eq_none_iff_forall_ne_some.mpr fun n hn => ?_
    have hdir := Tree.get_of_prefix hq he hn
    rw [h.free] at hdir
    cases hdir

/-- On the way to a bundle everything is there. -/
theorem get_way (h : Staged b path before k d) {pre : List (Step String)}
    (hp : pre <+: b.resolve path) : d.tree.get (normalize pre) = some .dir :=
    get_of_isDir h.isDir hp

/-- Directories that grow below a bundle are below it. -/
theorem get_grown (h : Staged b path before k d) {t : DataTree} {x : List String}
    (hg : Tree.Grown (b.resolve path ++ spell x) d.tree t) {q : List String}
    (hq : ¬b.location path <+: q) : t.get q = d.tree.get q := by
  rcases hg q with he | ⟨hn, -, pre, hp, rfl⟩
  · exact he
  · rcases prefix_append_spell hp with hup | ⟨y, -, rfl⟩
    · rw [h.get_way hup] at hn
      cases hn
    · refine absurd ?_ hq
      rw [normalize_append_spell]
      exact List.prefix_append _ _

/-- A write of a file keeps a bundle staged. -/
theorem writeFile {now : Nat} {name : String} {data : Bytes} (h : Staged b path before k d)
    (hname : Downward name) : Staged b path before k (Backend.writeFile now k name data d).2 := by
  obtain ⟨written, hw⟩ := h.writer
  have htarget : ∀ w : Writer, d.writers k = some w →
      w.target name = b.resolve path ++ spell (below name) := by
    intro w hw'
    obtain rfl := Option.some.inj (hw.symm.trans hw')
    exact hname.joinPath _
  rcases Backend.writeFile_cases now k name data d with
    ⟨e, heq⟩ | ⟨w, hw', -, -, ⟨e, t, heq, hgrown⟩ | ⟨t, t', hgrown, hwr, heq⟩⟩
  · rw [heq]
    exact h
  · rw [heq]
    rw [htarget w hw'] at hgrown
    have hkeep : KeepsDirs d.tree t := fun q => hgrown.get_some
    refine ⟨⟨written, hw⟩, h.opens, KeepsDirs.isDir hkeep h.isDir, h.free, fun q hq => ?_,
      h.commits⟩
    show t.get q = _
    rw [h.get_grown hgrown hq, h.outside q hq]
  · obtain ⟨hw₁, hkeep, -, -⟩ := Backend.writeFile_ok heq hw
    rw [heq]
    rw [htarget w hw'] at hgrown hwr
    obtain ⟨-, -, -, hget⟩ := Tree.write_ok hwr
    refine ⟨⟨_, hw₁⟩, h.opens, KeepsDirs.isDir hkeep h.isDir, h.free, fun q hq => ?_, h.commits⟩
    show t'.get q = _
    rw [hget, if_neg, h.get_grown hgrown hq, h.outside q hq]
    rintro rfl
    rw [normalize_append_spell] at hq
    exact hq (List.prefix_append _ _)

/-- A commit touches the bundle only. -/
theorem commit_outside (now : Nat) (m : BundleMeta) (h : Staged b path before k d) {q : List String}
    (hq : ¬b.location path <+: q) : (Backend.commit now k m d).2.tree.get q = d.tree.get q := by
  obtain ⟨written, hw⟩ := h.writer
  have hinside : ∀ name, q ≠ b.location path ++ [name] := by
    rintro name rfl
    exact hq (List.prefix_append _ _)
  have hne : normalize (Backend.tmpPath (b.resolve path)) ≠
      normalize (Backend.metaPath (b.resolve path)) := by
    simp [Backend.normalize_tmpPath, Backend.normalize_metaPath, Backend.tmp_ne_manifest]
  unfold Backend.commit
  simp only [hw]
  cases Backend.commitCheck ⟨b.resolve path, written⟩ m with
  | error e => rfl
  | ok u =>
    dsimp only
    cases ht : d.tree.write (Backend.tmpPath (b.resolve path)) (.manifest m d.commits.length) with
    | error e => rfl
    | ok t =>
      obtain ⟨-, -, -, hget⟩ := Tree.write_ok ht
      have hsame : t.get q = d.tree.get q := by
        rw [hget, Backend.normalize_tmpPath, ← Backend.location, if_neg (hinside _)]
      dsimp only
      cases hr :
        t.rename (Backend.tmpPath (b.resolve path)) (Backend.metaPath (b.resolve path)) with
      | error e => exact hsame
      | ok t' =>
        obtain ⟨c, -, -, hget'⟩ := Tree.rename_ok hr hne
        show t'.get q = _
        rw [hget', Backend.normalize_tmpPath, Backend.normalize_metaPath, ← Backend.location,
          if_neg (hinside _), if_neg (hinside _), hsame]

/-- A commit that fails leaves the writer at work. -/
theorem commit {now : Nat} {m : BundleMeta} {e : StorageError} {d' : Disk}
    (h : Staged b path before k d) (hc : Backend.commit now k m d = (.error e, d')) :
    Staged b path before k d' := by
  obtain ⟨written, hw⟩ := h.writer
  have hkeep := Backend.keepsDirs_commit now k m d
  have hout := fun q hq => (h.commit_outside now m (q := q) hq).trans (h.outside q hq)
  have hwriter : d'.writers = d.writers ∧ d'.commits = d.commits := by
    rcases Backend.commit_cases now k m d with
      ⟨e', heq⟩ | ⟨w, -, -, ⟨e', t, heq, -⟩ | ⟨t, t', heq, -⟩⟩
    · rw [hc] at heq
      obtain ⟨-, rfl⟩ := Prod.mk.inj heq
      exact ⟨rfl, rfl⟩
    · rw [hc] at heq
      obtain ⟨-, rfl⟩ := Prod.mk.inj heq
      exact ⟨rfl, rfl⟩
    · rw [hc] at heq
      cases heq
  rw [hc] at hkeep hout
  exact ⟨⟨written, by rw [hwriter.1, hw]⟩, h.opens, KeepsDirs.isDir hkeep h.isDir, h.free, hout,
    hwriter.2.trans h.commits⟩

/-- An abort takes the bundle away, its directory included. -/
theorem abort (now : Nat) (h : Staged b path before k d) :
    Undone b path before (Backend.abort now k d) := by
  obtain ⟨written, hw⟩ := h.writer
  have hroot : b.location path ≠ [] := by
    intro he
    exact h.opens.2 [] List.nil_prefix (Ne.symm h.opens.1) he.symm
  have htree : (Backend.abort now k d).tree = d.tree.remove (b.location path) := by
    simp only [Backend.abort, hw, Tree.rmtree_of_opens h.isDir h.opens]
    rfl
  refine ⟨fun q => ?_, ?_⟩
  · rw [htree]
    by_cases hnil : q = []
    · rw [hnil, Tree.get_nil, Tree.get_nil]
    rw [Tree.get_remove _ _ hnil]
    split
    · rename_i hq
      exact (h.free_below hq).symm
    · rename_i hq
      exact h.outside q hq
  · simp only [Backend.abort, hw]
    exact h.commits

/-! ## Handlers -/

variable {α : Type} {s : Server}

/-- A write of a file keeps a bundle staged, also where it fails. -/
theorem wpE_writeFile {name : String} (data : Bytes) (h : Staged b path before k s.disk)
    (hname : Downward name) :
    wpE (exec cfg env) (fun _ _ => True) (Cassetta.writeFile k name data)
      (fun _ s' => Staged b path before k s'.disk) (fun _ s' => Staged b path before k s'.disk)
      s := by
  have hfile : Staged b path before k (Backend.writeFile s.wall k name data s.disk).2 :=
    h.writeFile hname
  simp only [Cassetta.writeFile, wpE_bind, wpE_tryWriteFile, wpE_orRaise, true_and]
  split
  · exact hfile
  · exact hfile

/-- A commit leaves everything beside a bundle, and keeps it staged where it fails. -/
theorem wpE_commit (m : BundleMeta) (h : Staged b path before k s.disk) :
    wpE (exec cfg env) (fun _ _ => True) (Cassetta.commit k m)
      (fun _ s' => ∀ q, ¬b.location path <+: q →
        s'.disk.tree.get q = (b.above before.tree path).get q)
      (fun _ s' => Staged b path before k s'.disk) s := by
  simp only [Cassetta.commit, wpE_bind, wpE_tryCommit, wpE_orRaise, true_and]
  split
  · exact fun q hq => (h.commit_outside s.wall m hq).trans (h.outside q hq)
  · rename_i e hc
    exact h.commit (Prod.ext hc rfl)

/-- Whatever fails while the writer is at work is undone. -/
theorem wpE_orAbort {x : Handler α} {Q : α → Server → Prop}
    (h : wpE (exec cfg env) (fun _ _ => True) x Q
      (fun _ s' => Staged b path before k s'.disk) s) :
    wpE (exec cfg env) (fun _ _ => True) (Upload.orAbort k x) Q
      (fun _ s' => Undone b path before s'.disk) s := by
  refine (wpE_tryCatch _ _).mpr (wpE_mono (fun _ _ hq => hq) (fun e s' hs => ?_) h)
  simp only [wpE_bind, wpE_abort, wpE_throw, true_and]
  exact hs.abort s'.wall

end Staged

end Cassetta
