import Cassetta.Guarantee.Cleanup
import Cassetta.Guarantee.Conflicts
import Cassetta.Guarantee.Standing

/-!
# What a crashed write leaves behind

A write that is cut off leaves its directory, and a later write to the path needs the directory
gone. The orphan sweep knows such a directory by a file directly in it. This module follows a
write to every point it can be cut off at, and says which of them one sweep recovers from.
-/

namespace Cassetta

open FileTree Prog

/-! ## Crash points -/

/-- Where a write is cut off. -/
inductive CrashPoint where
  /-- After `open_bundle_write`, or between two calls. -/
  | between
  /-- In `write_file`, with so many components of the target's parent made. -/
  | makingParents (name : String) (made : Nat)
  /-- In `write_file`, with a part of the bytes copied. -/
  | copying (name : String) (copied : Bytes)
  /-- In `commit`, with so many bytes of the temporary manifest written. -/
  | flushing (m : BundleMeta) (written : Nat)
  /-- In `commit`, just before the rename. -/
  | flushed (m : BundleMeta)

/-- `commit` as far as the temporary manifest. -/
def Backend.putTmp (now handle : Nat) (m : BundleMeta) (c : Blob) (d : Disk) : Disk :=
  match d.writers handle with
  | none => d
  | some w =>
    match commitCheck w m with
    | .error _ => d
    | .ok () =>
      match d.tree.write (tmpPath w.bundleDir) c with
      | .error _ => d
      | .ok t => d.setTree now t

/-- The disk at a crash point, from the disk after the last call that was completed. -/
def Backend.crash (b : Backend) (now handle : Nat) (d : Disk) : CrashPoint → Disk
  | .between => d
  | .makingParents name made =>
    match d.writers handle with
    | none => d
    | some w => d.setTree now (d.tree.mkdirParents ((w.target name).dropLast.take made)).2
  | .copying name copied => (Backend.writeFile now handle name copied d).2
  | .flushing m written => putTmp now handle m (.raw ((b.dumps m).take written)) d
  | .flushed m => putTmp now handle m (.manifest m d.commits.length) d

/-- Calls of `write_file`, each at its own moment. -/
def Backend.writeFiles (handle : Nat) (files : List (Nat × String × Bytes)) (d : Disk) : Disk :=
  files.foldl (fun d f => (Backend.writeFile f.1 handle f.2.1 f.2.2 d).2) d

/-- A new process knows no writer. -/
def Disk.restart (d : Disk) : Disk := { d with writers := fun _ => none }

/-! ## A write underway -/

/-- A directory that has been there, unchanged or not, since some moment at the latest. -/
structure Underway (loc : List String) (latest : Nat) (d : Disk) : Prop where
  named : WellNamed d
  dir : d.tree.get loc = some .dir
  touched : d.mtime loc ≤ latest

private theorem Disk.setTree_mtime_le {d : Disk} {now latest : Nat} {loc : List String}
    (h : d.mtime loc ≤ latest) (hnow : now ≤ latest) (t : DataTree) :
    (d.setTree now t).mtime loc ≤ latest := by
  show (if _ then d.mtime loc else now) ≤ latest
  split
  · exact h
  · exact hnow

namespace Underway

variable {b : Backend} {loc : List String} {latest now k : Nat} {d : Disk}

/-- A change of the tree that keeps the directories keeps a write underway. -/
theorem setTree (h : Underway loc latest d) (hnow : now ≤ latest) {t : DataTree} (ht : Named t)
    (hkeep : KeepsDirs d.tree t) : Underway loc latest (d.setTree now t) :=
  ⟨h.named.setTree ht now, hkeep _ h.dir, Disk.setTree_mtime_le h.touched hnow t⟩

/-- An open that succeeds sets a write underway. -/
theorem openBundleWrite (h : WellNamed d) (hroot : ∀ k ∈ b.root, FileName k) (hnow : now ≤ latest)
    {p : String} {d' : Disk} (hopen : b.openBundleWrite now p d = (.ok k, d')) :
    Underway (b.location p) latest d' := by
  have hnamed := h.openBundleWrite hroot now p
  rcases Backend.openBundleWrite_cases (b := b) now p d with
    ⟨e, t, heq, -⟩ | ⟨e, heq⟩ | ⟨t, t', -, hgrown, hmk, heq⟩
  · rw [heq] at hopen
    cases hopen
  · rw [heq] at hopen
    cases hopen
  rw [hopen] at hnamed heq
  obtain ⟨-, rfl⟩ := Prod.mk.inj heq
  obtain ⟨-, hnone, -, -⟩ := Tree.mkdir_ok hmk
  have hdir : t'.get (b.location p) = some .dir := (Tree.isDir_iff.mp (Tree.isDir_of_mkdir hmk)).2
  have hnew : d.tree.dirAt (b.location p) = false := by
    rw [Bool.eq_false_iff, ne_eq, Tree.dirAt_iff]
    intro hd
    have hold := hgrown.get_some hd
    rw [Backend.location, hnone] at hold
    cases hold
  refine ⟨hnamed, hdir, ?_⟩
  show
    (if _ ∧ t'.dirAt (b.location p) = d.tree.dirAt (b.location p) then d.mtime _ else now) ≤ latest
  rw [if_neg]
  · exact hnow
  · rintro ⟨-, hsame⟩
    rw [hnew, Tree.dirAt_iff.mpr hdir] at hsame
    cases hsame

/-- A write of a file keeps it underway. -/
theorem writeFile (h : Underway loc latest d) (hnow : now ≤ latest) (name : String) (data : Bytes) :
    Underway loc latest (Backend.writeFile now k name data d).2 := by
  have hnamed := h.named.writeFile now k name data
  rcases Backend.writeFile_cases now k name data d with
    ⟨e, heq⟩ | ⟨w, hw, -, -, ⟨e, t, heq, hgrown⟩ | ⟨t, t', hgrown, hwr, heq⟩⟩
  · rw [heq]
    exact h
  · rw [heq] at hnamed ⊢
    exact h.setTree hnow hnamed.tree fun q => hgrown.get_some
  · rw [heq] at hnamed ⊢
    have hkeep : KeepsDirs d.tree t' :=
      KeepsDirs.trans (fun q => hgrown.get_some) (keepsDirs_write hwr)
    exact ⟨hnamed, hkeep _ h.dir, Disk.setTree_mtime_le h.touched hnow t'⟩

/-- Writes of files keep it underway. -/
theorem writeFiles {files : List (Nat × String × Bytes)} (h : Underway loc latest d)
    (hfiles : ∀ f ∈ files, f.1 ≤ latest) : Underway loc latest (Backend.writeFiles k files d) := by
  induction files generalizing d with
  | nil => exact h
  | cons f rest ih =>
    exact ih (h.writeFile (hfiles f List.mem_cons_self) f.2.1 f.2.2)
      fun f' hf' => hfiles f' (List.mem_cons_of_mem _ hf')

private theorem putTmp (h : Underway loc latest d) (hnow : now ≤ latest) (m : BundleMeta)
    (c : Blob) :
    Underway loc latest (Backend.putTmp now k m c d) := by
  unfold Backend.putTmp
  split
  · exact h
  rename_i w hw
  split
  · exact h
  split
  · exact h
  · rename_i t ht
    have htmp : Proper (Backend.tmpPath w.bundleDir) :=
      (h.named.writers k w hw).append fun k hk => by simp at hk; subst hk; decide
    exact h.setTree hnow (h.named.tree.write htmp ht) (keepsDirs_write ht)

/-- Wherever a write is cut off, its directory is there. -/
theorem crash (h : Underway loc latest d) (hnow : now ≤ latest) (point : CrashPoint) :
    Underway loc latest (b.crash now k d point) := by
  cases point with
  | between => exact h
  | makingParents name made =>
    unfold Backend.crash
    dsimp only
    split
    · exact h
    · rename_i w hw
      have hproper : Proper (w.target name) := proper_joinPath (h.named.writers k w hw) name
      have hgrown := Tree.grown_mkdirParents d.tree ((w.target name).dropLast.take made)
      have hsub : Proper ((w.target name).dropLast.take made) :=
        hproper.of_sublist fun s hs => List.mem_of_mem_dropLast (List.mem_of_mem_take hs)
      exact h.setTree hnow (h.named.tree.grown hsub hgrown) fun q => hgrown.get_some
  | copying name copied => exact h.writeFile hnow name copied
  | flushing m written => exact h.putTmp hnow m _
  | flushed m => exact h.putTmp hnow m _

end Underway

/-! ## What the sweep finds -/

/-- A directory that `list_bundles` takes for an orphan: it holds a file, and no `meta.json`. -/
def Orphaned (t : DataTree) (loc : List String) : Prop :=
  Backend.fileNames t loc ≠ [] ∧ bundleManifest ∉ Backend.fileNames t loc

instance (t : DataTree) (loc : List String) : Decidable (Orphaned t loc) :=
  inferInstanceAs (Decidable (_ ∧ _))

private theorem fileNames_eq_nil_iff {t : DataTree} {loc : List String} :
    Backend.fileNames t loc = [] ↔ ∀ k c, t.fileAt (loc ++ [k]) ≠ some c := by
  rw [List.eq_nil_iff_forall_not_mem]
  simp only [Backend.mem_fileNames, not_exists]

/-- A location in a namespace lies below one of the two directories that are swept. -/
theorem Backend.InNamespace.swept {b : Backend} {loc : List String} (h : b.InNamespace loc) :
    ∃ pre ∈ gcNamespaces, ∃ base, b.resolve pre = spell base ∧
      base.length = b.dataLoc.length + 1 ∧ b.dataLoc <+: base ∧ StrictlyInside base loc := by
  obtain ⟨hinbox, hstore⟩ := b.resolve_namespace
  obtain ⟨ns, hpre, hne⟩ := h
  cases ns with
  | store =>
    exact ⟨"store/", by simp [gcNamespaces], _, hstore, by simp, List.prefix_append _ _, hpre, hne⟩
  | inbox agent =>
    have hup : b.dataLoc ++ ["inbox"] <+: b.dataLoc ++ ["inbox", agent] :=
      ⟨[agent], by simp⟩
    refine ⟨"inbox/", by simp [gcNamespaces], _, hinbox, by simp, List.prefix_append _ _,
      hup.trans hpre, ?_⟩
    rintro rfl
    have hlen := hpre.length_le
    simp [Namespace.parts] at hlen

section Sweep

variable {cfg : Config} {env : Environment} {s : Server} {loc : List String} {latest : Nat}

/-- A directory with nothing above it is swept exactly where it is an orphan. -/
theorem sweptDir_iff (hnamed : Named s.disk.tree) (hin : cfg.backend.InNamespace loc)
    (hclear : NothingAbove cfg.backend s.disk.tree loc) (hdir : s.disk.tree.get loc = some .dir)
    (hage : s.disk.mtime loc + secondsToMicros cfg.limits.passiveGcMinAge ≤ s.passTime cfg env) :
    (∃ dir, SweptDir cfg env s dir ∧ dir <+: loc) ↔ Orphaned s.disk.tree loc := by
  obtain ⟨hinbox, hstore⟩ := cfg.backend.resolve_namespace
  constructor
  · rintro ⟨dir, ⟨pre, hpre, path, hpath, rfl⟩, hup⟩
    obtain ⟨base, hres, hlen, hdata⟩ : ∃ base, cfg.backend.resolve pre = spell base ∧
        base.length = cfg.backend.dataLoc.length + 1 ∧ cfg.backend.dataLoc <+: base := by
      simp only [gcNamespaces, List.mem_cons, List.not_mem_nil, or_false] at hpre
      rcases hpre with rfl | rfl
      · exact ⟨_, hinbox, by simp, List.prefix_append _ _⟩
      · exact ⟨_, hstore, by simp, List.prefix_append _ _⟩
    obtain ⟨refs, hl⟩ := Backend.listBundles_ok (Backend.dataRoot_prefix hres hdata) s.disk true
    obtain ⟨r, hr, rfl, hmeta, -⟩ := (Backend.mem_sweepTargets hl).mp hpath
    obtain ⟨-, hinside, -, -, hs⟩ := Backend.spelled_of_listed hnamed hres hl hr
    have horphan : Orphaned s.disk.tree (cfg.backend.location r.path) := by
      rcases hs with ⟨-, hm⟩ | ⟨hno, hfiles, -, -⟩
      · rw [hmeta] at hm
        cases hm
      · exact ⟨hfiles, hno⟩
    have hsame : cfg.backend.location r.path = loc := by
      by_contra hne
      refine horphan.1 (fileNames_eq_nil_iff.mpr (hclear _ ⟨hup, Ne.symm hne⟩ ?_))
      have hlt := lt_of_le_of_ne hinside.1.length_le fun he =>
        hinside.2 (hinside.1.eq_of_length he).symm
      omega
    rwa [hsame] at horphan
  · rintro ⟨hfiles, hno⟩
    obtain ⟨pre, hpre, base, hres, hlen, hdata, ⟨x, rfl⟩, hne⟩ := hin.swept
    have hx : x ≠ [] := fun he => hne (by simp [he])
    obtain ⟨refs, hl⟩ := Backend.listBundles_ok (Backend.dataRoot_prefix hres hdata) s.disk true
    have hbase : cfg.backend.location pre = base := by
      rw [Backend.location, hres, normalize_spell]
    have hvisited : Backend.Visited s.disk.tree base x := by
      refine ⟨hx, hdir, fun y hy hyx => fileNames_eq_nil_iff.mpr (hclear _ ⟨?_, ?_⟩ ?_)⟩
      · exact (List.prefix_append_right_inj _).mpr hyx.1
      · simpa using hyx.2
      · have hpos := List.length_pos_of_ne_nil hy
        simp only [List.length_append]
        omega
    have hmem : (⟨cfg.backend.relPosix (spell base ++ spell x), false, s.disk.mtime (base ++ x)⟩ :
        Backend.BundleRef) ∈ refs := by
      rw [Backend.mem_listBundles_iff hl, hbase, hres, Tree.isDir_spell]
      exact ⟨Tree.get_of_prefix (List.prefix_append _ _) hne.symm hdir, x, hvisited, rfl, rfl,
        .inr ⟨hno, hfiles, rfl, rfl⟩⟩
    obtain ⟨rest, rfl⟩ := hdata
    have hproper : Proper (spell (rest ++ x)) := by
      refine proper_spell fun k hk => hnamed _ _ hdir k ?_
      rw [List.append_assoc]
      exact List.mem_append_right _ hk
    have hpath : cfg.backend.resolve
        (cfg.backend.relPosix (spell (cfg.backend.dataLoc ++ rest) ++ spell x)) =
        spell (cfg.backend.dataLoc ++ rest ++ x) := by
      rw [← spell_append, List.append_assoc, spell_append, ← Backend.dataRoot_eq]
      exact Backend.resolve_relPosix (by simp [spell, hx]) hproper
    refine ⟨_, ⟨pre, hpre, _, (Backend.mem_sweepTargets hl).mpr ⟨_, hmem, rfl, rfl, hage⟩, ?_⟩,
      List.prefix_rfl⟩
    rw [Backend.location, hpath, normalize_spell]

/-- Where the directory of a cut-off write has nothing above it, one sweep clears the path
exactly when the directory is an orphan. -/
theorem reopens_iff {p : String} {now : Nat} (hspell : cfg.backend.resolve p = spell loc)
    (hin : cfg.backend.InNamespace loc) (hclear : NothingAbove cfg.backend s.disk.tree loc)
    (h : Underway loc latest s.disk)
    (hage : latest + secondsToMicros cfg.limits.passiveGcMinAge ≤ s.passTime cfg env) :
    (∃ k, (cfg.backend.openBundleWrite now p (sweepOnce cfg env s).disk).1 = .ok k) ↔
      Orphaned s.disk.tree loc := by
  have hpruned := sweepOnce_pruned cfg env h.named.tree
  have htouched := h.touched
  have hswept : (∃ dir, SweptDir cfg env s dir ∧ dir <+: loc) ↔ Orphaned s.disk.tree loc :=
    sweptDir_iff h.named.tree hin hclear h.dir (by omega)
  rw [← hswept]
  have hback : ∀ q n, (sweepOnce cfg env s).disk.tree.get q = some n →
      s.disk.tree.get q = some n := by
    intro q n hq
    by_cases hnil : q = []
    · subst hnil
      simpa using hq
    · rcases hpruned.2 q hnil with ⟨-, hnone⟩ | ⟨-, hsame⟩
      · rw [hnone] at hq
        cases hq
      · rwa [hsame] at hq
  rcases hpruned.2 loc hin.ne_nil with ⟨hex, hnone⟩ | ⟨hno, hsame⟩
  · refine iff_of_true ?_ hex
    refine Backend.opens_of_nothingAbove hspell hin ?_ hnone ?_
    · intro a ha hlen k c hc
      refine hclear a ha hlen k c ?_
      rw [Tree.fileAt_eq_some_iff] at hc ⊢
      exact hback _ _ hc
    · intro pre hp c hc
      obtain ⟨a, rfl, ha⟩ := eq_spell_of_prefix hp
      rw [normalize_spell] at hc
      have hfile := hback _ _ hc
      by_cases he : a = loc
      · rw [he, h.dir] at hfile
        cases hfile
      · rw [Tree.get_of_prefix ha he h.dir] at hfile
        cases hfile
  · refine iff_of_false ?_ fun ⟨dir, hD, hp⟩ => hno dir hD hp
    rintro ⟨k, hk⟩
    obtain ⟨q, kind, hconf⟩ : cfg.backend.Conflicts now p (sweepOnce cfg env s).disk :=
      Backend.conflicts_of_dir hspell hin.ne_nil (hsame.trans h.dir)
    rw [hk] at hconf
    cases hconf

/-- A write is opened, completes some of its files and is cut off. One sweep after the minimum
age makes the path free again, where no bundle is above it, if and only if the directory directly
holds a file and none called `meta.json`. -/
theorem orphan_recoverable_iff (cfg : Config) (env : Environment) {d d₁ : Disk} {p : String}
    {k opened latest : Nat} (hroot : ∀ k ∈ cfg.backend.root, FileName k) (hnamed : WellNamed d)
    (hp : cfg.backend.Plain (cfg.backend.resolve p)) (hopened : opened ≤ latest)
    (hopen : cfg.backend.openBundleWrite opened p d = (.ok k, d₁))
    {files : List (Nat × String × Bytes)} (hfiles : ∀ f ∈ files, f.1 ≤ latest)
    {cut : Nat} (hcut : cut ≤ latest) (point : CrashPoint) {s : Server}
    (hcrash : s.disk = (cfg.backend.crash cut k (Backend.writeFiles k files d₁) point).restart)
    (hclear : NothingAbove cfg.backend s.disk.tree (cfg.backend.location p))
    (hage : latest + secondsToMicros cfg.limits.passiveGcMinAge ≤ s.passTime cfg env) (now : Nat) :
    (∃ k', (cfg.backend.openBundleWrite now p (sweepOnce cfg env s).disk).1 = .ok k') ↔
      Orphaned s.disk.tree (cfg.backend.location p) := by
  have hwritten := (Underway.openBundleWrite hnamed hroot hopened hopen).writeFiles (k := k) hfiles
  have hcrashed := hwritten.crash (b := cfg.backend) (k := k) hcut point
  have hunder : Underway (cfg.backend.location p) latest s.disk := by
    rw [hcrash]
    exact ⟨⟨hcrashed.named.tree, by simp [Disk.restart]⟩, hcrashed.dir, hcrashed.touched⟩
  obtain ⟨loc, hspell, hin⟩ := hp
  have hloc : cfg.backend.location p = loc := by rw [Backend.location, hspell, normalize_spell]
  rw [hloc] at hclear hunder ⊢
  exact reopens_iff hspell hin hclear hunder hage

/-! ### A write cut off in the store -/

/-- The disk after a write to `store/p` was cut off. -/
def cutOff (files : List (Nat × String × Bytes)) (point : CrashPoint) : Disk :=
  (srvBackend.crash 0 0 (Backend.writeFiles 0 files
    (srvBackend.openBundleWrite 0 "store/p" (Disk.init srvTree)).2) point).restart

/-- One hour later. -/
def cutOffServer (files : List (Nat × String × Bytes)) (point : CrashPoint) : Server :=
  { srvSystem.server with disk := cutOff files point, wall := 3600000000 }

/-- With the first bytes of its file copied, the write can be made again. -/
theorem orphan_recoverable_copying :
    ∃ k, (srvBackend.openBundleWrite 3600000000 "store/p"
      (sweepOnce srvConfig .core (cutOffServer [] (.copying "a" [1]))).disk).1 = .ok k := by
  refine (@orphan_recoverable_iff srvConfig .core (Disk.init srvTree) _ "store/p" 0 0 0
    (by decide) ⟨named_of_entries (by decide), by simp [Disk.init]⟩
    ⟨["srv", "data", "store", "p"], by decide, .store, by decide⟩ le_rfl
    (Prod.ext (by decide) rfl) [] (by simp) 0 le_rfl (.copying "a" [1])
    (cutOffServer [] (.copying "a" [1])) rfl ?_ (by decide +kernel) 3600000000).mpr
      (by decide +kernel)
  intro a ha hlen
  have hlt : a.length < 4 :=
    lt_of_le_of_ne ha.1.length_le fun he => ha.2 (ha.1.eq_of_length he).symm
  have hdata : srvConfig.backend.dataLoc.length = 2 := rfl
  omega

/-- Cut off right after the directory was made, the write is still refused after the sweep. -/
theorem empty_orphan_remains :
    validateManifest ["a"] = .ok () ∧
      3600000000 ≤ (cutOffServer [] .between).passTime srvConfig .core ∧
      secondsToMicros srvConfig.limits.passiveGcMinAge = 3600000000 ∧
      ¬∃ k, (srvBackend.openBundleWrite 3600000000 "store/p"
        (sweepOnce srvConfig .core (cutOffServer [] .between)).disk).1 = .ok k := by
  refine ⟨by decide, by decide +kernel, by decide, ?_⟩
  have hconf : (srvBackend.openBundleWrite 3600000000 "store/p"
      (sweepOnce srvConfig .core (cutOffServer [] .between)).disk).1 =
      .error (.bundlePathConflict "store/p" .shadowChild) := by decide +kernel
  rw [hconf]
  rintro ⟨k, hk⟩
  cases hk

end Sweep

end Cassetta
