import Cassetta.Server.Rules
import Cassetta.Storage.PrefixFree

/-!
# Where a bundle's files land

`write_file` joins a name to the bundle directory and opens the result. A manifest has had its
names checked; the raw and multipart bodies, the JSON files and the broadcasts hand theirs over
as they came. A name that leads out of the directory is written out of it, unless its own way
leads through the place where it ends: a directory is there by then, and the open fails.
-/

namespace Cassetta

open FileTree Prog

/-! ## The property and the condition -/

/-- Whatever `write_file` does under a name, in whatever state the disk is, the files it
creates or truncates lie strictly inside the bundle directory. -/
def WritesInside (dir : List (Step String)) (name : String) : Prop :=
  ∀ (d : Disk) (now handle : Nat) (written : List (String × Bytes)) (data : Bytes)
    (q : List String),
    d.writers handle = some ⟨dir, written⟩ →
      (Backend.writeFile now handle name data d).2.tree.fileAt q ≠ d.tree.fileAt q →
        StrictlyInside (normalize dir) q

/-- A name that can be opened at all leads strictly inside the directory. -/
def Confined (dir : List (Step String)) (name : String) : Prop :=
  name ≠ "" → Tree.Opens (joinPath dir name) →
    StrictlyInside (normalize dir) (fileLoc (normalize dir) name)

instance (dir : List (Step String)) (name : String) : Decidable (Confined dir name) :=
  inferInstanceAs (Decidable (_ → _ → _))

/-- A call that hands a name to a writer hands over one that is confined. -/
def HandsConfined (s : Server) : AnyCall → Prop
  | .plain (.writeFile handle name _) => ∀ w ∈ s.disk.writers handle, Confined w.bundleDir name
  | _ => True

instance (s : Server) : ∀ c, Decidable (HandsConfined s c)
  | .claim _ => .isTrue trivial
  | .plain (.writeFile handle name _) =>
    inferInstanceAs (Decidable (∀ w ∈ s.disk.writers handle, Confined w.bundleDir name))
  | .plain .now | .plain .newId | .plain (.check ..) | .plain (.visibleAgents ..) |
    .plain (.resolve ..) | .plain .listKeys | .plain .checkRateLimit | .plain (.increment _) |
    .plain .verifyKeys | .plain (.openBundleWrite _) | .plain (.commit ..) | .plain (.abort _) |
    .plain (.readBundleMeta _) | .plain (.openBundleFileRead ..) | .plain (.listBundles ..) |
    .plain (.deleteBundle _) => .isTrue trivial

/-- A call of `write_file` creates or truncates files strictly inside its writer's directory
only. -/
def ChangesInside (s : Server) : AnyCall → Prop
  | .plain (.writeFile handle name data) =>
    ∀ w, s.disk.writers handle = some w → ∀ q,
      (Backend.writeFile s.wall handle name data s.disk).2.tree.fileAt q ≠ s.disk.tree.fileAt q →
        StrictlyInside w.loc q
  | _ => True

/-! ## One write -/

/-- A write that goes through has opened its target. -/
theorem opens_of_write {t t₁ t₂ : DataTree} {path : List (Step String)} {c : Blob}
    (hg : Tree.Grown path t t₁) (hw : t₁.write path c = .ok t₂) : Tree.Opens path := by
  obtain ⟨hr, hnd, -, -⟩ := Tree.write_ok hw
  refine ⟨?_, fun pre hp hne he => hnd (he ▸ Tree.get_of_resolve hr hp hne)⟩
  rintro rfl
  simp at hnd

private theorem writesInside_of_confined {dir : List (Step String)} {name : String}
    (h : Confined dir name) : WritesInside dir name := by
  intro d now handle written data q hw hq
  rcases Backend.writeFile_cases now handle name data d with
    ⟨e, heq⟩ | ⟨w, hw', hne, -, ⟨e, t, heq, hg⟩ | ⟨t, t', hg, hwr, heq⟩⟩
  · rw [heq] at hq
    exact (hq rfl).elim
  · rw [heq, Disk.setTree_tree, hg.fileAt_eq] at hq
    exact (hq rfl).elim
  · obtain rfl : w = ⟨dir, written⟩ := Option.some.inj (hw'.symm.trans hw)
    rw [heq] at hq
    have hfiles : t'.fileAt = Function.update d.tree.fileAt (fileLoc (normalize dir) name)
        (some (.raw data)) := by
      rw [Tree.fileAt_write hwr, hg.fileAt_eq, Writer.normalize_target, Writer.loc]
    have hq' : q = fileLoc (normalize dir) name := by
      by_contra hne'
      apply hq
      show t'.fileAt q = d.tree.fileAt q
      rw [hfiles, Function.update_of_ne hne']
    rw [hq']
    exact h hne (opens_of_write hg hwr)

/-- A disk with nothing on it but one open writer. -/
def bareDisk (dir : List (Step String)) : Disk :=
  { Disk.init Tree.empty with writers := fun _ => some ⟨dir, []⟩ }

/-- On an empty disk every name that opens is written where it leads. -/
theorem writeFile_bareDisk {dir : List (Step String)} {name : String} (hne : name ≠ "")
    (ho : Tree.Opens (joinPath dir name)) :
    (Backend.writeFile 0 0 name [] (bareDisk dir)).2.tree.fileAt (fileLoc (normalize dir) name) =
      some (.raw []) := by
  have hroot : normalize (joinPath dir name) ≠ [] := fun he =>
    ho.2 [] List.nil_prefix (Ne.symm ho.1) he.symm
  have hpass : (Tree.empty : DataTree).Passable (joinPath dir name).dropLast := by
    intro pre _ c hc
    rw [Tree.get_empty] at hc
    split at hc <;> cases hc
  have hfree : (Tree.empty : DataTree).get (normalize (joinPath dir name)) ≠ some .dir := by
    rw [Tree.get_empty, if_neg hroot]
    simp
  obtain ⟨t₁, t₂, hm, hw⟩ :=
    (Tree.mkdirParents_write_iff (c := Blob.raw [])).mpr ⟨hpass, ho, hfree⟩
  have htarget : Writer.target ⟨dir, []⟩ name = joinPath dir name := rfl
  have hwrite : Backend.writeTarget Tree.empty (joinPath dir name) [] = (.ok (), t₂) := by
    simp [Backend.writeTarget, hm, hw]
  have hwriter : (bareDisk dir).writers 0 = some ⟨dir, []⟩ := rfl
  have htree : (bareDisk dir).tree = Tree.empty := rfl
  simp only [Backend.writeFile, hwriter, if_neg hne, htarget, htree, hwrite]
  show t₂.fileAt _ = _
  rw [Tree.fileAt_write hw, normalize_joinPath, Function.update_self]

private theorem confined_of_writesInside {dir : List (Step String)} {name : String}
    (h : WritesInside dir name) : Confined dir name := by
  intro hne ho
  refine h (bareDisk dir) 0 0 [] [] _ rfl ?_
  have hbare : (bareDisk dir).tree.fileAt (fileLoc (normalize dir) name) = none := by
    show (Tree.empty : DataTree).fileAt _ = none
    unfold Tree.fileAt
    rw [Tree.get_empty]
    split <;> simp_all
  rw [writeFile_bareDisk hne ho, hbare]
  simp

/-! ## Every surface -/

/-- A name that has a component and comes from an accepted manifest is confined, in whatever
directory. -/
theorem confined_of_manifest {names : List String} (h : validateManifest names = .ok ())
    {name : String} (hn : name ∈ names) (hs : steps name ≠ []) (dir : List (Step String)) :
    Confined dir name := by
  intro _ _
  obtain ⟨x, hx, hl⟩ := exists_spell_of_manifest h hn (normalize dir)
  rw [hl]
  have hx' : x ≠ [] := by
    rintro rfl
    exact hs hx
  exact ⟨List.prefix_append _ _, by simpa using hx'⟩

private theorem changesInside_of_handsConfined {s : Server} {c : AnyCall} (h : HandsConfined s c) :
    ChangesInside s c := by
  cases c with
  | claim c => trivial
  | plain c =>
    cases c with
    | writeFile handle name data =>
      intro w hw q hq
      exact writesInside_of_confined (h w hw) s.disk s.wall handle w.written data q hw hq
    | _ => trivial

/-- Under a name, in a directory, `write_file` stays strictly inside on every disk if and only
if the name is confined there. And whatever happens on whatever surface, if every name it hands
to a writer is confined, every file those writes create or truncate lies strictly inside the
bundle's own directory. -/
theorem writesInside_iff_confined (dir : List (Step String)) (name : String) (cfg : Config)
    (env : Environment) (sys : System) (e : Event) :
    (WritesInside dir name ↔ Confined dir name) ∧
      (sys.Calls cfg env HandsConfined e → sys.Calls cfg env ChangesInside e) := by
  refine ⟨⟨confined_of_writesInside, writesInside_of_confined⟩, fun h => ?_⟩
  exact wp_guard_mono (I := fun _ => True)
    (fun s c _ hc => ⟨changesInside_of_handsConfined hc, trivial⟩) h trivial

/-! ## On a small server -/

/-- A `PUT` of a form with one part. -/
def putPart (path name : String) (data : Bytes) : Event :=
  .plain (.putFile alice path (.multipart [⟨name, data, none⟩]))

/-- A name with a subdirectory. -/
theorem writesInside_nested :
    WritesInside (srvBackend.resolve "store/p") "a/b" ∧
      srvSystem.Calls { srvConfig with limits := {} } .core ChangesInside
        (putPart "p" "a/b" [1]) := by
  obtain ⟨hone, hevent⟩ := writesInside_iff_confined (srvBackend.resolve "store/p") "a/b"
    { srvConfig with limits := {} } .core srvSystem (putPart "p" "a/b" [1])
  exact ⟨hone.mpr (by decide), hevent (by decide +kernel)⟩

/-- A part of a form that is put at `p` overwrites the file of the bundle at `q`. -/
theorem part_overwrites_neighbour :
    (srvSystem.run { srvConfig with limits := {} } .core
    [putPart "q" "f" [0]]).server.disk.tree.fileAt
        (srvBackend.location "store/q" ++ ["f"]) = some (.raw [0]) ∧
      (srvSystem.run { srvConfig with limits := {} } .core
          [putPart "q" "f" [0], putPart "p" "../q/f" [1]]).server.disk.tree.fileAt
        (srvBackend.location "store/q" ++ ["f"]) = some (.raw [1]) ∧
      ¬StrictlyInside (srvBackend.location "store/p") (srvBackend.location "store/q" ++ ["f"]) :=
  ⟨by decide +kernel, by decide +kernel, by decide⟩

end Cassetta
