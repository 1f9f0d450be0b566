import Cassetta.Storage.RoundTrip

/-!
# When a bundle can be laid out

The names of an accepted manifest were compared as strings. On disk each becomes a chain of
directories with a file at its end, and the files of one bundle, the manifest and the
temporary manifest have to fit beside each other: nothing can lie below a file. This module
says exactly when opening, writing and committing go through.
-/

namespace Cassetta

open FileTree

/-! ## Names as components -/

/-- Where a name leads, seen from the bundle directory. -/
def below (name : String) : List String := normalize (steps name)

/-- The files of a bundle fit beside each other and beside the two manifests. -/
structure Storable (names : List String) : Prop where
  some_name : names ≠ []
  leads_down : ∀ n ∈ names, below n ≠ []
  side_by_side : ∀ n ∈ names, ∀ n' ∈ names, ¬StrictlyInside (below n) (below n')
  beside_manifest : ∀ n ∈ names, ¬StrictlyInside [bundleManifest] (below n)
  beside_tmp : ∀ n ∈ names, ¬StrictlyInside [bundleManifestTmp] (below n)

instance (names : List String) : Decidable (Storable names) :=
  decidable_of_iff (names ≠ [] ∧ (∀ n ∈ names, below n ≠ []) ∧
      (∀ n ∈ names, ∀ n' ∈ names, ¬StrictlyInside (below n) (below n')) ∧
      (∀ n ∈ names, ¬StrictlyInside [bundleManifest] (below n)) ∧
      ∀ n ∈ names, ¬StrictlyInside [bundleManifestTmp] (below n))
    ⟨fun ⟨h₁, h₂, h₃, h₄, h₅⟩ => ⟨h₁, h₂, h₃, h₄, h₅⟩,
      fun ⟨h₁, h₂, h₃, h₄, h₅⟩ => ⟨h₁, h₂, h₃, h₄, h₅⟩⟩

/-- A name that is not empty and goes straight down from where it is joined. -/
structure Downward (name : String) : Prop where
  ne_empty : name ≠ ""
  relative : isAbsolute name = false
  spelled : steps name = spell (below name)

/-- A valid path leads downward. -/
theorem downward_of_validatePath {allowed : Char → Bool} {name : String}
    (h : validatePath allowed name = .ok ()) : Downward name := by
  obtain ⟨hne, habs, hup, -⟩ := validatePath_ok h
  exact ⟨hne, habs, eq_spell_normalize (up_not_mem_steps hup)⟩

/-- A name that leads downward is spelled out below the directory. -/
theorem Downward.joinPath {name : String} (h : Downward name) (dir : List (Step String)) :
    joinPath dir name = dir ++ spell (below name) := by
  rw [Cassetta.joinPath, h.relative, h.spelled]
  rfl

/-! ## A directory with files laid out in it -/

/-- Below a directory there are files at the given places, directories above them, and
nothing else. -/
structure Laid (t : DataTree) (dir : List (Step String)) (places : List (List String)) : Prop where
  isDir : t.isDir dir = true
  file : ∀ y, (∃ c, t.get (normalize dir ++ y) = some (.file c)) ↔ y ∈ places
  dir : ∀ y, t.get (normalize dir ++ y) = some .dir ↔ y = [] ∨ ∃ x ∈ places, StrictlyInside y x

/-- A location that is spelled out is below where the path has come to. -/
theorem normalize_append_spell (dir : List (Step String)) (y : List String) :
    normalize (dir ++ spell y) = normalize dir ++ y := by
  rw [normalize_append, normalizeFrom_spell]

/-- What stands on the way of a path below a directory. -/
theorem prefix_append_spell {dir pre : List (Step String)} {x : List String}
    (h : pre <+: dir ++ spell x) : pre <+: dir ∨ ∃ y, y <+: x ∧ pre = dir ++ spell y := by
  rcases List.prefix_or_prefix_of_prefix h (List.prefix_append dir (spell x)) with hp | ⟨r, rfl⟩
  · exact .inl hp
  · rw [List.prefix_append_right_inj] at h
    have hr : r = spell (x.take r.length) := by
      rw [spell, List.map_take, ← spell]
      exact List.prefix_iff_eq_take.mp h
    exact .inr ⟨x.take r.length, List.take_prefix _ _, by rw [← hr]⟩

/-- Every directory on the way to one is there. -/
theorem get_of_isDir {t : DataTree} {dir pre : List (Step String)} (h : t.isDir dir = true)
    (hp : pre <+: dir) : t.get (normalize pre) = some .dir := by
  obtain ⟨hr, hd⟩ := Tree.isDir_iff.mp h
  by_cases he : pre = dir
  · rw [he, hd]
  · exact Tree.get_of_resolve hr hp he

namespace Laid

variable {t : DataTree} {dir : List (Step String)} {places : List (List String)}

/-- A file goes into a laid-out directory exactly where it fits beside the others. -/
theorem write_iff (h : Laid t dir places) (x : List String) (data : Bytes) :
    (∃ t', Backend.writeTarget t (dir ++ spell x) data = (.ok (), t')) ↔
      x ≠ [] ∧ ∀ y ∈ places, ¬Nested x y := by
  have hok : (∃ t', Backend.writeTarget t (dir ++ spell x) data = (.ok (), t')) ↔
      ∃ t₁ t₂, t.mkdirParents (dir ++ spell x).dropLast = (.ok (), t₁) ∧
        t₁.write (dir ++ spell x) (.raw data) = .ok t₂ := by
    unfold Backend.writeTarget
    rcases t.mkdirParents (dir ++ spell x).dropLast with ⟨r, t₁⟩
    cases r with
    | error e => simp
    | ok u =>
      cases hw : t₁.write (dir ++ spell x) (.raw data) with
      | error e => simp [hw]
      | ok t₂ => simp [hw]
  rw [hok, Tree.mkdirParents_write_iff, normalize_append_spell]
  constructor
  · rintro ⟨hpass, -, hnd⟩
    have hx : x ≠ [] := by
      rintro rfl
      exact hnd ((h.dir []).mpr (.inl rfl))
    refine ⟨hx, fun y hy hn => ?_⟩
    rcases hn with hin | ⟨hp, hne⟩
    · exact hnd ((h.dir x).mpr (.inr ⟨y, hy, hin⟩))
    · obtain ⟨c, hc⟩ := (h.file y).mpr hy
      refine hpass (dir ++ spell y) ?_ c ?_
      · obtain ⟨r, rfl⟩ := hp
        have hr : r ≠ [] := by
          rintro rfl
          simp at hne
        have hsplit : spell (y ++ r) = spell y ++ spell r := by simp [spell]
        rw [hsplit, ← List.append_assoc, List.dropLast_append_of_ne_nil (by simpa [spell] using hr)]
        exact List.prefix_append _ _
      · rw [normalize_append_spell, hc]
  · rintro ⟨hx, happ⟩
    have hnd : t.get (normalize dir ++ x) ≠ some .dir := by
      intro hd
      rcases (h.dir x).mp hd with he | ⟨y, hy, hin⟩
      · exact hx he
      · exact happ y hy (.inl hin)
    refine ⟨fun pre hp c hc => ?_,
      ⟨by simpa [spell] using fun _ => hx, fun pre hp hne he => ?_⟩, hnd⟩
    · rcases prefix_append_spell (hp.trans (List.dropLast_prefix _)) with hpre | ⟨y, hy, rfl⟩
      · rw [get_of_isDir h.isDir hpre] at hc
        cases hc
      · rw [normalize_append_spell] at hc
        have hmem := (h.file y).mp ⟨c, hc⟩
        refine happ y hmem (.inr ⟨hy, ?_⟩)
        rintro rfl
        exact Tree.ne_of_prefix_dropLast (by simpa [spell] using fun _ => hx) hp rfl
    · rw [normalize_append_spell] at he
      rcases prefix_append_spell hp with hpre | ⟨y, hy, rfl⟩
      · exact hnd (he ▸ get_of_isDir h.isDir hpre)
      · rw [normalize_append_spell, List.append_right_inj] at he
        exact hne (by rw [he])

/-- After a file has gone in, it is laid out with the others. -/
theorem write (h : Laid t dir places) {x : List String} {data : Bytes} {t' : DataTree}
    (hw : Backend.writeTarget t (dir ++ spell x) data = (.ok (), t')) :
    Laid t' dir (places ++ [x]) := by
  rcases Backend.writeTarget_cases t (dir ++ spell x) data with
    ⟨e, t₁, heq, -⟩ | ⟨t₁, t₂, heq, hg, hwr⟩
  · rw [heq] at hw
    cases hw
  rw [heq] at hw
  obtain rfl := (Prod.mk.inj hw).2
  obtain ⟨hr, hnd, -, hget⟩ := Tree.write_ok hwr
  rw [normalize_append_spell] at hget hnd
  have hget' : ∀ y, t₂.get (normalize dir ++ y) =
      if y = x then some (.file (.raw data)) else t₁.get (normalize dir ++ y) := by
    intro y
    rw [hget]
    simp
  refine ⟨?_, fun y => ?_, fun y => ?_⟩
  · obtain ⟨hres, hd⟩ := Tree.isDir_iff.mp h.isDir
    have hkeep : KeepsDirs t t₂ := KeepsDirs.trans (fun q => hg.get_some) (keepsDirs_write hwr)
    exact Tree.isDir_iff.mpr ⟨Tree.resolveFrom_mono hkeep hres, hkeep _ hd⟩
  · rw [hget', List.mem_append, List.mem_singleton]
    by_cases hy : y = x
    · simp [hy]
    · rw [if_neg hy, ← h.file y]
      simp only [hg.file_iff, hy, or_false]
  · rw [hget']
    by_cases hy : y = x
    · subst hy
      simp only [if_true, Option.some.injEq, reduceCtorEq, false_iff]
      rintro (rfl | ⟨z, hz, hin⟩)
      · exact hnd (hg.get_some ((h.dir []).mpr (.inl rfl)))
      · rcases List.mem_append.mp hz with hz | hz
        · exact hnd (hg.get_some ((h.dir y).mpr (.inr ⟨z, hz, hin⟩)))
        · exact hin.2 (List.mem_singleton.mp hz)
    · rw [if_neg hy]
      constructor
      · intro hd
        rcases hg (normalize dir ++ y) with he | ⟨hn, -, pre, hp, he⟩
        · rcases (h.dir y).mp (he ▸ hd) with he | ⟨z, hz, hin⟩
          · exact .inl he
          · exact .inr ⟨z, by simp [hz], hin⟩
        · rcases prefix_append_spell hp with hpre | ⟨z, hz, rfl⟩
          · rw [he, get_of_isDir h.isDir hpre] at hn
            cases hn
          · rw [normalize_append_spell, List.append_right_inj] at he
            exact .inr ⟨x, by simp, he ▸ hz, fun hxy => hy hxy.symm⟩
      · rintro (rfl | ⟨z, hz, hin⟩)
        · exact hg.get_some ((h.dir []).mpr (.inl rfl))
        · rcases List.mem_append.mp hz with hz | hz
          · exact hg.get_some ((h.dir y).mpr (.inr ⟨z, hz, hin⟩))
          · obtain rfl := List.mem_singleton.mp hz
            have hd : t₁.get (normalize (dir ++ spell y)) = some .dir :=
              Tree.get_of_resolve hr ?_ ?_
            · rwa [normalize_append_spell] at hd
            · obtain ⟨r, rfl⟩ := hin.1
              exact ⟨spell r, by simp [spell]⟩
            · intro he
              have he' := List.append_cancel_left he
              apply hy
              rw [← normalize_spell y, he', normalize_spell]

end Laid

namespace Backend

variable {b : Backend} {now handle : Nat} {d d' : Disk}

/-! ## Opening -/

/-- The backend sees nothing at, above or below a path. -/
def FreeAt (b : Backend) (d : Disk) (path : String) : Prop :=
  b.checkBundlePathCollision d.tree (b.resolve path) = none ∧ d.tree.get (b.location path) = none

instance (b : Backend) (d : Disk) (path : String) : Decidable (b.FreeAt d path) :=
  inferInstanceAs (Decidable (_ ∧ _))

/-- No file is on the way to a path, and the way does not lead through its end. -/
def Reachable (b : Backend) (d : Disk) (path : String) : Prop :=
  d.tree.Passable (b.resolve path).dropLast ∧ Tree.Opens (b.resolve path)

instance (b : Backend) (d : Disk) (path : String) : Decidable (b.Reachable d path) :=
  inferInstanceAs (Decidable (_ ∧ _))

/-- A free path is opened exactly where it can be reached. -/
theorem openBundleWrite_isOk_iff {path : String} (hfree : b.FreeAt d path) :
    (∃ k d', b.openBundleWrite now path d = (.ok k, d')) ↔ b.Reachable d path := by
  have hok : (∃ k d', b.openBundleWrite now path d = (.ok k, d')) ↔
      ∃ t₁ t₂, d.tree.mkdirParents (b.resolve path).dropLast = (.ok (), t₁) ∧
        t₁.mkdir (b.resolve path) = .ok t₂ := by
    simp only [openBundleWrite, hfree.1]
    rcases d.tree.mkdirParents (b.resolve path).dropLast with ⟨r, t₁⟩
    cases r with
    | error e => simp
    | ok u =>
      cases hk : t₁.mkdir (b.resolve path) with
      | error e => cases e <;> simp [hk]
      | ok t₂ => simp [hk]
  rw [hok, Tree.mkdirParents_mkdir_iff]
  constructor
  · rintro ⟨hpass, hopen, -⟩
    exact ⟨hpass, hopen⟩
  · rintro ⟨hpass, hopen⟩
    exact ⟨hpass, hopen, hfree.2⟩

/-- A new writer finds an empty directory. -/
theorem openBundleWrite_laid {path : String} {k : Nat}
    (h : b.openBundleWrite now path d = (.ok k, d')) :
    d'.writers k = some ⟨b.resolve path, []⟩ ∧ Laid d'.tree (b.resolve path) [] ∧
      d'.commits = d.commits := by
  rcases openBundleWrite_cases (b := b) now path d with
    ⟨e, t, heq, -⟩ | ⟨e, heq⟩ | ⟨t, t', -, -, hmk, heq⟩
  · rw [heq] at h
    cases h
  · rw [heq] at h
    cases h
  rw [heq] at h
  obtain ⟨hk, rfl⟩ := Prod.mk.inj h
  obtain rfl := Except.ok.inj hk
  obtain ⟨-, hn, -, hget⟩ := Tree.mkdir_ok hmk
  refine ⟨Function.update_self .., ⟨Tree.isDir_of_mkdir hmk, fun y => ?_, fun y => ?_⟩, rfl⟩
  all_goals
    show _ ↔ _
    have hnone : y ≠ [] → t'.get (normalize (b.resolve path) ++ y) = none := by
      intro hy
      have hne : normalize (b.resolve path) ++ y ≠ normalize (b.resolve path) := by simpa using hy
      rw [hget, if_neg hne]
      cases hc : t.get (normalize (b.resolve path) ++ y) with
      | none => rfl
      | some n =>
        rw [Tree.get_of_prefix (List.prefix_append _ y) hne.symm hc] at hn
        cases hn
    by_cases hy : y = []
    · subst hy
      simp [hget]
    · simp [hnone hy, hy]

/-! ## Writing -/

/-- A file of a straight name is written exactly where it fits beside the others. -/
theorem writeFile_isOk_iff {w : Writer} {places : List (List String)} {name : String} {data : Bytes}
    (hw : d.writers handle = some w) (hlaid : Laid d.tree w.bundleDir places)
    (hname : Downward name) (hnew : name ∉ w.written.map Prod.fst) :
    (∃ n d', writeFile now handle name data d = (.ok n, d')) ↔
      below name ≠ [] ∧ ∀ y ∈ places, ¬Nested (below name) y := by
  rw [← hlaid.write_iff (below name) data, ← hname.joinPath w.bundleDir]
  have htarget : w.target name = joinPath w.bundleDir name := rfl
  simp only [writeFile, hw, if_neg hname.ne_empty, if_neg hnew, htarget]
  rcases writeTarget d.tree (joinPath w.bundleDir name) data with ⟨r, t⟩
  cases r <;> simp

private theorem writeFile_laid {w : Writer} {places : List (List String)} {name : String}
    {data : Bytes}
    {n : Nat} (h : writeFile now handle name data d = (.ok n, d')) (hw : d.writers handle = some w)
    (hlaid : Laid d.tree w.bundleDir places) (hname : Downward name) :
    Laid d'.tree w.bundleDir (places ++ [below name]) ∧ d'.commits = d.commits := by
  unfold writeFile at h
  simp only [hw] at h
  split at h
  · cases h
  split at h
  · cases h
  rcases ht : writeTarget d.tree (w.target name) data with ⟨r, t⟩
  rw [ht] at h
  cases r with
  | error e => cases h
  | ok u =>
    obtain ⟨-, rfl⟩ := Prod.mk.inj h
    rw [Writer.target, hname.joinPath] at ht
    exact ⟨hlaid.write ht, rfl⟩

private theorem nested_comm {x y : List String} : Nested x y ↔ Nested y x := or_comm

/-- All files are written exactly when they fit beside each other and those before them. -/
theorem writeAll_isOk_iff {w : Writer} {places : List (List String)}
    {files : List (String × Bytes)} (hw : d.writers handle = some w)
    (hlaid : Laid d.tree w.bundleDir places) (hnames : ∀ e ∈ files, Downward e.1)
    (hnew : (w.written.map Prod.fst ++ files.map Prod.fst).Nodup) :
    (∃ d', writeAll now handle files d = .ok d') ↔
      (∀ e ∈ files, below e.1 ≠ [] ∧ ∀ y ∈ places, ¬Nested (below e.1) y) ∧
        files.Pairwise fun e e' => ¬Nested (below e.1) (below e'.1) := by
  induction files generalizing d w places with
  | nil => simp [writeAll]
  | cons e rest ih =>
    have hfresh : e.1 ∉ w.written.map Prod.fst := by
      rw [List.map_cons, List.nodup_append] at hnew
      exact fun hm => hnew.2.2 _ hm _ (by simp) rfl
    have hone : (∃ n d', writeFile now handle e.1 e.2 d = (.ok n, d')) ↔
        below e.1 ≠ [] ∧ ∀ y ∈ places, ¬Nested (below e.1) y :=
      writeFile_isOk_iff hw hlaid (hnames e (by simp)) hfresh
    have hrest : (∃ d', writeAll now handle (e :: rest) d = .ok d') ↔
        ∃ n d₁, writeFile now handle e.1 e.2 d = (.ok n, d₁) ∧
          ∃ d', writeAll now handle rest d₁ = .ok d' := by
      rw [writeAll]
      rcases writeFile now handle e.1 e.2 d with ⟨r, d₁⟩
      cases r <;> simp
    have hgo : ∀ n d₁, writeFile now handle e.1 e.2 d = (.ok n, d₁) →
        ((∃ d', writeAll now handle rest d₁ = .ok d') ↔
          (∀ e' ∈ rest, below e'.1 ≠ [] ∧ ∀ y ∈ places ++ [below e.1], ¬Nested (below e'.1) y) ∧
            rest.Pairwise fun e e' => ¬Nested (below e.1) (below e'.1)) := by
      intro n d₁ h₁
      refine ih (writeFile_ok h₁ hw).1 (writeFile_laid h₁ hw hlaid (hnames e (by simp))).1
        (fun e' he' => hnames e' (by simp [he'])) ?_
      simpa using hnew
    rw [hrest]
    constructor
    · rintro ⟨n, d₁, h₁, hr⟩
      obtain ⟨hall, hpair⟩ := (hgo n d₁ h₁).mp hr
      refine ⟨fun e' he' => ?_, List.pairwise_cons.mpr ⟨fun e' he' hn => ?_, hpair⟩⟩
      · rcases List.mem_cons.mp he' with rfl | he'
        · exact hone.mp ⟨n, d₁, h₁⟩
        · exact ⟨(hall e' he').1, fun y hy => (hall e' he').2 y (by simp [hy])⟩
      · exact (hall e' he').2 (below e.1) (by simp) (nested_comm.mp hn)
    · rintro ⟨hall, hpair⟩
      obtain ⟨n, d₁, h₁⟩ := hone.mpr (hall e (by simp))
      rw [List.pairwise_cons] at hpair
      refine ⟨n, d₁, h₁, (hgo n d₁ h₁).mpr ⟨fun e' he' => ⟨(hall e' (by simp [he'])).1, ?_⟩,
        hpair.2⟩⟩
      intro y hy
      rcases List.mem_append.mp hy with hy | hy
      · exact (hall e' (by simp [he'])).2 y hy
      · rw [List.mem_singleton.mp hy, nested_comm]
        exact hpair.1 e' he'

private theorem writeAll_laid {w : Writer} {places : List (List String)}
    {files : List (String × Bytes)}
    (h : writeAll now handle files d = .ok d') (hw : d.writers handle = some w)
    (hlaid : Laid d.tree w.bundleDir places) (hnames : ∀ e ∈ files, Downward e.1) :
    Laid d'.tree w.bundleDir (places ++ files.map fun e => below e.1) ∧
      d'.commits = d.commits := by
  induction files generalizing d w places with
  | nil =>
    obtain rfl := Except.ok.inj h
    exact ⟨by simpa using hlaid, rfl⟩
  | cons e rest ih =>
    unfold writeAll at h
    split at h
    · cases h
    · rename_i n d₁ h₁
      obtain ⟨hlaid₁, hc₁⟩ := writeFile_laid h₁ hw hlaid (hnames e (by simp))
      obtain ⟨hlaid', hc'⟩ := ih h (writeFile_ok h₁ hw).1 hlaid₁
        fun e' he' => hnames e' (by simp [he'])
      exact ⟨by simpa using hlaid', hc'.trans hc₁⟩

/-! ## Committing -/

/-- A manifest that passes the checks is put in place exactly when neither of its two names is
that of a directory. -/
theorem commit_isOk_iff_of_isDir {w : Writer} {m : BundleMeta} (hw : d.writers handle = some w)
    (hdir : d.tree.isDir w.bundleDir = true) :
    (∃ d', commit now handle m d = (.ok (), d')) ↔ commitCheck w m = .ok () ∧
      d.tree.get (normalize (metaPath w.bundleDir)) ≠ some .dir ∧
        d.tree.get (normalize (tmpPath w.bundleDir)) ≠ some .dir := by
  have hne : normalize (tmpPath w.bundleDir) ≠ normalize (metaPath w.bundleDir) := by
    simp [normalize_tmpPath, normalize_metaPath, tmp_ne_manifest]
  have hok : (∃ d', commit now handle m d = (.ok (), d')) ↔ commitCheck w m = .ok () ∧
      ∃ t t', d.tree.write (tmpPath w.bundleDir) (.manifest m d.commits.length) = .ok t ∧
        t.rename (tmpPath w.bundleDir) (metaPath w.bundleDir) = .ok t' := by
    simp only [commit, hw]
    cases commitCheck w m with
    | error e => simp
    | ok u =>
      cases ht : d.tree.write (tmpPath w.bundleDir) (.manifest m d.commits.length) with
      | error e => simp
      | ok t =>
        cases hr : t.rename (tmpPath w.bundleDir) (metaPath w.bundleDir) with
        | error e => simp [hr]
        | ok t' => simp [hr]
  have hresolve : ∀ k, d.tree.resolve (w.bundleDir ++ [.into k]) =
      .ok (normalize (w.bundleDir ++ [.into k])) := fun k =>
    Tree.resolve_concat_of_isDir hdir _
  rw [hok]
  refine and_congr_right fun _ => ?_
  constructor
  · rintro ⟨t, t', ht, hr⟩
    obtain ⟨c, -, ⟨-, -, hnd⟩, -⟩ := Tree.rename_ok hr hne
    rw [← Bool.not_eq_true, Tree.dirAt_iff] at hnd
    exact ⟨fun hd => hnd (keepsDirs_write ht _ hd), (Tree.write_ok ht).2.1⟩
  · rintro ⟨hmeta, htmp⟩
    obtain ⟨t, ht⟩ := (Tree.write_isOk_iff (c := Blob.manifest m d.commits.length)).mpr
      ⟨hresolve bundleManifestTmp, htmp⟩
    have ht' : d.tree.write (tmpPath w.bundleDir) (.manifest m d.commits.length) = .ok t := ht
    obtain ⟨-, -, -, hget⟩ := Tree.write_ok ht'
    have hread : t.readFile (tmpPath w.bundleDir) = some (.manifest m d.commits.length) := by
      rw [Tree.readFile_eq_some_iff]
      refine ⟨Tree.resolveFrom_mono (keepsDirs_write ht') (hresolve bundleManifestTmp), ?_⟩
      rw [hget, if_pos rfl]
    obtain ⟨t₁, ht₁⟩ : ∃ t₁, t.write (metaPath w.bundleDir) (.manifest m d.commits.length) =
        .ok t₁ := Tree.write_isOk_iff.mpr
      ⟨Tree.resolveFrom_mono (keepsDirs_write ht') (hresolve bundleManifest), by
        rw [hget, if_neg hne.symm]
        exact hmeta⟩
    refine ⟨t, t₁.remove (normalize (tmpPath w.bundleDir)), ht', ?_⟩
    simp only [Tree.rename, hread, ht₁, if_neg hne]

/-- In a laid-out directory a manifest is put in place exactly when no file has made one of its
two names a directory. -/
theorem commit_isOk_iff {w : Writer} {places : List (List String)} {m : BundleMeta}
    (hw : d.writers handle = some w) (hlaid : Laid d.tree w.bundleDir places) :
    (∃ d', commit now handle m d = (.ok (), d')) ↔ commitCheck w m = .ok () ∧
      (∀ x ∈ places, ¬StrictlyInside [bundleManifest] x) ∧
        ∀ x ∈ places, ¬StrictlyInside [bundleManifestTmp] x := by
  have hdir : ∀ k, d.tree.get (normalize w.bundleDir ++ [k]) ≠ some .dir ↔
      ∀ x ∈ places, ¬StrictlyInside [k] x := by
    intro k
    rw [ne_eq, hlaid.dir [k]]
    simp
  rw [commit_isOk_iff_of_isDir hw hlaid.isDir, normalize_metaPath, normalize_tmpPath]
  exact and_congr_right fun _ => and_congr (hdir bundleManifest) (hdir bundleManifestTmp)

/-! ## The whole write -/

/-- The files are those a manifest lists, with the lengths it lists. -/
structure Fills (m : BundleMeta) (files : List (String × Bytes)) : Prop where
  nodup : m.names.Nodup
  names : ∀ n, n ∈ m.names ↔ n ∈ files.map Prod.fst
  sizes : ∀ f ∈ m.files, ∃ data, (f.name, data) ∈ files ∧ (data.length : Int) = f.size

/-- A manifest that lists the files that were written passes the checks unless there are none. -/
theorem commitCheck_iff {w : Writer} {m : BundleMeta} (h : Fills m w.written) :
    commitCheck w m = .ok () ↔ m.names ≠ [] := by
  have hset : m.names.toFinset = (w.written.map Prod.fst).toFinset := by
    ext n
    rw [List.mem_toFinset, List.mem_toFinset, h.names]
  have hall : (m.files.all fun f => w.written.any fun e =>
      e.1 = f.name ∧ (e.2.length : Int) = f.size) = true := by
    rw [List.all_eq_true]
    intro f hf
    obtain ⟨data, hmem, hlen⟩ := h.sizes f hf
    exact List.any_eq_true.mpr ⟨(f.name, data), hmem, by simp [hlen]⟩
  have hnil : m.files = [] ↔ m.names = [] := by simp [BundleMeta.names]
  unfold commitCheck
  rw [if_neg (not_not.mpr h.nodup), if_neg (not_not.mpr hset), if_pos hall, ne_eq, ← hnil]
  split
  · rename_i hm
    simp [hm]
  · rename_i hm
    exact ⟨fun _ => hm, fun _ => rfl⟩

/-- At a free path a bundle is opened, written and committed exactly when the path can be
reached and the files fit. -/
theorem layout_isOk_iff {path : String} {files : List (String × Bytes)} {m : BundleMeta}
    (t₁ t₂ : Nat) (hfree : b.FreeAt d path) (hdown : ∀ e ∈ files, Downward e.1)
    (hnodup : (files.map Prod.fst).Nodup) (hfills : Fills m files) :
    (∃ k d₁ d₂ d₃, b.openBundleWrite t₁ path d = (.ok k, d₁) ∧ writeAll t₁ k files d₁ = .ok d₂ ∧
        commit t₂ k m d₂ = (.ok (), d₃)) ↔
      b.Reachable d path ∧ Storable m.names := by
  have hpair : (files.Pairwise fun e e' => ¬Nested (below e.1) (below e'.1)) ↔
      ∀ n ∈ m.names, ∀ n' ∈ m.names, ¬StrictlyInside (below n) (below n') := by
    constructor
    · intro hp n hn n' hn' hin
      obtain ⟨e, he, rfl⟩ := List.mem_map.mp ((hfills.names n).mp hn)
      obtain ⟨e', he', rfl⟩ := List.mem_map.mp ((hfills.names n').mp hn')
      have hall := hp.forall_of_forall_of_flip (fun x _ hx => by
        rcases hx with hx | hx <;> exact hx.2 rfl) (hp.imp fun h hn => h (nested_comm.mp hn))
      exact hall he he' (.inl hin)
    · intro h
      refine List.pairwise_of_forall_mem_list fun e he e' he' hn => ?_
      have hm : e.1 ∈ m.names := (hfills.names _).mpr (List.mem_map_of_mem (f := Prod.fst) he)
      have hm' : e'.1 ∈ m.names := (hfills.names _).mpr (List.mem_map_of_mem (f := Prod.fst) he')
      rcases hn with hin | hin
      · exact h _ hm _ hm' hin
      · exact h _ hm' _ hm hin
  have hfiles : ∀ p : List String → Prop, (∀ e ∈ files, p (below e.1)) ↔
      ∀ n ∈ m.names, p (below n) := by
    intro p
    constructor
    · intro h n hn
      obtain ⟨e, he, rfl⟩ := List.mem_map.mp ((hfills.names n).mp hn)
      exact h e he
    · exact fun h e he => h _ ((hfills.names _).mpr (List.mem_map_of_mem (f := Prod.fst) he))
  have hwrite : ∀ k d₁, b.openBundleWrite t₁ path d = (.ok k, d₁) →
      ((∃ d₂, writeAll t₁ k files d₁ = .ok d₂) ↔ (∀ n ∈ m.names, below n ≠ []) ∧
        ∀ n ∈ m.names, ∀ n' ∈ m.names, ¬StrictlyInside (below n) (below n')) := by
    intro k d₁ hopen
    obtain ⟨hw, hlaid, -⟩ := openBundleWrite_laid hopen
    rw [writeAll_isOk_iff hw hlaid hdown (by simpa using hnodup), hpair, ← hfiles fun x => x ≠ []]
    simp
  have hcommit : ∀ k d₁ d₂, b.openBundleWrite t₁ path d = (.ok k, d₁) →
      writeAll t₁ k files d₁ = .ok d₂ →
      ((∃ d₃, commit t₂ k m d₂ = (.ok (), d₃)) ↔ m.names ≠ [] ∧
        (∀ n ∈ m.names, ¬StrictlyInside [bundleManifest] (below n)) ∧
        ∀ n ∈ m.names, ¬StrictlyInside [bundleManifestTmp] (below n)) := by
    intro k d₁ d₂ hopen hwr
    obtain ⟨hw, hlaid, -⟩ := openBundleWrite_laid hopen
    obtain ⟨hw₂, -, -, -⟩ := writeAll_ok hwr hw
    obtain ⟨hlaid₂, -⟩ := writeAll_laid hwr hw hlaid hdown
    have hfills' : Fills m ([] ++ files) := by simpa using hfills
    have hplaces : ∀ p : List String → Prop, (∀ x ∈ [] ++ files.map (fun e => below e.1), p x) ↔
        ∀ n ∈ m.names, p (below n) := by
      intro p
      rw [← hfiles p, List.nil_append, List.forall_mem_map]
    rw [commit_isOk_iff hw₂ hlaid₂, commitCheck_iff hfills',
      hplaces fun x => ¬StrictlyInside [bundleManifest] x,
      hplaces fun x => ¬StrictlyInside [bundleManifestTmp] x]
  have hreach : (∃ k d', b.openBundleWrite t₁ path d = (.ok k, d')) ↔ b.Reachable d path :=
    openBundleWrite_isOk_iff hfree
  rw [← hreach]
  constructor
  · rintro ⟨k, d₁, d₂, d₃, hopen, hwr, hc⟩
    obtain ⟨hdown', hside⟩ := (hwrite k d₁ hopen).mp ⟨d₂, hwr⟩
    obtain ⟨hne, hmeta, htmp⟩ := (hcommit k d₁ d₂ hopen hwr).mp ⟨d₃, hc⟩
    exact ⟨⟨k, d₁, hopen⟩, hne, hdown', hside, hmeta, htmp⟩
  · rintro ⟨⟨k, d₁, hopen⟩, hs⟩
    obtain ⟨d₂, hwr⟩ := (hwrite k d₁ hopen).mpr ⟨hs.leads_down, hs.side_by_side⟩
    obtain ⟨d₃, hc⟩ := (hcommit k d₁ d₂ hopen hwr).mpr
      ⟨hs.some_name, hs.beside_manifest, hs.beside_tmp⟩
    exact ⟨k, d₁, d₂, d₃, hopen, hwr, hc⟩

/-- What a whole write leaves: one more commit, with its manifest in place. -/
theorem layout_committed {path : String} {files : List (String × Bytes)} {m : BundleMeta}
    {t₁ t₂ k : Nat} {d₁ d₂ d₃ : Disk} (hopen : b.openBundleWrite t₁ path d = (.ok k, d₁))
    (hwr : writeAll t₁ k files d₁ = .ok d₂) (hc : commit t₂ k m d₂ = (.ok (), d₃))
    (hdown : ∀ e ∈ files, Downward e.1) :
    d₃.commits = d.commits ++ [⟨b.location path, m, files⟩] ∧
      b.readBundleMeta d₃.tree path = some m := by
  obtain ⟨hw, hlaid, hc₁⟩ := openBundleWrite_laid hopen
  obtain ⟨hw₂, -, -, -⟩ := writeAll_ok hwr hw
  obtain ⟨-, hc₂⟩ := writeAll_laid hwr hw hlaid hdown
  obtain ⟨-, -, hmeta, hfiles⟩ := commit_ok hc hw₂
  constructor
  · rcases commit_cases t₂ k m d₂ with
      ⟨e, heq⟩ | ⟨w, hw', -, ⟨e, t, heq, -⟩ | ⟨t, t', heq, -⟩⟩
    · rw [heq] at hc
      cases hc
    · rw [heq] at hc
      cases hc
    · rw [heq] at hc
      obtain ⟨-, rfl⟩ := Prod.mk.inj hc
      obtain rfl := Option.some.inj (hw₂.symm.trans hw')
      show d₂.commits ++ _ = _
      rw [hc₂, hc₁]
      rfl
  · have hread : d₃.tree.readFile (metaPath (b.resolve path)) =
        some (.manifest m d₂.commits.length) := by
      rw [KeepsDirs.readFile (fun q hq => hq) hmeta, hfiles, normalize_metaPath, Writer.loc,
        Function.update_self]
    rw [readBundleMeta, hread]
    rfl

end Backend

end Cassetta
