import Cassetta.Storage.PrefixFree

/-!
# What a commit leaves to read

One writer opens a free path, writes its files in some order and commits. Its names come from
an accepted manifest, which compares them as strings; on disk they are compared after `pathlib`
has read them, and the writer's own two names lie in the same directory.
-/

namespace Cassetta

open FileTree

/-! ## The write -/

namespace Backend

/-- The writes of a bundle, one after the other; the first that fails ends them. -/
def writeAll (now handle : Nat) : List (String × Bytes) → Disk → Except StorageError Disk
  | [], d => .ok d
  | e :: rest, d =>
    match writeFile now handle e.1 e.2 d with
    | (.error err, _) => .error err
    | (.ok _, d') => writeAll now handle rest d'

/-- Open, write and commit. -/
def writeWhole (b : Backend) (now : Nat) (path : String) (files : List (String × Bytes))
    (m : BundleMeta) (d : Disk) : Except StorageError Disk :=
  match b.openBundleWrite now path d with
  | (.error err, _) => .error err
  | (.ok handle, d₁) =>
    match writeAll now handle files d₁ with
    | .error err => .error err
    | .ok d₂ =>
      match commit now handle m d₂ with
      | (.error err, _) => .error err
      | (.ok (), d₃) => .ok d₃

/-- No name leads to the temporary manifest; one that leads to the manifest brings the very
bytes of it; and names that lead to one place bring the same bytes. -/
def Unaliased (b : Backend) (m : BundleMeta) (files : List (String × Bytes)) : Prop :=
  (∀ e ∈ files, steps e.1 ≠ [.into bundleManifestTmp]) ∧
    (∀ e ∈ files, steps e.1 = [.into bundleManifest] → e.2 = b.dumps m) ∧
    ∀ e ∈ files, ∀ e' ∈ files, steps e.1 = steps e'.1 → e.2 = e'.2

instance (b : Backend) (m : BundleMeta) (files : List (String × Bytes)) :
    Decidable (b.Unaliased m files) := inferInstanceAs (Decidable (_ ∧ _))

end Backend

/-! ## Directories stay -/

/-- Every directory of the first tree is one of the second. -/
def KeepsDirs (t t' : DataTree) : Prop := ∀ q, t.get q = some .dir → t'.get q = some .dir

/-- Directories that are kept twice are kept. -/
theorem KeepsDirs.trans {t₁ t₂ t₃ : DataTree} (h : KeepsDirs t₁ t₂) (h' : KeepsDirs t₂ t₃) :
    KeepsDirs t₁ t₃ := fun q hq => h' q (h q hq)

/-- A write keeps the directories. -/
theorem keepsDirs_write {t t' : DataTree} {path : List (Step String)} {c : Blob}
    (h : t.write path c = .ok t') : KeepsDirs t t' := by
  obtain ⟨-, hnd, -, hget⟩ := Tree.write_ok h
  intro q hq
  rw [hget, if_neg, hq]
  rintro rfl
  exact hnd hq

/-- A rename keeps the directories. -/
theorem keepsDirs_rename {t t' : DataTree} {src dst : List (Step String)}
    (h : t.rename src dst = .ok t') (hne : normalize src ≠ normalize dst) : KeepsDirs t t' := by
  obtain ⟨c, hsrc, ⟨-, -, hnd⟩, hget⟩ := Tree.rename_ok h hne
  intro q hq
  have hdst : q ≠ normalize dst := by
    rintro rfl
    rw [← Bool.not_eq_true, Tree.dirAt_iff] at hnd
    exact hnd hq
  have hsrc' : q ≠ normalize src := by
    rintro rfl
    rw [hq] at hsrc
    cases hsrc
  rw [hget, if_neg hdst, if_neg hsrc', hq]

/-- A path that has resolved once is read at its location ever after. -/
theorem KeepsDirs.readFile {t t' : DataTree} (h : KeepsDirs t t') {path : List (Step String)}
    (hr : t.resolve path = .ok (normalize path)) :
    t'.readFile path = t'.fileAt (normalize path) := by
  have hr' := Tree.resolveFrom_mono h hr
  refine Option.ext fun c => ?_
  rw [Tree.readFile_eq_some_iff, Tree.fileAt_eq_some_iff]
  exact ⟨And.right, fun hc => ⟨hr', hc⟩⟩

/-! ## The writes -/

namespace Backend

/-- What a write that succeeds does. -/
theorem writeFile_ok {now handle : Nat} {name : String} {data : Bytes} {d d' : Disk} {n : Nat}
    (h : writeFile now handle name data d = (.ok n, d')) {w : Writer}
    (hw : d.writers handle = some w) :
    d'.writers handle = some { w with written := w.written ++ [(name, data)] } ∧
      KeepsDirs d.tree d'.tree ∧
      d'.tree.resolve (w.target name) = .ok (normalize (w.target name)) ∧
      d'.tree.fileAt = Function.update d.tree.fileAt (fileLoc w.loc name) (some (.raw data)) := by
  rcases writeFile_cases now handle name data d with
    ⟨e, heq⟩ | ⟨w', hw', -, -, ⟨e, t, heq, -⟩ | ⟨t, t', hg, hwr, heq⟩⟩
  · rw [heq] at h
    cases h
  · rw [heq] at h
    cases h
  · obtain rfl := Option.some.inj (hw.symm.trans hw')
    rw [heq] at h
    obtain ⟨-, rfl⟩ := Prod.mk.inj h
    have hkeep := keepsDirs_write hwr
    refine ⟨Function.update_self .., KeepsDirs.trans (fun q => hg.get_some) hkeep, ?_, ?_⟩
    · exact Tree.resolveFrom_mono hkeep (Tree.write_ok hwr).1
    · rw [Disk.setTree_tree, Tree.fileAt_write hwr, hg.fileAt_eq, Writer.normalize_target]

/-- After the writes every name can be reached, and finds what was written last where it
leads. -/
theorem writeAll_ok {now handle : Nat} {files : List (String × Bytes)} {d d' : Disk}
    (h : writeAll now handle files d = .ok d') {w : Writer} (hw : d.writers handle = some w) :
    d'.writers handle = some { w with written := w.written ++ files } ∧
      KeepsDirs d.tree d'.tree ∧
      (∀ q, (∀ e ∈ files, fileLoc w.loc e.1 ≠ q) → d'.tree.fileAt q = d.tree.fileAt q) ∧
      ∀ e ∈ files, d'.tree.resolve (w.target e.1) = .ok (normalize (w.target e.1)) ∧
        ∃ e' ∈ files, fileLoc w.loc e'.1 = fileLoc w.loc e.1 ∧
          d'.tree.fileAt (fileLoc w.loc e.1) = some (.raw e'.2) := by
  induction files generalizing d w with
  | nil =>
    obtain rfl := Except.ok.inj h
    exact ⟨by simpa using hw, fun _ hq => hq, fun _ _ => rfl, by simp⟩
  | cons e rest ih =>
    unfold writeAll at h
    split at h
    · cases h
    · rename_i n d₁ heq
      obtain ⟨hw₁, hkeep₁, hres₁, hfile₁⟩ := writeFile_ok heq hw
      obtain ⟨hw', hkeep, hframe, hall⟩ := ih h hw₁
      refine ⟨by simpa using hw', hkeep₁.trans hkeep, fun q hq => ?_, fun e' he' => ?_⟩
      · rw [hframe q fun e' he' => hq e' (by simp [he']), hfile₁,
          Function.update_of_ne (hq e (by simp)).symm]
      · by_cases hlater : ∃ e₁ ∈ rest, fileLoc w.loc e₁.1 = fileLoc w.loc e'.1
        · obtain ⟨e₁, he₁, hl₁⟩ := hlater
          obtain ⟨-, e₂, he₂, hl₂, hf₂⟩ := hall e₁ he₁
          rcases List.mem_cons.mp he' with rfl | hrest
          · refine ⟨Tree.resolveFrom_mono hkeep hres₁, e₂, by simp [he₂], ?_, ?_⟩
            · exact hl₂.trans hl₁
            · rw [← hl₁]
              exact hf₂
          · obtain ⟨hres, e₃, he₃, hl₃, hf₃⟩ := hall e' hrest
            exact ⟨hres, e₃, by simp [he₃], hl₃, hf₃⟩
        · rcases List.mem_cons.mp he' with rfl | hrest
          · refine ⟨Tree.resolveFrom_mono hkeep hres₁, e', by simp, rfl, ?_⟩
            rw [hframe _ fun e₁ he₁ hl₁ => hlater ⟨e₁, he₁, hl₁⟩, hfile₁, Function.update_self]
          · exact absurd ⟨e', hrest, rfl⟩ hlater

/-- A writer takes no name twice. -/
theorem writeAll_nodup {now handle : Nat} {files : List (String × Bytes)} {d d' : Disk}
    {w : Writer} (hw : d.writers handle = some w) (hnodup : (w.written.map Prod.fst).Nodup)
    (h : writeAll now handle files d = .ok d') :
    ((w.written ++ files).map Prod.fst).Nodup := by
  induction files generalizing d w with
  | nil => simpa using hnodup
  | cons e rest ih =>
    unfold writeAll at h
    rcases writeFile_cases now handle e.1 e.2 d with
      ⟨err, heq⟩ | ⟨w', hw', -, hnew, ⟨err, t, heq, -⟩ | ⟨t, t', -, -, heq⟩⟩
    · rw [heq] at h
      cases h
    · rw [heq] at h
      cases h
    · rw [heq] at h
      obtain rfl := Option.some.inj (hw.symm.trans hw')
      have hmore : ((w.written ++ [(e.1, e.2)]).map Prod.fst).Nodup := by
        rw [List.map_append, List.map_singleton, ← List.concat_eq_append]
        exact hnodup.concat hnew
      simpa using ih (Function.update_self ..) hmore h

/-! ## The commit -/

/-- What a commit that succeeds does. -/
theorem commit_ok {now handle : Nat} {m : BundleMeta} {d d' : Disk}
    (h : commit now handle m d = (.ok (), d')) {w : Writer} (hw : d.writers handle = some w) :
    commitCheck w m = .ok () ∧ KeepsDirs d.tree d'.tree ∧
      d'.tree.resolve (metaPath w.bundleDir) = .ok (normalize (metaPath w.bundleDir)) ∧
      d'.tree.fileAt = Function.update
        (Function.update d.tree.fileAt (w.loc ++ [bundleManifestTmp]) none)
        (w.loc ++ [bundleManifest]) (some (.manifest m d.commits.length)) := by
  have hne : normalize (tmpPath w.bundleDir) ≠ normalize (metaPath w.bundleDir) := by
    simp [normalize_tmpPath, normalize_metaPath, tmp_ne_manifest]
  unfold commit at h
  rw [hw] at h
  simp only at h
  cases hc : commitCheck w m with
  | error e => simp [hc] at h
  | ok u =>
    cases ht : d.tree.write (tmpPath w.bundleDir) (.manifest m d.commits.length) with
    | error e => simp [hc, ht] at h
    | ok t =>
      cases hr : t.rename (tmpPath w.bundleDir) (metaPath w.bundleDir) with
      | error e => simp [hc, ht, hr] at h
      | ok t' =>
        simp only [hc, ht, hr] at h
        obtain ⟨-, rfl⟩ := Prod.mk.inj h
        have hkeep := keepsDirs_rename hr hne
        refine ⟨rfl, (keepsDirs_write ht).trans hkeep, ?_, ?_⟩
        · unfold Tree.rename at hr
          split at hr
          · cases hr
          · split at hr
            · cases hr
            · rename_i t₁ hw₁
              exact Tree.resolveFrom_mono hkeep (Tree.write_ok hw₁).1
        · rw [Disk.setTree_tree, Tree.fileAt_rename hr hne, Tree.fileAt_write ht,
            normalize_tmpPath, normalize_metaPath, ← Writer.loc]
          simp

/-! ## Reading back -/

variable {b : Backend} {now : Nat} {path : String} {files : List (String × Bytes)}
  {m : BundleMeta} {d d' : Disk}

section Written

variable {handle t₁ t₂ t₃ : Nat} {d₁ d₂ d₃ : Disk}
  (hopen : b.openBundleWrite t₁ path d = (.ok handle, d₁))
  (hwrite : writeAll t₂ handle files d₁ = .ok d₂)
  (hcommit : commit t₃ handle m d₂ = (.ok (), d₃))

include hopen

/-- An open leaves a writer at its path. -/
theorem writer_of_opened : d₁.writers handle = some ⟨b.resolve path, []⟩ := by
  rcases openBundleWrite_cases (b := b) t₁ path d with
    ⟨e, t, heq, -⟩ | ⟨e, heq⟩ | ⟨t, t', -, -, -, heq⟩
  · rw [heq] at hopen
    cases hopen
  · rw [heq] at hopen
    cases hopen
  · rw [heq] at hopen
    obtain ⟨hh, rfl⟩ := Prod.mk.inj hopen
    obtain rfl := Except.ok.inj hh
    exact Function.update_self ..

include hwrite hcommit

/-- What the commit leaves, its three parts each at a time of their own. -/
theorem committed_ok :
    commitCheck ⟨b.resolve path, files⟩ m = .ok () ∧ b.readBundleMeta d₃.tree path = some m ∧
      (∀ e ∈ files, b.openBundleFileRead d₃.tree path e.1 =
        (d₃.tree.fileAt (fileLoc (b.location path) e.1)).map b.bytesOf) ∧
      ∀ e ∈ files, ∃ e' ∈ files,
        fileLoc (b.location path) e'.1 = fileLoc (b.location path) e.1 ∧
        (d₃.tree.fileAt (fileLoc (b.location path) e.1)).map b.bytesOf =
          if fileLoc (b.location path) e.1 = b.location path ++ [bundleManifest] then
            some (b.dumps m)
          else if fileLoc (b.location path) e.1 = b.location path ++ [bundleManifestTmp] then none
          else some e'.2 := by
  obtain ⟨hw₂, -, -, hall⟩ := writeAll_ok hwrite (writer_of_opened hopen)
  obtain ⟨hcheck, hkeep, hmeta, hfiles⟩ := commit_ok hcommit hw₂
  have hloc : Writer.loc ⟨b.resolve path, [] ++ files⟩ = b.location path := rfl
  have hwloc : Writer.loc ⟨b.resolve path, []⟩ = b.location path := rfl
  simp only [hloc] at hfiles
  have hread : d₃.tree.readFile (metaPath (b.resolve path)) =
      some (.manifest m d₂.commits.length) := by
    rw [KeepsDirs.readFile (fun q hq => hq) hmeta, hfiles, normalize_metaPath, ← location,
      Function.update_self]
  refine ⟨hcheck, ?_, fun e he => ?_, fun e he => ?_⟩
  · rw [readBundleMeta, hread]
    rfl
  · obtain ⟨hres, -⟩ := hall e he
    have htarget : joinPath (b.resolve path) e.1 = Writer.target ⟨b.resolve path, []⟩ e.1 := rfl
    rw [openBundleFileRead, Tree.isFile, hread, htarget, hkeep.readFile hres,
      Writer.normalize_target, hwloc]
    rfl
  · obtain ⟨-, e', he', hl, hf⟩ := hall e he
    refine ⟨e', he', hl, ?_⟩
    rw [hwloc] at hf
    rw [hfiles]
    by_cases hman : fileLoc (b.location path) e.1 = b.location path ++ [bundleManifest]
    · simp [hman, bytesOf]
    · rw [Function.update_of_ne hman, if_neg hman]
      by_cases htmp : fileLoc (b.location path) e.1 = b.location path ++ [bundleManifestTmp]
      · simp [htmp]
      · rw [Function.update_of_ne htmp, if_neg htmp, hf]
        rfl

/-- What is read after an open, the writes and a commit that all succeed. -/
theorem written_ok :
    (∀ n, n ∈ m.names ↔ n ∈ files.map Prod.fst) ∧ b.readBundleMeta d₃.tree path = some m ∧
      ∀ e ∈ files, ∃ e' ∈ files,
        fileLoc (b.location path) e'.1 = fileLoc (b.location path) e.1 ∧
        b.openBundleFileRead d₃.tree path e.1 =
          if fileLoc (b.location path) e.1 = b.location path ++ [bundleManifest] then
            some (b.dumps m)
          else if fileLoc (b.location path) e.1 = b.location path ++ [bundleManifestTmp] then none
          else some e'.2 := by
  obtain ⟨hcheck, hmeta, hread, hall⟩ := committed_ok hopen hwrite hcommit
  refine ⟨(commitCheck_ok hcheck).2.2.1, hmeta, fun e he => ?_⟩
  rw [hread e he]
  exact hall e he

end Written

/-- A write that went through has opened, written and committed. -/
theorem writeWhole_parts (h : b.writeWhole now path files m d = .ok d') :
    ∃ handle d₁ d₂, b.openBundleWrite now path d = (.ok handle, d₁) ∧
      writeAll now handle files d₁ = .ok d₂ ∧ commit now handle m d₂ = (.ok (), d') := by
  unfold writeWhole at h
  split at h
  · cases h
  rename_i handle d₁ hopen
  split at h
  · cases h
  rename_i d₂ hwrite
  split at h
  · cases h
  rename_i d₃ hcommit
  obtain rfl := Except.ok.inj h
  exact ⟨handle, d₁, d₂, hopen, hwrite, hcommit⟩

/-- No name leads to the temporary manifest; one that leads to the manifest brings the very
bytes of it; and names that lead to one place bring the same bytes. -/
structure Apart (b : Backend) (loc : List String) (m : BundleMeta)
    (files : List (String × Bytes)) : Prop where
  tmp : ∀ e ∈ files, fileLoc loc e.1 ≠ loc ++ [bundleManifestTmp]
  manifest : ∀ e ∈ files, fileLoc loc e.1 = loc ++ [bundleManifest] → e.2 = b.dumps m
  same : ∀ e ∈ files, ∀ e' ∈ files, fileLoc loc e.1 = fileLoc loc e'.1 → e.2 = e'.2

/-- Every file of a write that went through reads back exactly if no names meet. -/
theorem read_back_iff (h : b.writeWhole now path files m d = .ok d') :
    (∀ e ∈ files, b.openBundleFileRead d'.tree path e.1 = some e.2) ↔
      b.Apart (b.location path) m files := by
  obtain ⟨handle, d₁, d₂, hopen, hwrite, hcommit⟩ := writeWhole_parts h
  obtain ⟨-, -, hread, hfile⟩ := committed_ok hopen hwrite hcommit
  constructor
  · intro hall
    refine ⟨fun e he htmp => ?_, fun e he hman => ?_, fun e he e' he' hl => ?_⟩
    · obtain ⟨_, -, -, hr⟩ := hfile e he
      have hne : fileLoc (b.location path) e.1 ≠ b.location path ++ [bundleManifest] := by
        simp [htmp, tmp_ne_manifest]
      rw [← hread e he, hall e he, if_neg hne, if_pos htmp] at hr
      cases hr
    · obtain ⟨_, -, -, hr⟩ := hfile e he
      rw [← hread e he, hall e he, if_pos hman] at hr
      exact Option.some.inj hr
    · have hone := hread e he
      rw [hl, ← hread e' he', hall e he, hall e' he'] at hone
      exact Option.some.inj hone
  · intro hapart e he
    obtain ⟨e', he', hl, hr⟩ := hfile e he
    rw [hread e he, hr]
    split
    · rename_i hman
      rw [hapart.manifest e he hman]
    · rw [if_neg (hapart.tmp e he), hapart.same e' he' e he hl]

private theorem writeWhole_ok (h : b.writeWhole now path files m d = .ok d') :
    (∀ n, n ∈ m.names ↔ n ∈ files.map Prod.fst) ∧ b.readBundleMeta d'.tree path = some m ∧
      ∀ e ∈ files, ∃ e' ∈ files,
        fileLoc (b.location path) e'.1 = fileLoc (b.location path) e.1 ∧
        b.openBundleFileRead d'.tree path e.1 =
          if fileLoc (b.location path) e.1 = b.location path ++ [bundleManifest] then
            some (b.dumps m)
          else if fileLoc (b.location path) e.1 = b.location path ++ [bundleManifestTmp] then none
          else some e'.2 := by
  obtain ⟨handle, d₁, d₂, hopen, hwrite, hcommit⟩ := writeWhole_parts h
  exact written_ok hopen hwrite hcommit

/-- Of a write under an accepted manifest that went through, every listed name reads back
exactly what was written under it if and only if no two names, and no name and the writer's
own, meet on disk with different contents. -/
theorem read_committed_iff (hm : validateManifest m.names = .ok ())
    (h : b.writeWhole now path files m d = .ok d') :
    (b.readBundleMeta d'.tree path = some m ∧
      ∀ e ∈ files, b.openBundleFileRead d'.tree path e.1 = some e.2) ↔ b.Unaliased m files := by
  obtain ⟨hnames, hmeta, -⟩ := writeWhole_ok h
  have hspell : ∀ e ∈ files, ∃ x, steps e.1 = spell x ∧
      fileLoc (b.location path) e.1 = b.location path ++ x := fun e he =>
    exists_spell_of_manifest hm ((hnames e.1).mpr (List.mem_map_of_mem (f := Prod.fst) he)) _
  have hinj : ∀ x y : List String, spell x = spell y → x = y := fun x y hxy => by
    rw [← normalize_spell x, hxy, normalize_spell]
  have hone : ∀ e ∈ files, ∀ k, steps e.1 = [.into k] ↔
      fileLoc (b.location path) e.1 = b.location path ++ [k] := by
    intro e he k
    obtain ⟨x, hx, hl⟩ := hspell e he
    rw [hx, hl, List.append_right_inj]
    exact ⟨fun hs => hinj x [k] hs, fun hs => by rw [hs]; rfl⟩
  have hsame : ∀ e ∈ files, ∀ e' ∈ files, steps e.1 = steps e'.1 ↔
      fileLoc (b.location path) e.1 = fileLoc (b.location path) e'.1 := by
    intro e he e' he'
    obtain ⟨x, hx, hl⟩ := hspell e he
    obtain ⟨y, hy, hl'⟩ := hspell e' he'
    rw [hx, hy, hl, hl', List.append_right_inj]
    exact ⟨hinj x y, congrArg spell⟩
  rw [and_iff_right hmeta, read_back_iff h]
  constructor
  · rintro ⟨htmp, hman, hmeet⟩
    refine ⟨fun e he hs => htmp e he ((hone e he _).mp hs),
      fun e he hs => hman e he ((hone e he _).mp hs), fun e he e' he' hs => ?_⟩
    exact hmeet e he e' he' ((hsame e he e' he').mp hs)
  · rintro ⟨htmp, hman, hmeet⟩
    refine ⟨fun e he hl => htmp e he ((hone e he _).mpr hl),
      fun e he hl => hman e he ((hone e he _).mpr hl), fun e he e' he' hl => ?_⟩
    exact hmeet e he e' he' ((hsame e he e' he').mpr hl)

end Backend

/-! ## On a small disk -/

/-- A value of which something holds is there. -/
theorem exists_ok_of_any {ε α : Type} {x : Except ε α} {p : α → Bool}
    (h : x.toOption.any p = true) : ∃ a, x = .ok a ∧ p a = true := by
  cases x with
  | error e => cases h
  | ok a => exact ⟨a, rfl, h⟩

/-- Two files, one of them in a subdirectory. -/
theorem read_committed_two :
    ∃ d', srvBackend.writeWhole 0 "store/p" [("b/c", [2]), ("a", [1])] (smallMeta ["a", "b/c"])
        (Disk.init srvTree) = .ok d' ∧
      srvBackend.readBundleMeta d'.tree "store/p" = some (smallMeta ["a", "b/c"]) ∧
      ∀ e ∈ [("b/c", [2]), ("a", [1])],
        srvBackend.openBundleFileRead d'.tree "store/p" e.1 = some e.2 := by
  have hok : (srvBackend.writeWhole 0 "store/p" [("b/c", [2]), ("a", [1])]
      (smallMeta ["a", "b/c"]) (Disk.init srvTree)).toOption.any (fun _ => true) = true := by
    decide +kernel
  obtain ⟨d', hd', -⟩ := exists_ok_of_any hok
  exact ⟨d', hd', (Backend.read_committed_iff (by decide) hd').mpr (by decide)⟩

/-- A file under the name of the temporary manifest is gone after the commit. -/
theorem read_committed_lost :
    validateManifest [".meta.json.tmp"] = .ok () ∧
      ∃ d', srvBackend.writeWhole 0 "store/p" [(".meta.json.tmp", [1])]
          (smallMeta [".meta.json.tmp"]) (Disk.init srvTree) = .ok d' ∧
        srvBackend.openBundleFileRead d'.tree "store/p" ".meta.json.tmp" = none := by
  have hlost : (srvBackend.writeWhole 0 "store/p" [(".meta.json.tmp", [1])]
      (smallMeta [".meta.json.tmp"]) (Disk.init srvTree)).toOption.any
      (fun d' => srvBackend.openBundleFileRead d'.tree "store/p" ".meta.json.tmp" = none) =
      true := by
    decide +kernel
  obtain ⟨d', hd', hr⟩ := exists_ok_of_any hlost
  exact ⟨by decide, d', hd', by simpa using hr⟩

end Cassetta

