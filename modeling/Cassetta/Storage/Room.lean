import Cassetta.Core.Placing
import Cassetta.Storage.Laying

/-!
# Room for a bundle

The storage takes names as they come: they may lead up, be absolute, or cross each other. Whether
a bundle can be opened, filled and committed depends on nothing but its path, its names and the
tree: the path is free and can be reached, the names are there, not empty and different, and
there is room for the files and the two manifests.
-/

namespace Cassetta

open FileTree

namespace Backend

variable {b : Backend} {now handle : Nat} {d d' : Disk}

/-- A bundle with files of these names can be written at a path. -/
structure Room (b : Backend) (d : Disk) (path : String) (names : List String) : Prop where
  free : b.FreeAt d path
  reachable : b.Reachable d path
  some_name : names ≠ []
  named : "" ∉ names
  nodup : names.Nodup
  places : d.tree.HasRoom (names.map (joinPath (b.resolve path)) ++
    [metaPath (b.resolve path), tmpPath (b.resolve path)])

private theorem opened_isOk_iff {path : String} :
    (∃ k d', b.openBundleWrite now path d = (.ok k, d')) ↔
      b.FreeAt d path ∧ b.Reachable d path := by
  constructor
  · rintro ⟨k, d', h⟩
    have hfree : b.FreeAt d path := by
      rcases openBundleWrite_cases (b := b) now path d with
        ⟨e, t, heq, -⟩ | ⟨e, heq⟩ | ⟨t, t', hcheck, hg, hmk, -⟩
      · rw [heq] at h
        cases h
      · rw [heq] at h
        cases h
      · refine ⟨hcheck, ?_⟩
        have hn : t.get (b.location path) = none := (Tree.mkdir_ok hmk).2.1
        cases hc : d.tree.get (b.location path) with
        | none => rfl
        | some n =>
          rw [hg.get_some hc] at hn
          cases hn
    exact ⟨hfree, (openBundleWrite_isOk_iff hfree).mp ⟨k, d', h⟩⟩
  · rintro ⟨hfree, hreach⟩
    exact (openBundleWrite_isOk_iff hfree).mpr hreach

/-- A writer gets the next handle. -/
theorem openBundleWrite_handle {path : String} {k : Nat}
    (h : b.openBundleWrite now path d = (.ok k, d')) : k = d.nextWriter := by
  rcases openBundleWrite_cases (b := b) now path d with
    ⟨e, t, heq, -⟩ | ⟨e, heq⟩ | ⟨t, t', -, -, -, heq⟩
  · rw [heq] at h
    cases h
  · rw [heq] at h
    cases h
  · rw [heq] at h
    exact (Except.ok.inj (Prod.mk.inj h).1).symm

private theorem opened_room {path : String} {k : Nat} {paths : List (List (Step String))}
    (h : b.openBundleWrite now path d = (.ok k, d')) :
    d'.tree.HasRoom (paths ++ [metaPath (b.resolve path), tmpPath (b.resolve path)]) ↔
      d.tree.HasRoom (paths ++ [metaPath (b.resolve path), tmpPath (b.resolve path)]) := by
  rcases openBundleWrite_cases (b := b) now path d with
    ⟨e, t, heq, -⟩ | ⟨e, heq⟩ | ⟨t, t', -, hg, hmk, heq⟩
  · rw [heq] at h
    cases h
  · rw [heq] at h
    cases h
  rw [heq] at h
  obtain ⟨-, rfl⟩ := Prod.mk.inj h
  apply (Tree.hasRoom_mkdir_iff hg hmk).trans
  apply and_iff_left_of_imp
  intro hroom p hp pre hpre
  refine hroom.apart (metaPath (b.resolve path)) (by simp) p hp pre ?_
  rwa [metaPath, List.dropLast_concat]

private theorem written_isOk_iff {w : Writer} (now : Nat) (name : String) (data : Bytes)
    (paths : List (List (Step String))) (hw : d.writers handle = some w) :
    (∃ n d', writeFile now handle name data d = (.ok n, d') ∧ d'.tree.HasRoom paths) ↔
      name ≠ "" ∧ name ∉ w.written.map Prod.fst ∧
        d.tree.HasRoom (w.target name :: paths) := by
  constructor
  · rintro ⟨n, d', h, hroom⟩
    rcases writeFile_cases now handle name data d with
      ⟨e, heq⟩ | ⟨w', hw', hne, hnew, ⟨e, t, heq, -⟩ | ⟨t, t', hg, hwr, heq⟩⟩
    · rw [heq] at h
      cases h
    · rw [heq] at h
      cases h
    · obtain rfl := Option.some.inj (hw.symm.trans hw')
      rw [heq] at h
      obtain ⟨-, rfl⟩ := Prod.mk.inj h
      exact ⟨hne, hnew, (Tree.hasRoom_cons_iff hg hwr).mpr hroom⟩
  · rintro ⟨hne, hnew, hroom⟩
    obtain ⟨t, t', hm, hwr⟩ := hroom.head (c := Blob.raw data)
    have hg : Tree.Grown (w.target name) d.tree t := by
      have hparents := Tree.grown_mkdirParents d.tree (w.target name).dropLast
      rw [hm] at hparents
      exact hparents.mono (List.dropLast_prefix _)
    have htarget : writeTarget d.tree (w.target name) data = (.ok (), t') := by
      simp only [writeTarget, hm, hwr]
    refine ⟨data.length, { d.setTree now t' with
      writers := Function.update d.writers handle
        (some { w with written := w.written ++ [(name, data)] }) }, ?_,
      (Tree.hasRoom_cons_iff hg hwr).mp hroom⟩
    simp only [writeFile, hw, if_neg hne, if_neg hnew, htarget]

/-- All files are written, with room left for others, exactly if no name is empty or comes twice
and there is room for all. -/
theorem writeAll_room_iff {w : Writer} {files : List (String × Bytes)}
    {paths : List (List (Step String))} (hw : d.writers handle = some w) :
    (∃ d', writeAll now handle files d = .ok d' ∧ d'.tree.HasRoom paths) ↔
      (∀ e ∈ files, e.1 ≠ "" ∧ e.1 ∉ w.written.map Prod.fst) ∧ (files.map Prod.fst).Nodup ∧
        d.tree.HasRoom (files.map (fun e => w.target e.1) ++ paths) := by
  induction files generalizing d w with
  | nil => simp [writeAll]
  | cons e rest ih =>
    have hfirst : (∃ d', writeAll now handle (e :: rest) d = .ok d' ∧ d'.tree.HasRoom paths) ↔
        ∃ n d₁, writeFile now handle e.1 e.2 d = (.ok n, d₁) ∧
          ∃ d', writeAll now handle rest d₁ = .ok d' ∧ d'.tree.HasRoom paths := by
      rw [writeAll]
      rcases writeFile now handle e.1 e.2 d with ⟨r, d₁⟩
      cases r <;> simp
    have hrest : ∀ n d₁, writeFile now handle e.1 e.2 d = (.ok n, d₁) →
        ((∃ d', writeAll now handle rest d₁ = .ok d' ∧ d'.tree.HasRoom paths) ↔
          (∀ e' ∈ rest, e'.1 ≠ "" ∧ e'.1 ∉ w.written.map Prod.fst ∧ e'.1 ≠ e.1) ∧
            (rest.map Prod.fst).Nodup ∧
            d₁.tree.HasRoom (rest.map (fun e' => w.target e'.1) ++ paths)) := by
      intro n d₁ h₁
      rw [ih (writeFile_ok h₁ hw).1]
      simp [Writer.target]
    have hone := written_isOk_iff now e.1 e.2 (rest.map (fun e' => w.target e'.1) ++ paths) hw
    rw [hfirst]
    constructor
    · rintro ⟨n, d₁, h₁, hall⟩
      obtain ⟨hnames, hnodup, hroom⟩ := (hrest n d₁ h₁).mp hall
      obtain ⟨hne, hnew, hroom₁⟩ := hone.mp ⟨n, d₁, h₁, hroom⟩
      refine ⟨fun e' he' => ?_, ?_, hroom₁⟩
      · rcases List.mem_cons.mp he' with rfl | he'
        · exact ⟨hne, hnew⟩
        · exact ⟨(hnames e' he').1, (hnames e' he').2.1⟩
      · rw [List.map_cons, List.nodup_cons, List.mem_map]
        refine ⟨?_, hnodup⟩
        rintro ⟨e', he', heq⟩
        exact (hnames e' he').2.2 heq
    · rintro ⟨hnames, hnodup, hroom⟩
      rw [List.map_cons, List.nodup_cons, List.mem_map] at hnodup
      obtain ⟨hne, hnew⟩ := hnames e (by simp)
      obtain ⟨n, d₁, h₁, hroom₁⟩ := hone.mpr ⟨hne, hnew, hroom⟩
      refine ⟨n, d₁, h₁, (hrest n d₁ h₁).mpr ⟨fun e' he' => ?_, hnodup.2, hroom₁⟩⟩
      obtain ⟨hne', hnew'⟩ := hnames e' (by simp [he'])
      exact ⟨hne', hnew', fun heq => hnodup.1 ⟨e', he', heq⟩⟩

/-- A manifest that passes the checks is put in place exactly if there is room for it and for the
temporary one. -/
theorem commit_room_iff {w : Writer} {m : BundleMeta} (hw : d.writers handle = some w)
    (hdir : d.tree.isDir w.bundleDir = true) :
    (∃ d', commit now handle m d = (.ok (), d')) ↔ commitCheck w m = .ok () ∧
      d.tree.HasRoom [metaPath w.bundleDir, tmpPath w.bundleDir] := by
  rw [commit_isOk_iff_of_isDir hw hdir]
  apply and_congr_right
  intro _
  constructor
  · rintro ⟨hmeta, htmp⟩
    have hends : ∀ p ∈ [metaPath w.bundleDir, tmpPath w.bundleDir],
        d.tree.get (normalize p) ≠ some .dir ∧ p.dropLast = w.bundleDir := by
      intro p hp
      simp only [List.mem_cons, List.not_mem_nil, or_false] at hp
      rcases hp with rfl | rfl
      · exact ⟨hmeta, List.dropLast_concat⟩
      · exact ⟨htmp, List.dropLast_concat⟩
    refine ⟨fun p hp pre hpre c hc => ?_, fun p hp => (hends p hp).1,
      fun p hp p' hp' pre hpre he => ?_⟩
    · rw [(hends p hp).2] at hpre
      rw [get_of_isDir hdir hpre] at hc
      cases hc
    · rw [(hends p hp).2] at hpre
      exact (hends p' hp').1 (he ▸ get_of_isDir hdir hpre)
  · intro h
    exact ⟨h.ends _ (by simp), h.ends _ (by simp)⟩

private theorem fills_of_eq {m : BundleMeta} {files : List (String × Bytes)}
    (hm : m.files.map (fun f => (f.name, f.size)) = files.map fun e => (e.1, (e.2.length : Int)))
    (hnodup : (files.map Prod.fst).Nodup) : m.names = files.map Prod.fst ∧ Fills m files := by
  have hnames : m.names = files.map Prod.fst := by
    simpa [BundleMeta.names, Function.comp_def] using congrArg (List.map Prod.fst) hm
  refine ⟨hnames, hnames ▸ hnodup, fun n => by rw [hnames], fun f hf => ?_⟩
  have hmem : (f.name, f.size) ∈ files.map fun e => (e.1, (e.2.length : Int)) :=
    hm ▸ List.mem_map_of_mem hf
  obtain ⟨e, he, heq⟩ := List.mem_map.mp hmem
  obtain ⟨hname, hsize⟩ := Prod.mk.inj heq
  exact ⟨e.2, hname ▸ he, hsize⟩

/-- A bundle whose manifest lists its files is opened, filled and committed exactly if there is
room for it. -/
theorem room_iff (path : String) {files : List (String × Bytes)} {m : BundleMeta} (t₁ t₂ : Nat)
    (hm : m.files.map (fun f => (f.name, f.size)) = files.map fun e => (e.1, (e.2.length : Int))) :
    (∃ k d₁ d₂ d₃, b.openBundleWrite t₁ path d = (.ok k, d₁) ∧ writeAll t₁ k files d₁ = .ok d₂ ∧
        commit t₂ k m d₂ = (.ok (), d₃)) ↔ b.Room d path (files.map Prod.fst) := by
  have hmap : files.map (fun e => joinPath (b.resolve path) e.1) =
      (files.map Prod.fst).map (joinPath (b.resolve path)) := by simp
  have hempty : (∀ e ∈ files, e.1 ≠ "") ↔ "" ∉ files.map Prod.fst := by
    simp only [List.mem_map, not_exists, not_and]
  have hwrite : ∀ k d₁, b.openBundleWrite t₁ path d = (.ok k, d₁) →
      ((∃ d₂, writeAll t₁ k files d₁ = .ok d₂ ∧
          d₂.tree.HasRoom [metaPath (b.resolve path), tmpPath (b.resolve path)]) ↔
        "" ∉ files.map Prod.fst ∧ (files.map Prod.fst).Nodup ∧
          d.tree.HasRoom ((files.map Prod.fst).map (joinPath (b.resolve path)) ++
            [metaPath (b.resolve path), tmpPath (b.resolve path)])) := by
    intro k d₁ hopen
    rw [writeAll_room_iff (openBundleWrite_laid hopen).1, ← hempty, ← opened_room hopen, ← hmap]
    simp [Writer.target]
  have hcommit : ∀ k d₁ d₂, b.openBundleWrite t₁ path d = (.ok k, d₁) →
      writeAll t₁ k files d₁ = .ok d₂ →
      ((∃ d₃, commit t₂ k m d₂ = (.ok (), d₃)) ↔
        commitCheck ⟨b.resolve path, files⟩ m = .ok () ∧
          d₂.tree.HasRoom [metaPath (b.resolve path), tmpPath (b.resolve path)]) := by
    intro k d₁ d₂ hopen hwr
    obtain ⟨hw, hlaid, -⟩ := openBundleWrite_laid hopen
    obtain ⟨hw₂, hkeep, -, -⟩ := writeAll_ok hwr hw
    apply commit_room_iff hw₂
    obtain ⟨hres, hd⟩ := Tree.isDir_iff.mp hlaid.isDir
    exact Tree.isDir_iff.mpr ⟨Tree.resolveFrom_mono hkeep hres, hkeep _ hd⟩
  have hcheck : (files.map Prod.fst).Nodup →
      (commitCheck ⟨b.resolve path, files⟩ m = .ok () ↔ files.map Prod.fst ≠ []) := by
    intro hnodup
    obtain ⟨hnames, hfills⟩ := fills_of_eq hm hnodup
    rw [← hnames]
    exact commitCheck_iff hfills
  constructor
  · rintro ⟨k, d₁, d₂, d₃, hopen, hwr, hc⟩
    obtain ⟨hfree, hreach⟩ := opened_isOk_iff.mp ⟨k, d₁, hopen⟩
    obtain ⟨hpass, hroom⟩ := (hcommit k d₁ d₂ hopen hwr).mp ⟨d₃, hc⟩
    obtain ⟨hnamed, hnodup, hplaces⟩ := (hwrite k d₁ hopen).mp ⟨d₂, hwr, hroom⟩
    exact ⟨hfree, hreach, (hcheck hnodup).mp hpass, hnamed, hnodup, hplaces⟩
  · rintro ⟨hfree, hreach, hsome, hnamed, hnodup, hplaces⟩
    obtain ⟨k, d₁, hopen⟩ := opened_isOk_iff.mpr ⟨hfree, hreach⟩
    obtain ⟨d₂, hwr, hroom⟩ := (hwrite k d₁ hopen).mpr ⟨hnamed, hnodup, hplaces⟩
    obtain ⟨d₃, hc⟩ := (hcommit k d₁ d₂ hopen hwr).mpr ⟨(hcheck hnodup).mpr hsome, hroom⟩
    exact ⟨k, d₁, d₂, d₃, hopen, hwr, hc⟩

end Backend

end Cassetta
