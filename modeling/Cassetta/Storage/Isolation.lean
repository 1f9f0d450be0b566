import Cassetta.Storage.Ops

/-!
# Writers on one disk

A writer owns nothing but the path of its directory. This module says when that is enough:
in a run whose calls stay clear of the open writers' directories and of the insides of
committed bundles, every committed manifest lists files that hold what its writer wrote, and
an abort leaves every committed bundle as it is.
-/

namespace Cassetta

open FileTree

/-! ## The property -/

/-- A manifest that a commit put in place. -/
def ManifestAt (d : Disk) (loc : List String) (m : BundleMeta) (serial : Nat) : Prop :=
  d.tree.fileAt (loc ++ [bundleManifest]) = some (.manifest m serial)

/-- Every file a manifest lists lies in the bundle's directory and holds what the writer of
the numbered commit wrote under that name. -/
def HoldsCommit (d : Disk) (loc : List String) (m : BundleMeta) (serial : Nat) : Prop :=
  ∃ c, d.commits[serial]? = some c ∧ c.loc = loc ∧ c.manifest = m ∧
    ∀ f ∈ m.files, ∃ data, (f.name, data) ∈ c.written ∧
      StrictlyInside loc (fileLoc loc f.name) ∧
      d.tree.fileAt (fileLoc loc f.name) = some (.raw data)

/-- Every committed manifest, and every file it lists, is the same on the second disk. -/
def KeepsCommitted (d d' : Disk) : Prop :=
  ∀ loc m serial, ManifestAt d loc m serial → ManifestAt d' loc m serial ∧
    ∀ f ∈ m.files, d'.tree.fileAt (fileLoc loc f.name) = d.tree.fileAt (fileLoc loc f.name)

/-! ## The condition on each call -/

/-- A delete takes no file an open writer has written, and does not reach inside a committed
bundle. -/
def DeleteClear (d : Disk) (loc : List String) : Prop :=
  (∀ h w, d.writers h = some w → ∀ e ∈ w.written, ¬loc <+: fileLoc w.loc e.1) ∧
    ∀ l m serial, ManifestAt d l m serial → ¬StrictlyInside l loc

/-- A new file of a writer lies in its directory, beside the manifest, where the writer has
written nothing yet. -/
def WriteClear (w : Writer) (name : String) : Prop :=
  StrictlyInside w.loc (fileLoc w.loc name) ∧
    fileLoc w.loc name ≠ w.loc ++ [bundleManifest] ∧
    fileLoc w.loc name ≠ w.loc ++ [bundleManifestTmp] ∧
    ∀ e ∈ w.written, fileLoc w.loc e.1 ≠ fileLoc w.loc name

instance (w : Writer) (name : String) : Decidable (WriteClear w name) :=
  inferInstanceAs (Decidable (_ ∧ _))

/-- What a call must meet in the state it is made from. An open that the collision check lets
through is not above, at or below an open writer's directory. -/
def Backend.CallClear (b : Backend) (d : Disk) : BackendOp → Prop
  | .openBundleWrite _ path =>
    b.checkBundlePathCollision d.tree (b.resolve path) = none →
      ∀ h w, d.writers h = some w → ¬Comparable w.loc (b.location path)
  | .writeFile _ h name _ =>
    ∀ w, d.writers h = some w → name ≠ "" → name ∉ w.written.map Prod.fst → WriteClear w name
  | .commit .. => True
  | .abort .. => True
  | .deleteBundle _ path => DeleteClear d (b.location path)
  | .sweepNamespace now minAge pre =>
    ∀ path ∈ b.sweepTargets now minAge pre d, DeleteClear d (b.location path)

/-! ## The invariant -/

/-- Open writers have incomparable directories that hold what they wrote and nothing of a
committed bundle, and every committed bundle is complete. -/
structure Isolated (d : Disk) : Prop where
  fresh : ∀ h, d.nextWriter ≤ h → d.writers h = none
  apart : ∀ h w h' w', d.writers h = some w → d.writers h' = some w' → h ≠ h' →
    ¬Comparable w.loc w'.loc
  held : ∀ h w, d.writers h = some w → ∀ e ∈ w.written,
    StrictlyInside w.loc (fileLoc w.loc e.1) ∧
      fileLoc w.loc e.1 ≠ w.loc ++ [bundleManifest] ∧
      fileLoc w.loc e.1 ≠ w.loc ++ [bundleManifestTmp] ∧
      d.tree.fileAt (fileLoc w.loc e.1) = some (.raw e.2)
  complete : ∀ loc m serial, ManifestAt d loc m serial → HoldsCommit d loc m serial
  clear : ∀ h w, d.writers h = some w → ∀ loc m serial, ManifestAt d loc m serial →
    ¬w.loc <+: loc ++ [bundleManifest] ∧ ∀ f ∈ m.files, ¬w.loc <+: fileLoc loc f.name

/-- A tree without manifests is isolated. -/
theorem isolated_init {t : DataTree} (ht : ∀ q m s, t.fileAt q ≠ some (.manifest m s)) :
    Isolated (Disk.init t) where
  fresh := by simp [Disk.init]
  apart := by simp [Disk.init]
  held := by simp [Disk.init]
  complete loc m serial h := (ht _ _ _ h).elim
  clear := by simp [Disk.init]

/-- Only files count. -/
theorem Isolated.of_fileAt {d d' : Disk} (h : Isolated d) (hf : d'.tree.fileAt = d.tree.fileAt)
    (hw : d'.writers = d.writers) (hn : d'.nextWriter = d.nextWriter)
    (hc : d'.commits = d.commits) : Isolated d' where
  fresh := by simpa only [hw, hn] using h.fresh
  apart := by simpa only [hw] using h.apart
  held := by simpa only [hw, hf] using h.held
  complete := by simpa only [ManifestAt, HoldsCommit, hf, hc] using h.complete
  clear := by simpa only [ManifestAt, hf, hw] using h.clear

/-- A file below a location that was not there is not one the disk had. -/
theorem not_prefix_of_fresh {t : DataTree} {loc q : List String} {c : Blob}
    (hfresh : t.get loc = none) (hq : t.fileAt q = some c) : ¬loc <+: q := by
  intro hp
  rw [Tree.fileAt_eq_some_iff] at hq
  by_cases he : loc = q
  · rw [he, hq] at hfresh
    cases hfresh
  · rw [Tree.get_of_prefix hp he hq] at hfresh
    cases hfresh

/-- The files a complete manifest vouches for are there. -/
theorem Isolated.fileAt_listed {d : Disk} (h : Isolated d) {loc : List String} {m : BundleMeta}
    {serial : Nat} (hm : ManifestAt d loc m serial) {f : FileRecord} (hf : f ∈ m.files) :
    ∃ c, d.tree.fileAt (fileLoc loc f.name) = some c := by
  obtain ⟨c, -, -, -, hall⟩ := h.complete loc m serial hm
  obtain ⟨data, -, -, hfile⟩ := hall f hf
  exact ⟨_, hfile⟩

/-- An open keeps a disk isolated. -/
theorem Isolated.openBundleWrite {b : Backend} {d : Disk} (h : Isolated d) {now : Nat}
    {path : String} (hg : b.CallClear d (.openBundleWrite now path)) :
    Isolated (b.openBundleWrite now path d).2 := by
  rcases Backend.openBundleWrite_cases (b := b) now path d with
    ⟨e, t, heq, hgrown⟩ | ⟨e, heq⟩ | ⟨t, t', hcheck, hgrown, hmk, heq⟩
  · rw [heq]
    exact h.of_fileAt hgrown.fileAt_eq rfl rfl rfl
  · rw [heq]
    exact h
  · rw [heq]
    have hfiles : t'.fileAt = d.tree.fileAt :=
      (Tree.grown_of_mkdir hmk).fileAt_eq.trans hgrown.fileAt_eq
    have hnone : d.tree.get (b.location path) = none := by
      obtain ⟨-, hn, -, -⟩ := Tree.mkdir_ok hmk
      cases hd : d.tree.get (b.location path) with
      | none => rfl
      | some n => exact absurd (hgrown.get_some hd) (by rw [Backend.location, hn]; simp)
    have hapart := hg hcheck
    refine ⟨?_, ?_, ?_, ?_, ?_⟩
    · intro k hk
      have hne : k ≠ d.nextWriter := by
        intro he
        simp only [he] at hk
        omega
      simp only [Function.update_of_ne hne]
      exact h.fresh k (by simp only at hk; omega)
    · intro k w k' w' hk hk' hne
      simp only [Function.update_apply] at hk hk'
      split at hk <;> split at hk'
      · rename_i h1 h2
        exact absurd (h1.trans h2.symm) hne
      · obtain rfl := Option.some.inj hk
        exact fun hcmp => hapart k' w' hk' hcmp.symm
      · obtain rfl := Option.some.inj hk'
        exact hapart k w hk
      · exact h.apart k w k' w' hk hk' hne
    · intro k w hk e he
      simp only [Function.update_apply] at hk
      split at hk
      · obtain rfl := Option.some.inj hk
        simp at he
      · simpa [hfiles] using h.held k w hk e he
    · intro loc m serial hm
      exact (h.of_fileAt hfiles rfl rfl rfl : Isolated (d.setTree now t')).complete loc m serial hm
    · intro k w hk loc m serial hm
      have hm' : ManifestAt d loc m serial := by simpa [ManifestAt, hfiles] using hm
      simp only [Function.update_apply] at hk
      split at hk
      · obtain rfl := Option.some.inj hk
        refine ⟨not_prefix_of_fresh hnone hm', fun f hf => ?_⟩
        obtain ⟨c, hc⟩ := h.fileAt_listed hm' hf
        exact not_prefix_of_fresh hnone hc
      · exact h.clear k w hk loc m serial hm'

/-- A writer's own call: outside its directory no file changes, and any manifest that
appears is the one it commits there. -/
theorem Isolated.of_inside {d d' : Disk} (h : Isolated d) {k : Nat} {w : Writer}
    (hw : d.writers k = some w) (hn : d'.nextWriter = d.nextWriter)
    (hout : ∀ q, ¬w.loc <+: q → d'.tree.fileAt q = d.tree.fileAt q)
    (hself : ∀ w', d'.writers k = some w' → w'.loc = w.loc ∧ ∀ e ∈ w'.written,
      StrictlyInside w'.loc (fileLoc w'.loc e.1) ∧
        fileLoc w'.loc e.1 ≠ w'.loc ++ [bundleManifest] ∧
        fileLoc w'.loc e.1 ≠ w'.loc ++ [bundleManifestTmp] ∧
        d'.tree.fileAt (fileLoc w'.loc e.1) = some (.raw e.2))
    (hrest : ∀ k', k' ≠ k → d'.writers k' = d.writers k')
    (hcommits : d.commits <+: d'.commits)
    (hman : ∀ loc m serial, ManifestAt d' loc m serial → ManifestAt d loc m serial ∨
      (loc = w.loc ∧ d'.writers k = none ∧ HoldsCommit d' loc m serial)) : Isolated d' := by
  refine ⟨?_, ?_, ?_, ?_, ?_⟩
  · intro k' hk'
    rw [hn] at hk'
    have hnek : k' ≠ k := by
      rintro rfl
      rw [h.fresh k' hk'] at hw
      cases hw
    rw [hrest k' hnek]
    exact h.fresh k' hk'
  · intro k₁ w₁ k₂ w₂ h₁ h₂ hne
    by_cases e₁ : k₁ = k
    · subst e₁
      rw [hrest k₂ (Ne.symm hne)] at h₂
      rw [(hself w₁ h₁).1]
      exact h.apart _ w _ w₂ hw h₂ hne
    · rw [hrest k₁ e₁] at h₁
      by_cases e₂ : k₂ = k
      · subst e₂
        rw [(hself w₂ h₂).1]
        exact h.apart _ w₁ _ w h₁ hw hne
      · rw [hrest k₂ e₂] at h₂
        exact h.apart _ _ _ _ h₁ h₂ hne
  · intro k' w' hk' e he
    by_cases hek : k' = k
    · subst hek
      exact (hself w' hk').2 e he
    · rw [hrest k' hek] at hk'
      obtain ⟨h1, h2, h3, h4⟩ := h.held k' w' hk' e he
      refine ⟨h1, h2, h3, (hout _ fun hp => ?_).trans h4⟩
      exact h.apart k' w' k w hk' hw hek (comparable_of_below h1.1 hp)
  · intro loc m serial hm
    rcases hman loc m serial hm with hm' | ⟨-, -, hnew⟩
    · obtain ⟨c, hc, hl, hcm, hall⟩ := h.complete loc m serial hm'
      obtain ⟨tail, htail⟩ := hcommits
      refine ⟨c, ?_, hl, hcm, fun f hf => ?_⟩
      · rw [← htail, List.getElem?_append_left (List.getElem?_eq_some_iff.mp hc).1, hc]
      · obtain ⟨data, hd, hins, hfile⟩ := hall f hf
        exact ⟨data, hd, hins, (hout _ ((h.clear k w hw loc m serial hm').2 f hf)).trans hfile⟩
    · exact hnew
  · intro k' w' hk' loc m serial hm
    rcases hman loc m serial hm with hm' | ⟨rfl, hnone, c, -, -, -, hall⟩
    · by_cases hek : k' = k
      · subst hek
        rw [(hself w' hk').1]
        exact h.clear _ w hw loc m serial hm'
      · rw [hrest k' hek] at hk'
        exact h.clear k' w' hk' loc m serial hm'
    · have hek : k' ≠ k := by
        rintro rfl
        rw [hnone] at hk'
        cases hk'
      rw [hrest k' hek] at hk'
      have hcmp := h.apart k' w' k w hk' hw hek
      refine ⟨fun hp => hcmp (comparable_of_below hp (List.prefix_append _ _)), fun f hf hp => ?_⟩
      obtain ⟨data, -, hins, -⟩ := hall f hf
      exact hcmp (comparable_of_below hp hins.1)

/-- A write keeps a disk isolated. -/
theorem Isolated.writeFile {b : Backend} {d : Disk} (h : Isolated d) {now : Nat}
    {k : Nat} {name : String} {data : Bytes} (hg : b.CallClear d (.writeFile now k name data)) :
    Isolated (Backend.writeFile now k name data d).2 := by
  rcases Backend.writeFile_cases now k name data d with
    ⟨e, heq⟩ | ⟨w, hw, hne, hdup, ⟨e, t, heq, hgrown⟩ | ⟨t, t', hgrown, hwr, heq⟩⟩
  · rw [heq]
    exact h
  · rw [heq]
    exact h.of_fileAt hgrown.fileAt_eq rfl rfl rfl
  rw [heq]
  obtain ⟨hin, hnm, hnt, hnew⟩ := hg w hw hne hdup
  have hfiles :
    t'.fileAt = Function.update d.tree.fileAt (fileLoc w.loc name) (some (.raw data)) := by
    rw [Tree.fileAt_write hwr, hgrown.fileAt_eq, Writer.normalize_target]
  have hother : ∀ q, q ≠ fileLoc w.loc name → t'.fileAt q = d.tree.fileAt q := fun q hq => by
    rw [hfiles, Function.update_of_ne hq]
  refine h.of_inside hw rfl (fun q hq => hother q fun he => hq (he ▸ hin.1)) ?_
    (fun k' hk' => Function.update_of_ne hk' _ _) (List.prefix_refl _) ?_
  · intro w' hw'
    simp only [Function.update_self, Option.some.injEq] at hw'
    subst hw'
    refine ⟨rfl, fun e he => ?_⟩
    rcases List.mem_append.mp he with he | he
    · obtain ⟨h1, h2, h3, h4⟩ := h.held k w hw e he
      exact ⟨h1, h2, h3, (hother _ (hnew e he)).trans h4⟩
    · obtain rfl := List.mem_singleton.mp he
      refine ⟨hin, hnm, hnt, ?_⟩
      show t'.fileAt (fileLoc w.loc name) = _
      rw [hfiles, Function.update_self]
  · intro loc m serial hm
    left
    by_cases hq : loc ++ [bundleManifest] = fileLoc w.loc name
    · have hm' : t'.fileAt (loc ++ [bundleManifest]) = some (.manifest m serial) := hm
      rw [hq, hfiles, Function.update_self] at hm'
      cases hm'
    · exact (hother _ hq).symm.trans hm

/-- A temporary manifest is no manifest. -/
theorem append_tmp_ne_manifest (l l' : List String) :
    l ++ [bundleManifest] ≠ l' ++ [bundleManifestTmp] := by
  intro h
  have := (List.append_inj' h rfl).2
  exact Backend.tmp_ne_manifest (List.singleton_inj.mp this).symm

/-- A commit keeps a disk isolated. -/
theorem Isolated.commit {d : Disk} (h : Isolated d) {now : Nat} {k : Nat} {m : BundleMeta} :
    Isolated (Backend.commit now k m d).2 := by
  rcases Backend.commit_cases now k m d with
    ⟨e, heq⟩ | ⟨w, hw, hcheck, ⟨e, t, heq, hfiles⟩ | ⟨t, t', heq, hfiles⟩⟩
  · rw [heq]
    exact h
  · rw [heq]
    have hother : ∀ q, q ≠ w.loc ++ [bundleManifestTmp] → t.fileAt q = d.tree.fileAt q :=
      fun q hq => by rw [hfiles, Function.update_of_ne hq]
    refine h.of_inside hw rfl (fun q hq => hother q fun he => hq (he ▸ List.prefix_append _ _)) ?_
      (fun _ _ => rfl) (List.prefix_refl _) ?_
    · intro w' hw'
      obtain rfl : w = w' := Option.some.inj (hw.symm.trans hw')
      refine ⟨rfl, fun e he => ?_⟩
      obtain ⟨h1, h2, h3, h4⟩ := h.held k w hw e he
      exact ⟨h1, h2, h3, (hother _ h3).trans h4⟩
    · intro loc m' serial hm
      exact .inl ((hother _ (append_tmp_ne_manifest _ _)).symm.trans hm)
  · rw [heq]
    have hother : ∀ q, q ≠ w.loc ++ [bundleManifestTmp] → q ≠ w.loc ++ [bundleManifest] →
        t'.fileAt q = d.tree.fileAt q := fun q hq hq' => by
      rw [hfiles, Function.update_of_ne hq', Function.update_of_ne hq]
    refine h.of_inside hw rfl (fun q hq => hother q (fun he => hq (he ▸ List.prefix_append _ _))
      fun he => hq (he ▸ List.prefix_append _ _)) ?_
      (fun k' hk' => Function.update_of_ne hk' _ _) (List.prefix_append _ _) ?_
    · intro w' hw'
      simp at hw'
    · intro loc m' serial hm
      have hm' : t'.fileAt (loc ++ [bundleManifest]) = some (.manifest m' serial) := hm
      by_cases hl : loc = w.loc
      · right
        subst hl
        rw [hfiles, Function.update_self, Option.some.injEq, Blob.manifest.injEq] at hm'
        obtain ⟨rfl, rfl⟩ := hm'
        refine ⟨rfl, Function.update_self .., ⟨w.loc, m, w.written⟩, by simp, rfl, rfl,
          fun f hf => ?_⟩
        obtain ⟨-, -, -, hall⟩ := Backend.commitCheck_ok hcheck
        obtain ⟨data, hmem, -⟩ := hall f hf
        obtain ⟨h1, h2, h3, h4⟩ := h.held k w hw _ hmem
        exact ⟨data, hmem, h1, (hother _ h3 h2).trans h4⟩
      · left
        have hne : loc ++ [bundleManifest] ≠ w.loc ++ [bundleManifest] := by simpa using hl
        exact (hother _ (append_tmp_ne_manifest _ _) hne).symm.trans hm

/-! ## Removals -/

/-- A call that takes away some files and closes some writers. -/
theorem Isolated.of_removed {d d' : Disk} (h : Isolated d) (hn : d'.nextWriter = d.nextWriter)
    (hc : d'.commits = d.commits) (hw : ∀ k w, d'.writers k = some w → d.writers k = some w)
    (P : List String → Prop) [DecidablePred P]
    (hf : ∀ q, d'.tree.fileAt q = if P q then none else d.tree.fileAt q)
    (hheld : ∀ k w, d'.writers k = some w → ∀ e ∈ w.written, ¬P (fileLoc w.loc e.1))
    (hlisted : ∀ loc m serial, ManifestAt d loc m serial → ¬P (loc ++ [bundleManifest]) →
      ∀ f ∈ m.files, ¬P (fileLoc loc f.name)) : Isolated d' := by
  have hback : ∀ loc m serial, ManifestAt d' loc m serial →
      ManifestAt d loc m serial ∧ ¬P (loc ++ [bundleManifest]) := by
    intro loc m serial hm
    rw [ManifestAt, hf] at hm
    split at hm
    · cases hm
    · exact ⟨hm, ‹_›⟩
  refine ⟨?_, ?_, ?_, ?_, ?_⟩
  · intro k hk
    cases hk' : d'.writers k with
    | none => rfl
    | some w =>
      have := hw k w hk'
      rw [h.fresh k (hn ▸ hk)] at this
      cases this
  · exact fun k w k' w' hk hk' => h.apart k w k' w' (hw k w hk) (hw k' w' hk')
  · intro k w hk e he
    obtain ⟨h1, h2, h3, h4⟩ := h.held k w (hw k w hk) e he
    exact ⟨h1, h2, h3, by rw [hf, if_neg (hheld k w hk e he), h4]⟩
  · intro loc m serial hm
    obtain ⟨hm', hnp⟩ := hback loc m serial hm
    obtain ⟨c, hcs, hl, hcm, hall⟩ := h.complete loc m serial hm'
    refine ⟨c, hc ▸ hcs, hl, hcm, fun f hfm => ?_⟩
    obtain ⟨data, hd, hins, hfile⟩ := hall f hfm
    exact ⟨data, hd, hins, by rw [hf, if_neg (hlisted loc m serial hm' hnp f hfm), hfile]⟩
  · intro k w hk loc m serial hm
    exact h.clear k w (hw k w hk) loc m serial (hback loc m serial hm).1

/-- An abort leaves every committed bundle as it is. -/
theorem Isolated.abort_keeps {d : Disk} (h : Isolated d) (now : Nat) (k : Nat) :
    KeepsCommitted d (Backend.abort now k d) := by
  intro loc m serial hm
  cases hw : d.writers k with
  | none =>
    have : Backend.abort now k d = d := by simp [Backend.abort, hw]
    rw [this]
    exact ⟨hm, fun _ _ => rfl⟩
  | some w =>
    obtain ⟨hmeta, hfiles⟩ := h.clear k w hw loc m serial hm
    refine ⟨?_, fun f hf => ?_⟩
    · rw [ManifestAt, abort_fileAt hw, if_neg fun hp => hmeta hp.2]
      exact hm
    · rw [abort_fileAt hw, if_neg fun hp => hfiles f hf hp.2]

/-- An abort keeps a disk isolated. -/
theorem Isolated.abort {d : Disk} (h : Isolated d) {now : Nat} {k : Nat} :
    Isolated (Backend.abort now k d) := by
  cases hw : d.writers k with
  | none => simpa [Backend.abort, hw] using h
  | some w =>
    have hwriters : (Backend.abort now k d).writers = Function.update d.writers k none := by
      simp [Backend.abort, hw]
    have hsub : ∀ k' w', (Backend.abort now k d).writers k' = some w' →
        k' ≠ k ∧ d.writers k' = some w' := by
      intro k' w' hk'
      rw [hwriters, Function.update_apply] at hk'
      split at hk'
      · cases hk'
      · exact ⟨‹_›, hk'⟩
    refine h.of_removed (by simp [Backend.abort, hw]) (by simp [Backend.abort, hw])
      (fun k' w' hk' => (hsub k' w' hk').2) _ (abort_fileAt hw now) ?_ ?_
    · rintro k' w' hk' e he ⟨-, hp⟩
      obtain ⟨hne, hk⟩ := hsub k' w' hk'
      exact h.apart k' w' k w hk hw hne
        (comparable_of_below (h.held k' w' hk e he).1.1 hp)
    · rintro loc m serial hm - f hf ⟨-, hp⟩
      exact (h.clear k w hw loc m serial hm).2 f hf hp

/-- A delete keeps a disk isolated. -/
theorem Isolated.deleteBundle {b : Backend} {d : Disk} (h : Isolated d) {now : Nat}
    {path : String} (hg : DeleteClear d (b.location path)) :
    Isolated (b.deleteBundle now path d).2 := by
  obtain ⟨hw, hn, hc⟩ := Backend.deleteBundle_rest (b := b) now path d
  refine h.of_removed hn hc (fun k w hk => hw ▸ hk) _
    (Backend.deleteBundle_fileAt (b := b) now path d) ?_ ?_
  · rintro k w hk e he ⟨-, hp⟩
    exact hg.1 k w (hw ▸ hk) e he hp
  · rintro loc m serial hm hmeta f hf ⟨hd, hp⟩
    obtain ⟨c, -, -, -, hall⟩ := h.complete loc m serial hm
    obtain ⟨-, -, hins, -⟩ := hall f hf
    rcases comparable_of_below hins.1 hp with hlp | hpl
    · by_cases he : b.location path = loc
      · exact hmeta ⟨hd, he ▸ List.prefix_append _ _⟩
      · exact hg.2 loc m serial hm ⟨hlp, he⟩
    · exact hmeta ⟨hd, hpl.trans (List.prefix_append _ _)⟩

/-- A delete leaves the other deletes of a sweep as clear as they were. -/
theorem DeleteClear.deleteBundle {b : Backend} {d : Disk} {loc : List String}
    (h : DeleteClear d loc) (now : Nat) (path : String) :
    DeleteClear (b.deleteBundle now path d).2 loc := by
  obtain ⟨hw, -, -⟩ := Backend.deleteBundle_rest (b := b) now path d
  refine ⟨fun k w hk => h.1 k w (hw ▸ hk), fun l m serial hm => h.2 l m serial ?_⟩
  rw [ManifestAt, Backend.deleteBundle_fileAt] at hm
  split at hm
  · cases hm
  · exact hm

/-- Several deletes keep a disk isolated. -/
theorem Isolated.deletes {b : Backend} {now : Nat} {paths : List String} {d : Disk}
    (h : Isolated d) (hg : ∀ path ∈ paths, DeleteClear d (b.location path)) :
    Isolated (paths.foldl (fun d path => (b.deleteBundle now path d).2) d) := by
  induction paths generalizing d with
  | nil => exact h
  | cons path rest ih =>
    exact ih (h.deleteBundle (hg path (by simp)))
      fun p hp => (hg p (by simp [hp])).deleteBundle now path

/-! ## Runs -/

/-- Every call that meets its condition keeps the writers isolated. -/
theorem Isolated.step {b : Backend} (d : Disk) (op : BackendOp) (h : Isolated d)
    (hg : b.CallClear d op) : Isolated (b.step d op) := by
  cases op with
  | openBundleWrite now path => exact h.openBundleWrite hg
  | writeFile now k name data => exact h.writeFile hg
  | commit now k m => exact h.commit
  | abort now k => exact h.abort
  | deleteBundle now path => exact h.deleteBundle hg
  | sweepNamespace now minAge pre => exact h.deletes hg

/-- A file that is read is at the end of its path. -/
theorem fileAt_of_readFile {t : DataTree} {path : List (Step String)} {c : Blob}
    (h : t.readFile path = some c) : t.fileAt (normalize path) = some c :=
  Tree.fileAt_eq_some_iff.mpr (Tree.readFile_eq_some_iff.mp h).2

/-- In every run whose calls stay clear of open writers and of the insides of committed
bundles, a manifest that can be read at a path lists files that hold what its writer wrote,
and an abort leaves every committed bundle as it is. -/
theorem run_isolated (b : Backend) {t : DataTree}
    (ht : ∀ q m s, t.fileAt q ≠ some (.manifest m s)) (ops : List BackendOp)
    (hg : Runs.Guarded b.step b.CallClear (Disk.init t) ops) :
    (∀ path m serial,
        (Runs.run b.step (Disk.init t) ops).tree.readFile (Backend.metaPath (b.resolve path)) =
          some (.manifest m serial) →
        HoldsCommit (Runs.run b.step (Disk.init t) ops) (b.location path) m serial) ∧
      ∀ now k, KeepsCommitted (Runs.run b.step (Disk.init t) ops)
        (Backend.abort now k (Runs.run b.step (Disk.init t) ops)) := by
  have h := hg.invariant Isolated.step (isolated_init ht)
  refine ⟨fun path m serial hr => h.complete _ _ _ ?_, fun now k => h.abort_keeps now k⟩
  have := fileAt_of_readFile hr
  rwa [Backend.normalize_metaPath] at this

/-! ## Runs on a small disk -/

/-- One writer alone commits what it wrote. -/
theorem run_isolated_single :
    HoldsCommit (Runs.run srvBackend.step (Disk.init srvTree)
      [.openBundleWrite 0 "store/p", .writeFile 0 0 "a" [1], .commit 0 0 (smallMeta ["a"])])
      ["srv", "data", "store", "p"] (smallMeta ["a"]) 0 := by
  have hopen : (srvBackend.step (Disk.init srvTree) (.openBundleWrite 0 "store/p")).writers 0 =
      some ⟨srvBackend.resolve "store/p", []⟩ := by decide
  have hg : Runs.Guarded srvBackend.step srvBackend.CallClear (Disk.init srvTree)
      [.openBundleWrite 0 "store/p", .writeFile 0 0 "a" [1], .commit 0 0 (smallMeta ["a"])] := by
    refine ⟨?_, ?_, trivial, trivial⟩
    · intro _ h w hw
      simp [Disk.init] at hw
    · intro w hw _ _
      obtain rfl := Option.some.inj (hopen.symm.trans hw)
      decide
  exact (run_isolated srvBackend (by simp [srvTree_fileAt]) _ hg).1 "store/p" _ _ (by decide)

/-- A delete between two writes leaves a committed manifest that lists a missing file, and an
abort after a delete and a second open removes what the other writer committed. -/
theorem run_not_isolated :
    (∃ path m serial, (Runs.run srvBackend.step (Disk.init srvTree)
          [.openBundleWrite 0 "store/p", .writeFile 0 0 "a" [1], .deleteBundle 0 "store/p",
            .writeFile 0 0 "b" [2], .commit 0 0 (smallMeta ["a", "b"])]).tree.readFile
            (Backend.metaPath (srvBackend.resolve path)) = some (.manifest m serial) ∧
        ¬HoldsCommit (Runs.run srvBackend.step (Disk.init srvTree)
          [.openBundleWrite 0 "store/p", .writeFile 0 0 "a" [1], .deleteBundle 0 "store/p",
            .writeFile 0 0 "b" [2], .commit 0 0 (smallMeta ["a", "b"])])
          (srvBackend.location path) m serial) ∧
      ∃ d, d = Runs.run srvBackend.step (Disk.init srvTree)
          [.openBundleWrite 0 "store/p", .deleteBundle 0 "store/p", .openBundleWrite 0 "store/p",
            .writeFile 0 1 "a" [1], .commit 0 1 (smallMeta ["a"])] ∧
        ¬KeepsCommitted d (Backend.abort 0 0 d) := by
  refine ⟨⟨"store/p", smallMeta ["a", "b"], 0, by decide, ?_⟩, _, rfl, ?_⟩
  · rintro ⟨c, -, -, -, hall⟩
    obtain ⟨data, -, -, hfile⟩ := hall ⟨"a", 1, "application/octet-stream"⟩ (by decide)
    revert hfile
    have hgone : (Runs.run srvBackend.step (Disk.init srvTree)
        [.openBundleWrite 0 "store/p", .writeFile 0 0 "a" [1], .deleteBundle 0 "store/p",
          .writeFile 0 0 "b" [2], .commit 0 0 (smallMeta ["a", "b"])]).tree.fileAt
        (fileLoc (srvBackend.location "store/p") "a") = none := by decide
    rw [hgone]
    simp
  · intro hkeep
    have := (hkeep ["srv", "data", "store", "p"] (smallMeta ["a"]) 0
      (by unfold ManifestAt; decide)).1
    revert this
    unfold ManifestAt
    decide

end Cassetta
