import Cassetta.Guarantee.Capacity
import Cassetta.Guarantee.Confinement
import Cassetta.Storage.Removal

/-!
# The caps on what can be read

The manifest of a bundle is that of its commit, and within the caps, until some client's file is
written over it: the name of a part may lead out of its own bundle and into the next one. This
module says that nothing else takes a manifest out of the caps, over every run.
-/

namespace Cassetta

open Prog

variable {cfg : Config} {env : Environment}

/-! ## The property and the condition -/

instance (limits : LimitsConfig) (files : List FileRecord) : Decidable (WithinCaps limits files) :=
  decidable_of_iff ((∀ n ∈ limits.perBundleFileCountMax, (files.length : Int) ≤ n) ∧
      (∀ n ∈ limits.perFileMax, ∀ f ∈ files, f.size ≤ n) ∧
      ∀ n ∈ limits.perBundleTotalMax, (files.map (·.size)).sum ≤ n)
    ⟨fun h => ⟨h.1, h.2.1, h.2.2⟩, fun h => ⟨h.count, h.each, h.total⟩⟩

instance (limits : LimitsConfig) (c : Commit) : Decidable (c.Capped limits) :=
  decidable_of_iff (WithinCaps limits c.manifest.files ∧ (∀ f ∈ c.manifest.files, 0 ≤ f.size) ∧
      (∀ f ∈ c.manifest.files, f.name ∈ c.written.map Prod.fst) ∧
      ∀ f ∈ c.manifest.files, ∀ e ∈ c.written, e.1 = f.name → f.size = e.2.length)
    ⟨fun h => ⟨h.1, h.2.1, fun f hf => by simpa using h.2.2.1 f hf,
        fun f hf data hdata => h.2.2.2 f hf (f.name, data) hdata rfl⟩,
      fun h => ⟨h.within, h.nonneg, fun f hf => by simpa using h.written f hf,
        fun f hf e he heq => h.sizes f hf e.2 (by rw [← heq]; exact he)⟩⟩

/-- Where a bundle has been committed, a manifest with these records is within the caps, and its
sizes are those of what the writer of a commit there wrote. -/
def Disk.CappedAs (limits : LimitsConfig) (d : Disk) (loc : List String) (m : BundleMeta) : Prop :=
  ∃ c ∈ d.commits, c.loc = loc ∧ (⟨loc, m, c.written⟩ : Commit).Capped limits

instance (limits : LimitsConfig) (d : Disk) (loc : List String) (m : BundleMeta) :
    Decidable (d.CappedAs limits loc m) :=
  inferInstanceAs (Decidable (∃ c ∈ d.commits, _))

/-- The manifest of every bundle that has been committed, as it is on disk, is within the caps
with the sizes of what was written. -/
def MetasCapped (cfg : Config) (d : Disk) : Prop :=
  ∀ c ∈ d.commits, ∀ m, cfg.backend.metaAt d.tree c.loc = some m → d.CappedAs cfg.limits c.loc m

/-- The client's files that a call writes, and where. -/
def Call.clientFiles (s : Server) : Call → List (List String × Bytes)
  | .writeFile handle name data =>
    (s.disk.writers handle).toList.map fun w => (fileLoc w.loc name, data)
  | _ => []

/-- A client's file that is written where the manifest of a committed bundle is, is one that reads
as no manifest, or as one within the caps with the sizes of what was written. -/
def ManifestClear (cfg : Config) (s : Server) : AnyCall → Prop
  | .plain c => ∀ p ∈ c.clientFiles s, ∀ k ∈ s.disk.commits, p.1 = k.loc ++ [bundleManifest] →
      ∀ m ∈ cfg.backend.loads p.2, s.disk.CappedAs cfg.limits k.loc m
  | .claim _ => True

instance (cfg : Config) (s : Server) : ∀ c, Decidable (ManifestClear cfg s c)
  | .plain c => inferInstanceAs (Decidable (∀ p ∈ c.clientFiles s, _))
  | .claim _ => inferInstanceAs (Decidable True)

/-! ## Runs -/

/-- The manifest at the place of a committed bundle is that of a commit there, or has been put
there within the caps. -/
def Attributed (cfg : Config) (d : Disk) : Prop :=
  ∀ c ∈ d.commits, ∀ m, cfg.backend.metaAt d.tree c.loc = some m →
    (∃ c' ∈ d.commits, c'.loc = c.loc ∧ c'.manifest = m) ∨ d.CappedAs cfg.limits c.loc m

/-- A manifest within the caps stays so as the log of commits grows. -/
theorem Disk.CappedAs.mono {limits : LimitsConfig} {d d' : Disk} {loc : List String}
    {m : BundleMeta} (h : d.CappedAs limits loc m) (hpre : d.commits <+: d'.commits) :
    d'.CappedAs limits loc m := by
  obtain ⟨c, hc, hrest⟩ := h
  exact ⟨c, hpre.subset hc, hrest⟩

/-- Only a commit adds to the commits. -/
theorem exec_commits_of_uncommitting {c : Call} (hc : c.Uncommitting) (s : Server) :
    (exec cfg env c s).2.disk.commits = s.disk.commits := by
  cases c with
  | commit handle m => cases hc
  | openBundleWrite path =>
    rcases Backend.openBundleWrite_cases (b := cfg.backend) s.wall path s.disk with
      ⟨e, t, heq, -⟩ | ⟨e, heq⟩ | ⟨t, t', -, -, -, heq⟩ <;> simp [exec, heq, Server.setDisk]
  | writeFile handle name data =>
    rcases Backend.writeFile_cases s.wall handle name data s.disk with
      ⟨e, heq⟩ | ⟨w, -, -, -, ⟨e, t, heq, -⟩ | ⟨t, t', -, -, heq⟩⟩ <;>
      simp [exec, heq, Server.setDisk]
  | abort handle =>
    simp only [exec, Server.setDisk, Backend.abort]
    split <;> rfl
  | deleteBundle path => exact (Backend.deleteBundle_rest s.wall path s.disk).2.2
  | _ => rfl

/-- Every call that meets the condition keeps the manifests attributed. -/
theorem Attributed.exec {s : Server} (h : Attributed cfg s.disk) {c : Call}
    (hg : ManifestClear cfg s (.plain c)) : Attributed cfg (exec cfg env c s).2.disk := by
  have hpre := @exec_commits cfg env c s
  have hkept : ∀ k ∈ s.disk.commits, ∀ m, cfg.backend.metaAt s.disk.tree k.loc = some m →
      (∃ c' ∈ (Cassetta.exec cfg env c s).2.disk.commits, c'.loc = k.loc ∧ c'.manifest = m) ∨
        (Cassetta.exec cfg env c s).2.disk.CappedAs cfg.limits k.loc m := by
    intro k hk m hm
    rcases h k hk m hm with ⟨c', hc', hrest⟩ | hcapped
    · exact .inl ⟨c', hpre.subset hc', hrest⟩
    · exact .inr (hcapped.mono hpre)
  intro k hk m hm
  obtain ⟨blob, hblob, hload⟩ := Option.bind_eq_some_iff.mp hm
  by_cases hc : c.Uncommitting
  · rw [exec_commits_of_uncommitting hc] at hk
    rcases exec_fileAt hblob with hold | hput
    · exact hkept k hk m (Option.bind_eq_some_iff.mpr ⟨blob, hold, hload⟩)
    · cases c with
      | writeFile handle name data =>
        cases hw : s.disk.writers handle with
        | none => simp [Call.puts, Call.toOp, BackendOp.puts, hw] at hput
        | some w =>
          simp only [Call.puts, Call.toOp, BackendOp.puts, hw, List.mem_singleton,
            Prod.mk.injEq] at hput
          obtain ⟨hloc, rfl⟩ := hput
          have hclient : (k.loc ++ [bundleManifest], data) ∈
              (Call.writeFile handle name data).clientFiles s := by
            simp [Call.clientFiles, hw, hloc]
          exact .inr ((hg _ hclient k hk rfl m hload).mono hpre)
      | commit handle m' => cases hc
      | _ => cases hput
  · cases c with
    | commit handle m' =>
      rcases Backend.commit_cases s.wall handle m' s.disk with
        ⟨e, heq⟩ | ⟨w, hw, -, ⟨e, t, heq, hfiles⟩ | ⟨t, t', heq, hfiles⟩⟩
      · simp only [Cassetta.exec, heq, Server.setDisk] at hk hblob
        exact hkept k hk m (Option.bind_eq_some_iff.mpr ⟨blob, hblob, hload⟩)
      · simp only [Cassetta.exec, heq, Server.setDisk, Disk.setTree_tree, hfiles] at hk hblob
        rw [Function.update_of_ne (by simp [Backend.tmp_ne_manifest.symm])] at hblob
        exact hkept k hk m (Option.bind_eq_some_iff.mpr ⟨blob, hblob, hload⟩)
      · simp only [Cassetta.exec, heq, Server.setDisk, Disk.setTree_tree, hfiles] at hk hblob
        by_cases hloc : k.loc = w.loc
        · rw [hloc, Function.update_self] at hblob
          obtain rfl := Option.some.inj hblob
          obtain rfl : m' = m := Option.some.inj hload
          refine .inl ⟨⟨w.loc, m', w.written⟩, ?_, hloc.symm, rfl⟩
          simp [Cassetta.exec, heq, Server.setDisk]
        · rw [Function.update_of_ne (by simpa using hloc), Function.update_of_ne
            (by simp [Backend.tmp_ne_manifest.symm])] at hblob
          have hold : k ∈ s.disk.commits := by
            rcases List.mem_append.mp hk with hold | hnew
            · exact hold
            · exact absurd (congrArg Commit.loc (List.mem_singleton.mp hnew)) hloc
          exact hkept k hold m (Option.bind_eq_some_iff.mpr ⟨blob, hblob, hload⟩)
    | _ => exact absurd trivial hc

/-- A send of two files in its two phases. -/
def smallSend : List Event :=
  [.plain (.uploads alice "bob:b" "p" (smallManifest ["a", "b/c"])),
    .uploadBegin (some (smallSession ["a", "b/c"]).token) "inbox/bob:b/p",
    .uploadEntry 0 ⟨"b/c", true, 1, [1]⟩, .uploadEntry 0 ⟨"a", true, 1, [1]⟩,
      .uploadEnd 0 .complete]

/-- A manifest of a file of five bytes less than none. -/
def negativeMeta : BundleMeta :=
  { smallMeta ["a"] with files := [⟨"a", -5, "text/plain"⟩] }

/-- A server with a byte that reads as that manifest. -/
def readingConfig : Config :=
  { inlineConfig with
    backend :=
      { srvBackend with loads := fun bytes => if bytes = [7] then some negativeMeta else none } }

end Cassetta
