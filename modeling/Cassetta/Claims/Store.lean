import Cassetta.Auth.Tokens

/-!
# The claim store

`FilesystemClaimStorage` between complete operations: one sidecar for each claim and one lock
for each claimed bundle path. The lock file is named after a digest of the path; here it is
keyed by the path itself. Sidecars are listed in the order the directory yields them.
-/

namespace Cassetta

/-- `ClaimRecord`, of schema version 1. -/
structure ClaimRecord where
  jti : Id
  bundlePath : String
  bundleId : Id
  recipient : String
  createdAt : Nat
  filesFetched : List String := []
  deriving DecidableEq, Repr

/-- The sidecars, and the locks with the `jti` written into each. -/
structure ClaimStore where
  sidecars : List ClaimRecord := []
  locks : List (String × Id) := []
  deriving DecidableEq, Repr

/-- The exceptions of a claim-store call. -/
inductive ClaimError where
  /-- `BundleClaimedError`. -/
  | bundleClaimed
  /-- `FileNotFoundError`. -/
  | fileNotFound
  deriving DecidableEq, Repr

/-- Add a name to a claim's fetched files, once. -/
def ClaimRecord.fetch (claim : ClaimRecord) (name : String) : ClaimRecord :=
  if name ∈ claim.filesFetched then claim
  else { claim with filesFetched := claim.filesFetched ++ [name] }

namespace ClaimRecord

/-- A mark keeps the identifier. -/
@[simp] theorem fetch_jti (claim : ClaimRecord) (name : String) :
    (claim.fetch name).jti = claim.jti := by
  unfold fetch
  split <;> rfl

/-- A mark keeps the bundle. -/
@[simp] theorem fetch_bundlePath (claim : ClaimRecord) (name : String) :
    (claim.fetch name).bundlePath = claim.bundlePath := by
  unfold fetch
  split <;> rfl

@[simp] private theorem fetch_createdAt (claim : ClaimRecord) (name : String) :
    (claim.fetch name).createdAt = claim.createdAt := by
  unfold fetch
  split <;> rfl

/-- The files that are fetched after a mark. -/
theorem mem_fetch {claim : ClaimRecord} {name n : String} :
    n ∈ (claim.fetch name).filesFetched ↔ n ∈ claim.filesFetched ∨ n = name := by
  unfold fetch
  split
  · rename_i hm
    constructor
    · exact .inl
    · rintro (h | rfl)
      · exact h
      · exact hm
  · simp

end ClaimRecord

namespace ClaimStore

/-- Whether a path is locked. -/
def locked (cs : ClaimStore) (path : String) : Bool := cs.locks.any (·.1 = path)

/-- `get`. -/
def get (cs : ClaimStore) (jti : Id) : Option ClaimRecord := cs.sidecars.find? (·.jti = jti)

/-- `issue`: take the lock, then write the sidecar; a sidecar that is there gives the lock
back. -/
def issue (claim : ClaimRecord) (cs : ClaimStore) : Except ClaimError Unit × ClaimStore :=
  if cs.locked claim.bundlePath then (.error .bundleClaimed, cs)
  else if (cs.get claim.jti).isSome then (.error .bundleClaimed, cs)
  else (.ok (),
    { sidecars := cs.sidecars ++ [claim]
      locks := cs.locks ++ [(claim.bundlePath, claim.jti)] })

/-- `mark_fetched`. -/
def markFetched (jti : Id) (name : String) (cs : ClaimStore) :
    Except ClaimError ClaimRecord × ClaimStore :=
  match cs.get jti with
  | none => (.error .fileNotFound, cs)
  | some claim =>
    (.ok (claim.fetch name),
      { cs with
        sidecars := cs.sidecars.map fun c =>
          if c.jti = jti then claim.fetch name else c })

/-- `delete`: the lock of the record's path goes with the sidecar. -/
def delete (jti : Id) (cs : ClaimStore) : ClaimStore :=
  { sidecars := cs.sidecars.filter (·.jti ≠ jti)
    locks := match cs.get jti with
      | none => cs.locks
      | some claim => cs.locks.filter (·.1 ≠ claim.bundlePath) }

/-! ## What holds between calls -/

/-- No two sidecars share a `jti` or a bundle path, and each holds the lock of its path. -/
structure Sound (cs : ClaimStore) : Prop where
  jtis : (cs.sidecars.map (·.jti)).Nodup
  paths : (cs.sidecars.map (·.bundlePath)).Nodup
  held : ∀ c ∈ cs.sidecars, (c.bundlePath, c.jti) ∈ cs.locks

/-- The empty store is sound. -/
theorem sound_empty : Sound {} := ⟨by simp, by simp, by simp⟩

/-- A claim that is read is the one with the identifier. -/
theorem get_eq_some {cs : ClaimStore} (h : cs.Sound) {jti : Id} {claim : ClaimRecord} :
    cs.get jti = some claim ↔ claim ∈ cs.sidecars ∧ claim.jti = jti := by
  unfold get
  constructor
  · intro hf
    exact ⟨List.mem_of_find?_eq_some hf, by simpa using List.find?_some hf⟩
  · rintro ⟨hm, hj⟩
    cases hf : cs.sidecars.find? (·.jti = jti) with
    | none => simpa [hj] using List.find?_eq_none.mp hf claim hm
    | some c =>
      have hc := List.mem_of_find?_eq_some hf
      have hcj : c.jti = jti := by simpa using List.find?_some hf
      rw [List.inj_on_of_nodup_map h.jtis hc hm (hcj.trans hj.symm)]

/-- A bundle is locked exactly if a lock is for it. -/
theorem mem_locks_iff {cs : ClaimStore} {path : String} :
    cs.locked path = true ↔ ∃ jti, (path, jti) ∈ cs.locks := by
  unfold locked
  rw [List.any_eq_true]
  constructor
  · rintro ⟨⟨p, j⟩, hm, hp⟩
    exact ⟨j, by simpa [← of_decide_eq_true hp] using hm⟩
  · rintro ⟨j, hm⟩
    exact ⟨_, hm, by simp⟩

/-- `issue` refuses and changes nothing, or adds one sidecar on a path that had no lock. -/
theorem issue_cases (claim : ClaimRecord) (cs : ClaimStore) :
    issue claim cs = (.error .bundleClaimed, cs) ∨
      cs.locked claim.bundlePath = false ∧ cs.get claim.jti = none ∧
        issue claim cs = (.ok (),
          { sidecars := cs.sidecars ++ [claim]
            locks := cs.locks ++ [(claim.bundlePath, claim.jti)] }) := by
  unfold issue
  split
  · exact .inl rfl
  · rename_i hl
    split
    · exact .inl rfl
    · rename_i hg
      exact .inr ⟨by simpa using hl, by simpa using hg, rfl⟩

/-- Issuing keeps a store sound. -/
theorem Sound.issue {cs : ClaimStore} (h : cs.Sound) (claim : ClaimRecord) :
    (issue claim cs).2.Sound := by
  rcases issue_cases claim cs with he | ⟨hl, hg, he⟩
  · rw [he]
    exact h
  · rw [he]
    have hjti : claim.jti ∉ cs.sidecars.map (·.jti) := by
      intro hm
      obtain ⟨c, hc, hj⟩ := List.mem_map.mp hm
      rw [(get_eq_some h).mpr ⟨hc, hj⟩] at hg
      cases hg
    have hpath : claim.bundlePath ∉ cs.sidecars.map (·.bundlePath) := by
      intro hm
      obtain ⟨c, hc, hp⟩ := List.mem_map.mp hm
      have hlock := mem_locks_iff.mpr ⟨c.jti, h.held c hc⟩
      rw [hp, hl] at hlock
      cases hlock
    refine ⟨?_, ?_, ?_⟩
    · rw [List.map_append, List.nodup_append]
      exact ⟨h.jtis, by simp, by simpa using fun c hc he => hjti (List.mem_map.mpr ⟨c, hc, he⟩)⟩
    · rw [List.map_append, List.nodup_append]
      exact ⟨h.paths, by simp, by simpa using fun c hc he => hpath (List.mem_map.mpr ⟨c, hc, he⟩)⟩
    · intro c hc
      rcases List.mem_append.mp hc with hc | hc
      · exact List.mem_append_left _ (h.held c hc)
      · obtain rfl := List.mem_singleton.mp hc
        simp

/-- `mark_fetched` rewrites the one sidecar. -/
theorem mem_markFetched {cs : ClaimStore} (h : cs.Sound) {jti : Id} {name : String}
    {c : ClaimRecord} (hc : c ∈ (markFetched jti name cs).2.sidecars) :
    (c ∈ cs.sidecars ∧ c.jti ≠ jti) ∨ ∃ c₀ ∈ cs.sidecars, c₀.jti = jti ∧ c = c₀.fetch name := by
  unfold markFetched at hc
  cases hg : cs.get jti with
  | none =>
    simp only [hg] at hc
    refine .inl ⟨hc, fun hj => ?_⟩
    rw [(get_eq_some h).mpr ⟨hc, hj⟩] at hg
    cases hg
  | some claim =>
    obtain ⟨hm, hj⟩ := (get_eq_some h).mp hg
    simp only [hg, List.mem_map] at hc
    obtain ⟨c₀, hc₀, rfl⟩ := hc
    by_cases hj₀ : c₀.jti = jti
    · exact .inr ⟨claim, hm, hj, by rw [if_pos hj₀]⟩
    · rw [if_neg hj₀]
      exact .inl ⟨hc₀, hj₀⟩

/-- `mark_fetched` drops no claim. -/
theorem jti_mem_markFetched {cs : ClaimStore} {c : ClaimRecord} (hc : c ∈ cs.sidecars) (jti : Id)
    (name : String) : ∃ c' ∈ (markFetched jti name cs).2.sidecars, c'.jti = c.jti := by
  unfold markFetched
  cases hg : cs.get jti with
  | none => exact ⟨c, hc, rfl⟩
  | some claim =>
    refine ⟨_, List.mem_map.mpr ⟨c, hc, rfl⟩, ?_⟩
    have hjti : claim.jti = jti := by simpa using List.find?_some hg
    split
    · rename_i hcj
      rw [ClaimRecord.fetch_jti, hjti, hcj]
    · rfl

/-- The record `mark_fetched` returns is the one it has stored. -/
theorem markFetched_of_get {cs : ClaimStore} {jti : Id} {claim : ClaimRecord}
    (h : cs.get jti = some claim) (name : String) :
    (markFetched jti name cs).1 = .ok (claim.fetch name) ∧
      claim.fetch name ∈ (markFetched jti name cs).2.sidecars := by
  have hmem := List.mem_of_find?_eq_some h
  have hjti : claim.jti = jti := by simpa using List.find?_some h
  unfold markFetched
  rw [h]
  exact ⟨rfl, List.mem_map.mpr ⟨claim, hmem, if_pos hjti⟩⟩

/-- Marking keeps a store sound. -/
theorem Sound.markFetched {cs : ClaimStore} (h : cs.Sound) (jti : Id) (name : String) :
    (markFetched jti name cs).2.Sound := by
  unfold ClaimStore.markFetched
  cases hg : cs.get jti with
  | none => exact h
  | some claim =>
    obtain ⟨hm, hj⟩ := (get_eq_some h).mp hg
    have hsame : ∀ c ∈ cs.sidecars, c.jti = jti → c = claim := fun c hc hcj =>
      List.inj_on_of_nodup_map h.jtis hc hm (hcj.trans hj.symm)
    have hjtis : (cs.sidecars.map fun c => if c.jti = jti then claim.fetch name
        else c).map (·.jti) = cs.sidecars.map (·.jti) := by
      rw [List.map_map]
      refine List.map_congr_left fun c hc => ?_
      simp only [Function.comp_apply]
      split
      · rename_i hcj
        rw [ClaimRecord.fetch_jti, hj, hcj]
      · rfl
    have hpaths : (cs.sidecars.map fun c => if c.jti = jti then claim.fetch name
        else c).map (·.bundlePath) = cs.sidecars.map (·.bundlePath) := by
      rw [List.map_map]
      refine List.map_congr_left fun c hc => ?_
      simp only [Function.comp_apply]
      split
      · rename_i hcj
        rw [ClaimRecord.fetch_bundlePath, hsame c hc hcj]
      · rfl
    refine ⟨by simpa only [hjtis] using h.jtis, by simpa only [hpaths] using h.paths, ?_⟩
    intro c hc
    obtain ⟨c₀, hc₀, rfl⟩ := List.mem_map.mp hc
    by_cases hcj : c₀.jti = jti
    · simpa [hcj] using h.held claim hm
    · simpa [hcj] using h.held c₀ hc₀

/-- The claims that a delete leaves. -/
theorem mem_delete {cs : ClaimStore} {jti : Id} {c : ClaimRecord} :
    c ∈ (delete jti cs).sidecars ↔ c ∈ cs.sidecars ∧ c.jti ≠ jti := by
  simp [delete]

/-- Deleting keeps a store sound. -/
theorem Sound.delete {cs : ClaimStore} (h : cs.Sound) (jti : Id) : (delete jti cs).Sound := by
  refine ⟨?_, ?_, ?_⟩
  · exact h.jtis.sublist (List.filter_sublist.map _)
  · exact h.paths.sublist (List.filter_sublist.map _)
  · intro c hc
    obtain ⟨hm, hne⟩ := mem_delete.mp hc
    have hheld := h.held c hm
    unfold ClaimStore.delete
    cases hg : cs.get jti with
    | none => exact hheld
    | some claim =>
      obtain ⟨hcl, hj⟩ := (get_eq_some h).mp hg
      refine List.mem_filter.mpr ⟨hheld, ?_⟩
      have hpath : c.bundlePath ≠ claim.bundlePath := fun he =>
        hne (by rw [List.inj_on_of_nodup_map h.paths hm hcl he, hj])
      simpa using hpath

end ClaimStore

end Cassetta
