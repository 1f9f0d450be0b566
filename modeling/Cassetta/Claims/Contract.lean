import Mathlib
import Cassetta.Claims.Directory
import Cassetta.Server.Calls

/-!
# One claim-store call after another

Each operation run to its end on the directory does what it does on the list of sidecars and
locks in `ClaimStore`: `Models` relates the two and every call keeps it. What a run of calls
leaves behind is then read off the list.
-/

namespace Cassetta

/-- What a call on the claims directory returns or raises. -/
inductive ClaimReply where
  | done
  /-- `BundleClaimedError`. -/
  | bundleClaimed
  | claim (claim : ClaimRecord)
  /-- `None` of `get`, `FileNotFoundError` of `mark_fetched`. -/
  | absent
  /-- `ValueError`. -/
  | malformed
  | all (claims : List ClaimRecord)
  deriving DecidableEq, Repr

namespace ClaimDir

variable (fmt : ClaimFormat)

/-- One call, run to its end. -/
def call : ClaimCall → ClaimDir → ClaimReply × ClaimDir
  | .issue claim, d =>
    match (ClaimPhase.issueOpenLock claim).finish fmt d with
    | (.issued .., d') => (.done, d')
    | (_, d') => (.bundleClaimed, d')
  | .get jti, d =>
    match d.get jti with
    | none => (.absent, d)
    | some none => (.malformed, d)
    | some (some claim) => (.claim claim, d)
  | .markFetched jti name, d =>
    match (ClaimPhase.markRead jti name).finish fmt d with
    | (.marked _ claim, d') => (.claim claim, d')
    | (.markMalformed _, d') => (.malformed, d')
    | (_, d') => (.absent, d')
  | .delete jti, d => (.done, ((ClaimPhase.deleteRead jti).finish fmt d).2)
  | .iterAll, d => (.all d.iterAll, d)

/-- A delete answers nothing. -/
theorem call_delete (jti : Id) (d : ClaimDir) :
    call fmt (.delete jti) d = (.done, ((ClaimPhase.deleteRead jti).finish fmt d).2) := rfl

/-- The directory after a run of calls. -/
def after (calls : List ClaimCall) : ClaimDir :=
  Runs.run (fun d c => (call fmt c d).2) empty calls

private theorem after_snoc (calls : List ClaimCall) (c : ClaimCall) :
    after fmt (calls ++ [c]) = (call fmt c (after fmt calls)).2 := by
  unfold after
  rw [Runs.run_append]
  rfl

end ClaimDir

/-! ## Each operation on its own -/

namespace ClaimPhase

variable {fmt : ClaimFormat} {d : ClaimDir}

open ClaimDir Folder

private theorem overwrite_empty (b : ClaimBody) : overwrite fmt (.text 0) b = b := by
  unfold overwrite
  rw [if_neg]
  simp [bodyLength]

private theorem finish_issue_locked {claim : ClaimRecord}
    (hl : d.ino (lockPath fmt claim.bundlePath) ≠ none) :
    finish fmt (.issueOpenLock claim) d = (.bundleClaimed claim, d) := by
  have h₁ : step fmt (.issueOpenLock claim) d = (.bundleClaimed claim, d) := by
    simp only [step, openExcl_of_ne hl]
  rw [finish, steps_of_step h₁, steps_finished fmt rfl]

/-- The two calls that take the lock. -/
theorem steps_take_lock {claim : ClaimRecord} (hl : d.ino (lockPath fmt claim.bundlePath) = none)
    (n : Nat) : steps fmt (n + 2) (.issueOpenLock claim) d = steps fmt n (.issueOpen claim d.next)
      (write fmt d.next (.jti claim.jti)
        (d.create (lockPath fmt claim.bundlePath) (.text 0) hl)) := by
  have h₁ : step fmt (.issueOpenLock claim) d = (.issueWriteLock claim d.next,
      d.create (lockPath fmt claim.bundlePath) (.text 0) hl) := by
    simp only [step, openExcl_of_none hl]
  rw [steps_of_step h₁, steps_of_step (step_issueWriteLock ..)]

/-- Reading after a file has been created and written through the inode it got. -/
theorem read_create_write {k : ClaimFile} (hk : d.ino k = none) (b : ClaimBody) (l : ClaimFile) :
    (write fmt d.next b (d.create k (.text 0) hk)).read l = if l = k then some b else d.read l := by
  unfold ClaimDir.write
  rw [read_put, content_create_next, overwrite_empty, ino_create, read_create]
  by_cases hl : l = k
  · simp [hl]
  · have hne : d.ino l ≠ some d.next := fun h => absurd (ino_lt h) (lt_irrefl _)
    simp [hl, hne]

/-- Four steps issue a claim where lock and sidecar are free. -/
theorem steps_issue_free {claim : ClaimRecord}
    (hl : d.ino (lockPath fmt claim.bundlePath) = none) (hs : d.ino (.sidecar claim.jti) = none)
    (n : Nat) :
    ∃ d', steps fmt (n + 4) (.issueOpenLock claim) d = (.issued claim d.next, d') ∧
      ∀ k, d'.read k = if k = .sidecar claim.jti then some (.record claim)
        else if k = lockPath fmt claim.bundlePath then some (.jti claim.jti) else d.read k := by
  rw [steps_take_lock hl]
  generalize hd₁ : write fmt d.next (.jti claim.jti)
    (d.create (lockPath fmt claim.bundlePath) (.text 0) hl) = d₁
  have hread : ∀ k, d₁.read k =
      if k = lockPath fmt claim.bundlePath then some (.jti claim.jti) else d.read k := by
    intro k
    rw [← hd₁, read_create_write]
  have hs₁ : d₁.ino (.sidecar claim.jti) = none := by
    rw [← read_eq_none, hread, if_neg (by simp [lockPath]), read_eq_none]
    exact hs
  have h₂ : step fmt (.issueOpen claim d.next) d₁ = (.issueWrite claim d.next d₁.next,
      d₁.create (.sidecar claim.jti) (.text 0) hs₁) := by
    simp only [step, openExcl_of_none hs₁]
  rw [steps_of_step h₂, steps_of_step (step_issueWrite ..), steps_finished fmt rfl]
  refine ⟨_, rfl, fun k => ?_⟩
  rw [read_create_write, hread]

/-- A claim is issued where lock and sidecar are free. -/
theorem finish_issue_free {claim : ClaimRecord}
    (hl : d.ino (lockPath fmt claim.bundlePath) = none) (hs : d.ino (.sidecar claim.jti) = none) :
    ∃ d', finish fmt (.issueOpenLock claim) d = (.issued claim d.next, d') ∧ ∀ k, d'.read k =
      if k = .sidecar claim.jti then some (.record claim)
      else if k = lockPath fmt claim.bundlePath then some (.jti claim.jti) else d.read k :=
  steps_issue_free hl hs 1

/-- A sidecar that is there makes `issue` give the lock back. -/
theorem finish_issue_clash {claim : ClaimRecord}
    (hl : d.ino (lockPath fmt claim.bundlePath) = none) (hs : d.ino (.sidecar claim.jti) ≠ none) :
    ∃ d', finish fmt (.issueOpenLock claim) d = (.bundleClaimed claim, d') ∧
      ∀ k, d'.read k = d.read k := by
  rw [finish, steps_take_lock hl]
  generalize hd₁ : write fmt d.next (.jti claim.jti)
    (d.create (lockPath fmt claim.bundlePath) (.text 0) hl) = d₁
  have hread : ∀ k, d₁.read k =
      if k = lockPath fmt claim.bundlePath then some (.jti claim.jti) else d.read k := by
    intro k
    rw [← hd₁, read_create_write]
  have hs₁ : d₁.ino (.sidecar claim.jti) ≠ none := by
    rw [Ne, ← read_eq_none, hread, if_neg (by simp [lockPath]), read_eq_none]
    exact hs
  have h₂ : step fmt (.issueOpen claim d.next) d₁ = (.issueUnlinkLock claim, d₁) := by
    simp only [step, openExcl_of_ne hs₁]
  rw [steps_of_step h₂, steps_of_step (step_issueUnlinkLock ..), steps_finished fmt rfl]
  refine ⟨_, rfl, fun k => ?_⟩
  rw [read_unlink, hread]
  split
  · rename_i hk
    rw [hk, eq_comm, read_eq_none]
    exact hl
  · rfl

private theorem finish_mark_absent {jti : Id} {name : String} (hg : d.get jti = none) :
    finish fmt (.markRead jti name) d = (.markNotFound jti, d) := by
  have h₁ : step fmt (.markRead jti name) d = (.markNotFound jti, d) := by
    simp only [step, hg]
  rw [finish, steps_of_step h₁, steps_finished fmt rfl]

private theorem finish_mark_again {jti : Id} {name : String} {claim : ClaimRecord}
    (hg : d.get jti = some (some claim)) (hn : name ∈ claim.filesFetched) :
    finish fmt (.markRead jti name) d = (.marked jti claim, d) := by
  have h₁ : step fmt (.markRead jti name) d = (.marked jti claim, d) := by
    simp only [step, hg, if_pos hn]
  rw [finish, steps_of_step h₁, steps_finished fmt rfl]

/-- The calls of `mark_fetched` up to the text of the new file. -/
theorem steps_draft {jti : Id} {name : String} {claim : ClaimRecord}
    (hg : d.get jti = some (some claim)) (hn : name ∉ claim.filesFetched)
    (ht : d.ino (.sidecarTmp claim.jti) = none) (n : Nat) :
    steps fmt (n + 2) (.markRead jti name) d = steps fmt n
      (.markWriteTmp jti (claim.fetch name) d.next)
      (d.create (.sidecarTmp claim.jti) (.text 0) ht) := by
  have h₁ : step fmt (.markRead jti name) d = (.markOpenTmp jti (claim.fetch name), d) := by
    simp only [step, hg, if_neg hn, ClaimRecord.fetch]
  have h₂ : step fmt (.markOpenTmp jti (claim.fetch name)) d = (.markWriteTmp jti
      (claim.fetch name) d.next, d.create (.sidecarTmp claim.jti) (.text 0) ht) := by
    simp only [step, ClaimRecord.fetch_jti, openTrunc_of_none ht]
  rw [steps_of_step h₁, steps_of_step h₂]

/-- Four steps mark a file that is not marked yet. -/
theorem steps_mark_new {jti : Id} {name : String} {claim : ClaimRecord}
    (hg : d.get jti = some (some claim)) (hn : name ∉ claim.filesFetched)
    (ht : d.ino (.sidecarTmp claim.jti) = none) (n : Nat) :
    ∃ d', steps fmt (n + 4) (.markRead jti name) d = (.marked jti (claim.fetch name), d') ∧
      ∀ k, d'.read k = if k = .sidecar claim.jti then some (.record (claim.fetch name))
        else d.read k := by
  rw [steps_draft hg hn ht, steps_of_step (step_markWriteTmp ..)]
  have hjti : (claim.fetch name).jti = claim.jti := ClaimRecord.fetch_jti ..
  generalize claim.fetch name = updated at hjti ⊢
  generalize hd₁ : write fmt d.next (.record updated)
    (d.create (.sidecarTmp claim.jti) (.text 0) ht) = d₁
  have hread : ∀ k, d₁.read k =
      if k = .sidecarTmp claim.jti then some (.record updated) else d.read k := by
    intro k
    rw [← hd₁, read_create_write]
  obtain ⟨i, hi⟩ : ∃ i, d₁.ino (.sidecarTmp claim.jti) = some i := by
    rw [← Option.ne_none_iff_exists', Ne, ← read_eq_none, hread]
    simp
  have hc : d₁.content i = .record updated := by
    have hr := hread (.sidecarTmp claim.jti)
    rw [if_pos rfl, Folder.read, hi] at hr
    exact Option.some.inj hr
  have h₄ : step fmt (.markReplace jti updated) d₁ = (.marked jti updated,
      d₁.moveTo (.sidecarTmp claim.jti) (.sidecar claim.jti) i hi) := by
    simp only [step, hjti, replace_of_some hi]
  rw [steps_of_step h₄, steps_finished fmt rfl]
  refine ⟨_, rfl, fun k => ?_⟩
  rw [read_moveTo _ _ (by simp), hc, hread]
  by_cases htmp : k = .sidecarTmp claim.jti
  · subst htmp
    simp [read_eq_none.mpr ht]
  · simp [htmp]

private theorem finish_mark_new {jti : Id} {name : String} {claim : ClaimRecord}
    (hg : d.get jti = some (some claim)) (hn : name ∉ claim.filesFetched)
    (ht : d.ino (.sidecarTmp claim.jti) = none) :
    ∃ d', finish fmt (.markRead jti name) d = (.marked jti (claim.fetch name), d') ∧
      ∀ k, d'.read k = if k = .sidecar claim.jti then some (.record (claim.fetch name))
        else d.read k :=
  steps_mark_new hg hn ht 1

/-- Deleting a claim that is not there changes nothing. -/
theorem finish_delete_absent {jti : Id} (hg : d.get jti = none) :
    finish fmt (.deleteRead jti) d = (.deleted jti, d) := by
  have h₁ : step fmt (.deleteRead jti) d = (.deleteUnlink jti, d) := by
    simp only [step, hg]
  have hs : d.ino (.sidecar jti) = none := by
    simpa only [ClaimDir.get, Option.map_eq_none_iff, Folder.read] using hg
  rw [finish, steps_of_step h₁, steps_of_step (step_deleteUnlink ..), steps_finished fmt rfl,
    unlink_of_none hs]

/-- Deleting a claim removes its lock and its sidecar. -/
theorem finish_delete {jti : Id} {claim : ClaimRecord} (hg : d.get jti = some (some claim)) :
    finish fmt (.deleteRead jti) d =
      (.deleted jti, (d.unlink (lockPath fmt claim.bundlePath)).unlink (.sidecar jti)) := by
  have h₁ : step fmt (.deleteRead jti) d = (.deleteUnlinkLock jti claim.bundlePath, d) := by
    simp only [step, hg]
  rw [finish, steps_of_step h₁, steps_of_step (step_deleteUnlinkLock ..),
    steps_of_step (step_deleteUnlink ..), steps_finished fmt rfl]

end ClaimPhase

/-! ## The list the directory stands for -/

/-- A claim after one more call, as long as the call does not delete it. -/
def ClaimRecord.afterCall (claim : ClaimRecord) : ClaimCall → ClaimRecord
  | .markFetched jti name => if claim.jti = jti then claim.fetch name else claim
  | _ => claim

namespace ClaimStore

/-- One call on the list. -/
def call : ClaimCall → ClaimStore → ClaimReply × ClaimStore
  | .issue claim, cs =>
    match cs.issue claim with
    | (.ok (), cs') => (.done, cs')
    | (.error _, cs') => (.bundleClaimed, cs')
  | .get jti, cs =>
    match cs.get jti with
    | none => (.absent, cs)
    | some claim => (.claim claim, cs)
  | .markFetched jti name, cs =>
    match cs.markFetched jti name with
    | (.ok claim, cs') => (.claim claim, cs')
    | (.error _, cs') => (.absent, cs')
  | .delete jti, cs => (.done, cs.delete jti)
  | .iterAll, cs => (.all cs.sidecars, cs)

/-- Sidecars and locks come in pairs. -/
structure Paired (cs : ClaimStore) : Prop extends Sound cs where
  only : ∀ l ∈ cs.locks, ∃ c ∈ cs.sidecars, (c.bundlePath, c.jti) = l

/-- A bundle is locked exactly if a claim is on it. -/
theorem Paired.locked_iff {cs : ClaimStore} (h : cs.Paired) {path : String} :
    cs.locked path = true ↔ ∃ c ∈ cs.sidecars, c.bundlePath = path := by
  rw [mem_locks_iff]
  constructor
  · rintro ⟨jti, hm⟩
    obtain ⟨c, hc, he⟩ := h.only _ hm
    exact ⟨c, hc, congrArg Prod.fst he⟩
  · rintro ⟨c, hc, rfl⟩
    exact ⟨c.jti, h.held c hc⟩

/-- What `mark_fetched` leaves behind. -/
theorem mem_markFetched_iff {cs : ClaimStore} (h : cs.Sound) {jti : Id} {name : String}
    {c : ClaimRecord} : c ∈ (markFetched jti name cs).2.sidecars ↔
      ∃ c₀ ∈ cs.sidecars, c = if c₀.jti = jti then c₀.fetch name else c₀ := by
  constructor
  · intro hc
    rcases mem_markFetched h hc with ⟨hm, hj⟩ | ⟨c₀, hm, hj, rfl⟩
    · exact ⟨c, hm, (if_neg hj).symm⟩
    · exact ⟨c₀, hm, (if_pos hj).symm⟩
  · rintro ⟨c₀, hm, rfl⟩
    by_cases hj : c₀.jti = jti
    · rw [if_pos hj]
      exact (markFetched_of_get ((get_eq_some h).mpr ⟨hm, hj⟩) name).2
    · rw [if_neg hj]
      unfold markFetched
      split
      · exact hm
      · exact List.mem_map.mpr ⟨c₀, hm, if_neg hj⟩

private theorem markFetched_locks (cs : ClaimStore) (jti : Id) (name : String) :
    (markFetched jti name cs).2.locks = cs.locks := by
  unfold markFetched
  split <;> rfl

/-- Every call keeps locks and sidecars paired. -/
theorem Paired.call {cs : ClaimStore} (h : cs.Paired) (c : ClaimCall) : (cs.call c).2.Paired := by
  cases c with
  | issue claim =>
    have hsound := h.toSound.issue claim
    simp only [ClaimStore.call]
    rcases issue_cases claim cs with he | ⟨-, -, he⟩
    · rw [he]
      exact h
    · rw [he] at hsound ⊢
      refine ⟨hsound, fun l hl => ?_⟩
      rcases List.mem_append.mp hl with hl | hl
      · obtain ⟨c, hc, he⟩ := h.only l hl
        exact ⟨c, List.mem_append_left _ hc, he⟩
      · exact ⟨claim, by simp, (List.mem_singleton.mp hl).symm⟩
  | get jti =>
    simp only [ClaimStore.call]
    split <;> exact h
  | markFetched jti name =>
    have he : (cs.call (.markFetched jti name)).2 = (cs.markFetched jti name).2 := by
      simp only [ClaimStore.call]
      split
      · rename_i heq
        rw [heq]
      · rename_i heq
        rw [heq]
    rw [he]
    refine ⟨h.toSound.markFetched jti name, fun l hl => ?_⟩
    rw [markFetched_locks] at hl
    obtain ⟨c, hc, rfl⟩ := h.only l hl
    refine ⟨_, (mem_markFetched_iff h.toSound).mpr ⟨c, hc, rfl⟩, ?_⟩
    split <;> simp
  | delete jti =>
    refine ⟨h.toSound.delete jti, fun l hl => ?_⟩
    simp only [ClaimStore.call, ClaimStore.delete] at hl
    split at hl
    · rename_i hg
      obtain ⟨c, hc, rfl⟩ := h.only l hl
      refine ⟨c, mem_delete.mpr ⟨hc, fun hj => ?_⟩, rfl⟩
      rw [(get_eq_some h.toSound).mpr ⟨hc, hj⟩] at hg
      cases hg
    · rename_i claim hg
      obtain ⟨hl, hne⟩ := List.mem_filter.mp hl
      obtain ⟨c, hc, rfl⟩ := h.only l hl
      refine ⟨c, mem_delete.mpr ⟨hc, fun hj => ?_⟩, rfl⟩
      rw [(get_eq_some h.toSound).mpr ⟨hc, hj⟩] at hg
      obtain rfl := Option.some.inj hg
      simp at hne
  | iterAll => exact h

/-- Which claims a call leaves behind. -/
theorem mem_call {cs : ClaimStore} (h : cs.Sound) {call : ClaimCall} {c : ClaimRecord} :
    c ∈ (cs.call call).2.sidecars ↔
      (∃ c₀ ∈ cs.sidecars, call ≠ .delete c₀.jti ∧ c = c₀.afterCall call) ∨
        call = .issue c ∧ (cs.call call).1 = .done := by
  cases call with
  | issue claim =>
    simp only [ClaimStore.call, ClaimRecord.afterCall]
    rcases issue_cases claim cs with he | ⟨-, -, he⟩
    · simp [he]
    · simp [he, eq_comm]
  | get jti =>
    simp only [ClaimStore.call, ClaimRecord.afterCall]
    split <;> simp
  | markFetched jti name =>
    have he : (cs.call (.markFetched jti name)).2 = (cs.markFetched jti name).2 := by
      simp only [ClaimStore.call]
      split <;> (rename_i heq; rw [heq])
    rw [he, mem_markFetched_iff h]
    simp [ClaimRecord.afterCall, eq_comm]
  | delete jti =>
    show c ∈ (cs.delete jti).sidecars ↔ _
    rw [mem_delete]
    simp [ClaimRecord.afterCall, eq_comm]
  | iterAll => simp [ClaimStore.call, ClaimRecord.afterCall]

end ClaimStore

/-! ## The directory does what the list does -/

/-- The directory holds the sidecars and locks of the list, and nothing else. `U` are the
paths in use. -/
structure Models (fmt : ClaimFormat) (U : Set String) (d : ClaimDir) (cs : ClaimStore) : Prop where
  sidecar : ∀ jti b, d.read (.sidecar jti) = some b ↔
    ∃ c ∈ cs.sidecars, c.jti = jti ∧ b = .record c
  tmp : ∀ jti, d.read (.sidecarTmp jti) = none
  lock : ∀ path ∈ U, ∀ b, d.read (ClaimDir.lockPath fmt path) = some b ↔
    ∃ c ∈ cs.sidecars, c.bundlePath = path ∧ b = .jti c.jti
  used : ∀ c ∈ cs.sidecars, c.bundlePath ∈ U

/-- Two replies say the same; `iter_all` may list in another order. -/
def ClaimReply.Same : ClaimReply → ClaimReply → Prop
  | .all l, .all l' => l.Perm l'
  | r, r' => r = r'

/-- Equal replies are the same. -/
theorem ClaimReply.Same.of_eq {r r' : ClaimReply} (h : r = r') : r.Same r' := by
  subst h
  cases r <;> first | rfl | exact List.Perm.refl _

private theorem ClaimReply.Same.done_iff {r r' : ClaimReply} (h : r.Same r') :
    r = .done ↔ r' = .done := by
  cases r <;> cases r' <;> simp_all [ClaimReply.Same]

namespace Models

variable {fmt : ClaimFormat} {U : Set String} {d : ClaimDir} {cs : ClaimStore}

open ClaimDir

/-- The empty directory models the empty store. -/
theorem empty : Models fmt U ClaimDir.empty {} :=
  ⟨by simp [ClaimDir.empty, Folder.read], by simp [ClaimDir.empty, Folder.read],
    by simp [ClaimDir.empty, Folder.read], by simp⟩

/-- Which store is modelled depends on what can be read alone. -/
theorem congr {d' : ClaimDir} (h : Models fmt U d cs) (hd : ∀ k, d'.read k = d.read k) :
    Models fmt U d' cs :=
  ⟨by simpa only [hd] using h.sidecar, by simpa only [hd] using h.tmp,
    by simpa only [hd] using h.lock, h.used⟩

/-- A claim of the store is read from its sidecar. -/
theorem get_eq_some (h : Models fmt U d cs) {jti : Id} {c : ClaimRecord} (hc : c ∈ cs.sidecars)
    (hj : c.jti = jti) : d.get jti = some (some c) := by
  have hr := (h.sidecar jti (.record c)).mpr ⟨c, hc, hj, rfl⟩
  rw [ClaimDir.get, hr]
  rfl

private theorem get_eq_none (h : Models fmt U d cs) {jti : Id}
    (hj : ∀ c ∈ cs.sidecars, c.jti ≠ jti) :
    d.get jti = none := by
  rw [ClaimDir.get, Option.map_eq_none_iff, Option.eq_none_iff_forall_ne_some]
  intro b hb
  obtain ⟨c, hc, he, -⟩ := (h.sidecar jti b).mp hb
  exact hj c hc he

/-- The claims that are listed are those of the store. -/
theorem entryClaim_eq_some (h : Models fmt U d cs) {k : ClaimFile} {c : ClaimRecord} :
    d.entryClaim k = some c ↔ k = .sidecar c.jti ∧ c ∈ cs.sidecars := by
  constructor
  · intro hk
    cases k with
    | sidecar jti =>
      obtain ⟨o, ho, rfl⟩ : ∃ o, d.get jti = some o ∧ o = some c := by
        simpa [entryClaim, Option.join_eq_some_iff] using hk
      obtain ⟨b, hb, hparse⟩ := Option.map_eq_some_iff.mp ho
      obtain ⟨c', hc', rfl, rfl⟩ := (h.sidecar jti b).mp hb
      obtain rfl := Option.some.inj hparse
      exact ⟨rfl, hc'⟩
    | sidecarTmp jti => cases hk
    | lock digest => cases hk
  · rintro ⟨rfl, hc⟩
    simp [entryClaim, h.get_eq_some hc rfl]

/-- `iter_all` lists the claims of the list, each once. -/
theorem iterAll_perm (h : Models fmt U d cs) (hp : cs.Paired) : d.iterAll.Perm cs.sidecars := by
  have hnodup : d.iterAll.Nodup := by
    refine List.Nodup.filterMap (fun k l c hk hl => ?_) d.keys
    rw [(h.entryClaim_eq_some.mp hk).1, (h.entryClaim_eq_some.mp hl).1]
  refine (List.perm_ext_iff_of_nodup hnodup (List.Nodup.of_map _ hp.jtis)).mpr fun c => ?_
  rw [iterAll, List.mem_filterMap]
  constructor
  · rintro ⟨k, -, hk⟩
    exact (h.entryClaim_eq_some.mp hk).2
  · intro hc
    refine ⟨.sidecar c.jti, ?_, h.entryClaim_eq_some.mpr ⟨rfl, hc⟩⟩
    by_contra hn
    have hr := (h.sidecar c.jti (.record c)).mpr ⟨c, hc, rfl, rfl⟩
    rw [Folder.read_eq_none.mpr (Folder.ino_eq_none.mpr hn)] at hr
    cases hr

/-- Bundles in use have locks of their own. -/
theorem lockPath_inj (hinj : Set.InjOn fmt.digest U) {p q : String} (hp : p ∈ U) (hq : q ∈ U)
    (h : lockPath fmt p = lockPath fmt q) : p = q :=
  hinj hp hq (ClaimFile.lock.inj h)

/-- A sidecar and a lock for a claim that had neither. -/
theorem add (h : Models fmt U d cs) (hinj : Set.InjOn fmt.digest U) {claim : ClaimRecord}
    (hU : claim.bundlePath ∈ U) (hjti : ∀ c ∈ cs.sidecars, c.jti ≠ claim.jti)
    (hpath : ∀ c ∈ cs.sidecars, c.bundlePath ≠ claim.bundlePath) {d' : ClaimDir}
    (hread : ∀ k, d'.read k = if k = .sidecar claim.jti then some (.record claim)
      else if k = lockPath fmt claim.bundlePath then some (.jti claim.jti) else d.read k)
    {locks : List (String × Id)} : Models fmt U d' ⟨cs.sidecars ++ [claim], locks⟩ := by
  refine ⟨?_, ?_, ?_, ?_⟩
  · intro jti b
    rw [hread]
    by_cases hj : jti = claim.jti
    · subst hj
      rw [if_pos rfl, Option.some.injEq]
      constructor
      · rintro rfl
        exact ⟨claim, by simp, rfl, rfl⟩
      · rintro ⟨c, hc, hj, rfl⟩
        rcases List.mem_append.mp hc with hc | hc
        · exact absurd hj (hjti c hc)
        · rw [List.mem_singleton.mp hc]
    · rw [if_neg (by simpa using hj), if_neg (by simp [lockPath]), h.sidecar]
      constructor
      · rintro ⟨c, hc, he⟩
        exact ⟨c, List.mem_append_left _ hc, he⟩
      · rintro ⟨c, hc, he⟩
        rcases List.mem_append.mp hc with hc | hc
        · exact ⟨c, hc, he⟩
        · rw [List.mem_singleton.mp hc] at he
          exact absurd he.1.symm hj
  · intro jti
    rw [hread]
    simpa [lockPath] using h.tmp jti
  · intro path hpU b
    rw [hread, if_neg (by simp [lockPath])]
    by_cases hq : path = claim.bundlePath
    · subst hq
      rw [if_pos rfl, Option.some.injEq]
      constructor
      · rintro rfl
        exact ⟨claim, by simp, rfl, rfl⟩
      · rintro ⟨c, hc, hj, rfl⟩
        rcases List.mem_append.mp hc with hc | hc
        · exact absurd hj (hpath c hc)
        · rw [List.mem_singleton.mp hc]
    · rw [if_neg fun he => hq (lockPath_inj hinj hpU hU he), h.lock path hpU]
      constructor
      · rintro ⟨c, hc, he⟩
        exact ⟨c, List.mem_append_left _ hc, he⟩
      · rintro ⟨c, hc, he⟩
        rcases List.mem_append.mp hc with hc | hc
        · exact ⟨c, hc, he⟩
        · rw [List.mem_singleton.mp hc] at he
          exact absurd he.1.symm hq
  · intro c hc
    rcases List.mem_append.mp hc with hc | hc
    · exact h.used c hc
    · rw [List.mem_singleton.mp hc]
      exact hU

/-- A lock is there exactly if a claim is on the bundle. -/
theorem lock_ne_none (h : Models fmt U d cs) {path : String} (hU : path ∈ U) :
    d.ino (lockPath fmt path) ≠ none ↔ ∃ c ∈ cs.sidecars, c.bundlePath = path := by
  rw [ne_eq, ← Folder.read_eq_none, ← ne_eq, Option.ne_none_iff_exists']
  constructor
  · rintro ⟨b, hb⟩
    obtain ⟨c, hc, hp, -⟩ := (h.lock path hU b).mp hb
    exact ⟨c, hc, hp⟩
  · rintro ⟨c, hc, hp⟩
    exact ⟨_, (h.lock path hU _).mpr ⟨c, hc, hp, rfl⟩⟩

/-- A sidecar is there exactly if the claim is. -/
theorem sidecar_ne_none (h : Models fmt U d cs) {jti : Id} :
    d.ino (.sidecar jti) ≠ none ↔ ∃ c ∈ cs.sidecars, c.jti = jti := by
  rw [ne_eq, ← Folder.read_eq_none, ← ne_eq, Option.ne_none_iff_exists']
  constructor
  · rintro ⟨b, hb⟩
    obtain ⟨c, hc, hj, -⟩ := (h.sidecar jti b).mp hb
    exact ⟨c, hc, hj⟩
  · rintro ⟨c, hc, hj⟩
    exact ⟨_, (h.sidecar jti _).mpr ⟨c, hc, hj, rfl⟩⟩

/-- Issuing a claim on disk is issuing it in the store. -/
theorem issue (h : Models fmt U d cs) (hp : cs.Paired) (hinj : Set.InjOn fmt.digest U)
    {claim : ClaimRecord} (hU : claim.bundlePath ∈ U) :
    (d.call fmt (.issue claim)).1 = (cs.call (.issue claim)).1 ∧
      Models fmt U (d.call fmt (.issue claim)).2 (cs.call (.issue claim)).2 := by
  cases hl : cs.locked claim.bundlePath with
  | true =>
    have hlock := (h.lock_ne_none hU).mpr (hp.locked_iff.mp hl)
    simp only [ClaimDir.call, ClaimStore.call, ClaimPhase.finish_issue_locked hlock,
      ClaimStore.issue, hl, if_true]
    exact ⟨trivial, h⟩
  | false =>
    have hpath : ∀ c ∈ cs.sidecars, c.bundlePath ≠ claim.bundlePath := by
      intro c hc he
      rw [hp.locked_iff.mpr ⟨c, hc, he⟩] at hl
      cases hl
    have hlock : d.ino (lockPath fmt claim.bundlePath) = none := by
      by_contra hn
      obtain ⟨c, hc, he⟩ := (h.lock_ne_none hU).mp hn
      exact hpath c hc he
    cases hg : cs.get claim.jti with
    | some c =>
      have hs := h.sidecar_ne_none.mpr ⟨c, (ClaimStore.get_eq_some hp.toSound).mp hg⟩
      obtain ⟨d', he, hread⟩ := ClaimPhase.finish_issue_clash hlock hs
      simp only [ClaimDir.call, ClaimStore.call, he, ClaimStore.issue, hl, hg]
      exact ⟨rfl, h.congr hread⟩
    | none =>
      have hjti : ∀ c ∈ cs.sidecars, c.jti ≠ claim.jti := by
        intro c hc hj
        rw [(ClaimStore.get_eq_some hp.toSound).mpr ⟨hc, hj⟩] at hg
        cases hg
      have hs : d.ino (.sidecar claim.jti) = none := by
        by_contra hn
        obtain ⟨c, hc, he⟩ := h.sidecar_ne_none.mp hn
        exact hjti c hc he
      obtain ⟨d', he, hread⟩ := ClaimPhase.finish_issue_free hlock hs
      simp only [ClaimDir.call, ClaimStore.call, he, ClaimStore.issue, hl, hg]
      exact ⟨rfl, h.add hinj hU hjti hpath hread⟩

/-- A sidecar rewritten with a record on the same path. -/
theorem rewritten (h : Models fmt U d cs) (hp : cs.Paired) {claim updated : ClaimRecord}
    (hc : claim ∈ cs.sidecars) (hjti : updated.jti = claim.jti)
    (hpath : updated.bundlePath = claim.bundlePath) {cs' : ClaimStore}
    (hmem : ∀ c, c ∈ cs'.sidecars ↔ c ∈ cs.sidecars ∧ c.jti ≠ claim.jti ∨ c = updated)
    {d' : ClaimDir} (hread : ∀ k, d'.read k =
      if k = .sidecar claim.jti then some (.record updated) else d.read k) :
    Models fmt U d' cs' := by
  have hsame : ∀ c ∈ cs.sidecars, c.jti = claim.jti → c = claim := fun c hm hj =>
    List.inj_on_of_nodup_map hp.jtis hm hc hj
  refine ⟨?_, ?_, ?_, ?_⟩
  · intro jti b
    rw [hread]
    by_cases hj : jti = claim.jti
    · subst hj
      rw [if_pos rfl, Option.some.injEq]
      constructor
      · rintro rfl
        exact ⟨updated, (hmem _).mpr (.inr rfl), hjti, rfl⟩
      · rintro ⟨c, hm, hj, rfl⟩
        rcases (hmem c).mp hm with ⟨-, hne⟩ | rfl
        · exact absurd hj hne
        · rfl
    · rw [if_neg (by simpa using hj), h.sidecar]
      constructor
      · rintro ⟨c, hm, rfl, hb⟩
        exact ⟨c, (hmem c).mpr (.inl ⟨hm, hj⟩), rfl, hb⟩
      · rintro ⟨c, hm, rfl, hb⟩
        rcases (hmem c).mp hm with ⟨hm, -⟩ | rfl
        · exact ⟨c, hm, rfl, hb⟩
        · exact absurd hjti hj
  · intro jti
    rw [hread, if_neg (by simp)]
    exact h.tmp jti
  · intro path hpU b
    rw [hread, if_neg (by simp [lockPath]), h.lock path hpU]
    constructor
    · rintro ⟨c, hm, rfl, rfl⟩
      by_cases hj : c.jti = claim.jti
      · obtain rfl := hsame c hm hj
        exact ⟨updated, (hmem _).mpr (.inr rfl), hpath, by rw [hjti]⟩
      · exact ⟨c, (hmem c).mpr (.inl ⟨hm, hj⟩), rfl, rfl⟩
    · rintro ⟨c, hm, rfl, rfl⟩
      rcases (hmem c).mp hm with ⟨hm, -⟩ | rfl
      · exact ⟨c, hm, rfl, rfl⟩
      · exact ⟨claim, hc, hpath.symm, by rw [hjti]⟩
  · intro c hm
    rcases (hmem c).mp hm with ⟨hm, -⟩ | rfl
    · exact h.used c hm
    · rw [hpath]
      exact h.used claim hc

/-- What `mark_fetched` does to the directory. -/
theorem finish_mark (h : Models fmt U d cs) {claim : ClaimRecord} (hc : claim ∈ cs.sidecars)
    (name : String) : ∃ d', ClaimPhase.finish fmt (.markRead claim.jti name) d =
        (.marked claim.jti (claim.fetch name), d') ∧ ∀ k, d'.read k =
      if k = .sidecar claim.jti then some (.record (claim.fetch name)) else d.read k := by
  have hg := h.get_eq_some hc rfl
  by_cases hn : name ∈ claim.filesFetched
  · have hf : claim.fetch name = claim := if_pos hn
    rw [hf]
    refine ⟨d, ClaimPhase.finish_mark_again hg hn, fun k => ?_⟩
    split
    · rename_i hk
      rw [hk]
      exact (h.sidecar _ _).mpr ⟨claim, hc, rfl, rfl⟩
    · rfl
  · exact ClaimPhase.finish_mark_new hg hn (Folder.read_eq_none.mp (h.tmp _))

/-- Marking a file on disk is marking it in the store. -/
theorem markFetched (h : Models fmt U d cs) (hp : cs.Paired) (jti : Id) (name : String) :
    (d.call fmt (.markFetched jti name)).1 = (cs.call (.markFetched jti name)).1 ∧
      Models fmt U (d.call fmt (.markFetched jti name)).2
        (cs.call (.markFetched jti name)).2 := by
  cases hg : cs.get jti with
  | none =>
    have hjti : ∀ c ∈ cs.sidecars, c.jti ≠ jti := by
      intro c hc hj
      rw [(ClaimStore.get_eq_some hp.toSound).mpr ⟨hc, hj⟩] at hg
      cases hg
    simp only [ClaimDir.call, ClaimStore.call, ClaimStore.markFetched, hg,
      ClaimPhase.finish_mark_absent (h.get_eq_none hjti)]
    exact ⟨trivial, h⟩
  | some claim =>
    obtain ⟨hc, rfl⟩ := (ClaimStore.get_eq_some hp.toSound).mp hg
    obtain ⟨d', he, hread⟩ := h.finish_mark hc name
    have hreply := (ClaimStore.markFetched_of_get hg name).1
    have hmem : ∀ c, c ∈ (cs.markFetched claim.jti name).2.sidecars ↔
        ∃ c₀ ∈ cs.sidecars, c = if c₀.jti = claim.jti then c₀.fetch name else c₀ :=
      fun _ => ClaimStore.mem_markFetched_iff hp.toSound
    rcases hcs : cs.markFetched claim.jti name with ⟨r, cs'⟩
    simp only [hcs] at hreply hmem
    subst hreply
    simp only [ClaimDir.call, ClaimStore.call, he, hcs]
    refine ⟨trivial, h.rewritten hp hc (by simp) (by simp) (fun c => ?_) hread⟩
    rw [hmem]
    constructor
    · rintro ⟨c₀, hm, rfl⟩
      by_cases hj : c₀.jti = claim.jti
      · obtain rfl := List.inj_on_of_nodup_map hp.jtis hm hc hj
        exact .inr (if_pos rfl)
      · rw [if_neg hj]
        exact .inl ⟨hm, hj⟩
    · rintro (⟨hm, hj⟩ | rfl)
      · exact ⟨c, hm, (if_neg hj).symm⟩
      · exact ⟨claim, hc, (if_pos rfl).symm⟩

/-- Deleting a claim on disk is deleting it in the store. -/
theorem delete (h : Models fmt U d cs) (hp : cs.Paired) (hinj : Set.InjOn fmt.digest U)
    (jti : Id) : Models fmt U (d.call fmt (.delete jti)).2 (cs.call (.delete jti)).2 := by
  have hmem : ∀ c, c ∈ (cs.delete jti).sidecars ↔ c ∈ cs.sidecars ∧ c.jti ≠ jti :=
    fun _ => ClaimStore.mem_delete
  simp only [ClaimDir.call, ClaimStore.call]
  cases hg : cs.get jti with
  | none =>
    have hjti : ∀ c ∈ cs.sidecars, c.jti ≠ jti := by
      intro c hc hj
      rw [(ClaimStore.get_eq_some hp.toSound).mpr ⟨hc, hj⟩] at hg
      cases hg
    have hsame : ∀ c, c ∈ (cs.delete jti).sidecars ↔ c ∈ cs.sidecars := fun c =>
      (hmem c).trans (and_iff_left_of_imp (hjti c))
    rw [ClaimPhase.finish_delete_absent (h.get_eq_none hjti)]
    exact ⟨by simpa only [hsame] using h.sidecar, h.tmp, by simpa only [hsame] using h.lock,
      by simpa only [hsame] using h.used⟩
  | some claim =>
    obtain ⟨hc, rfl⟩ := (ClaimStore.get_eq_some hp.toSound).mp hg
    rw [ClaimPhase.finish_delete (h.get_eq_some hc rfl)]
    refine ⟨?_, ?_, ?_, ?_⟩
    · intro jti b
      rw [Folder.read_unlink, Folder.read_unlink, if_neg (by simp [lockPath] : _ ≠ lockPath ..)]
      by_cases hj : jti = claim.jti
      · subst hj
        rw [if_pos rfl]
        refine iff_of_false (by simp) ?_
        rintro ⟨c, hm, hj, -⟩
        exact ((hmem c).mp hm).2 hj
      · rw [if_neg (by simpa using hj), h.sidecar]
        constructor
        · rintro ⟨c, hm, rfl, hb⟩
          exact ⟨c, (hmem c).mpr ⟨hm, hj⟩, rfl, hb⟩
        · rintro ⟨c, hm, he⟩
          exact ⟨c, ((hmem c).mp hm).1, he⟩
    · intro jti
      rw [Folder.read_unlink, Folder.read_unlink, if_neg (by simp), if_neg (by simp [lockPath])]
      exact h.tmp jti
    · intro path hpU b
      rw [Folder.read_unlink, Folder.read_unlink, if_neg (by simp [lockPath])]
      by_cases hq : path = claim.bundlePath
      · subst hq
        rw [if_pos rfl]
        refine iff_of_false (by simp) ?_
        rintro ⟨c, hm, hpc, -⟩
        obtain ⟨hm, hne⟩ := (hmem c).mp hm
        exact hne (by rw [List.inj_on_of_nodup_map hp.paths hm hc hpc])
      · rw [if_neg fun he => hq (lockPath_inj hinj hpU (h.used _ hc) he), h.lock path hpU]
        constructor
        · rintro ⟨c, hm, rfl, hb⟩
          refine ⟨c, (hmem c).mpr ⟨hm, fun hj => hq ?_⟩, rfl, hb⟩
          rw [List.inj_on_of_nodup_map hp.jtis hm hc hj]
        · rintro ⟨c, hm, he⟩
          exact ⟨c, ((hmem c).mp hm).1, he⟩
    · intro c hm
      exact h.used c ((hmem c).mp hm).1

/-- Every call does the same to the directory and to the list. -/
theorem call (h : Models fmt U d cs) (hp : cs.Paired) (hinj : Set.InjOn fmt.digest U)
    (c : ClaimCall) (hU : ∀ claim, c = .issue claim → claim.bundlePath ∈ U) :
    (d.call fmt c).1.Same (cs.call c).1 ∧ Models fmt U (d.call fmt c).2 (cs.call c).2 := by
  cases c with
  | issue claim =>
    obtain ⟨hr, hm⟩ := h.issue hp hinj (hU claim rfl)
    exact ⟨.of_eq hr, hm⟩
  | get jti =>
    cases hg : cs.get jti with
    | none =>
      have hjti : ∀ c ∈ cs.sidecars, c.jti ≠ jti := by
        intro c hc hj
        rw [(ClaimStore.get_eq_some hp.toSound).mpr ⟨hc, hj⟩] at hg
        cases hg
      simp only [ClaimDir.call, ClaimStore.call, hg, h.get_eq_none hjti]
      exact ⟨rfl, h⟩
    | some claim =>
      obtain ⟨hc, hj⟩ := (ClaimStore.get_eq_some hp.toSound).mp hg
      simp only [ClaimDir.call, ClaimStore.call, hg, h.get_eq_some hc hj]
      exact ⟨rfl, h⟩
  | markFetched jti name =>
    obtain ⟨hr, hm⟩ := h.markFetched hp jti name
    exact ⟨.of_eq hr, hm⟩
  | delete jti => exact ⟨rfl, h.delete hp hinj jti⟩
  | iterAll => exact ⟨h.iterAll_perm hp, h⟩

end Models

/-! ## Runs -/

/-- The list after a run of calls. -/
def ClaimStore.after (calls : List ClaimCall) : ClaimStore :=
  Runs.run (fun cs c => (cs.call c).2) {} calls

private theorem ClaimStore.after_snoc (calls : List ClaimCall) (c : ClaimCall) :
    ClaimStore.after (calls ++ [c]) = ((ClaimStore.after calls).call c).2 := by
  unfold ClaimStore.after
  rw [Runs.run_append]
  rfl

/-- Locks and sidecars are paired after every run. -/
theorem ClaimStore.paired_after (calls : List ClaimCall) : (ClaimStore.after calls).Paired := by
  induction calls using List.reverseRecOn with
  | nil => exact ⟨sound_empty, by simp [after]⟩
  | append_singleton calls c ih =>
    rw [after_snoc]
    exact ih.call c

/-- Every path a run claims is in `U`. -/
def Uses (U : Set String) (calls : List ClaimCall) : Prop :=
  ∀ claim, .issue claim ∈ calls → claim.bundlePath ∈ U

/-- What a run uses its parts use. -/
theorem Uses.append_left {U : Set String} {calls rest : List ClaimCall}
    (h : Uses U (calls ++ rest)) : Uses U calls :=
  fun claim hc => h claim (List.mem_append_left _ hc)

/-- After every run the directory stands for the list. -/
theorem models_after {fmt : ClaimFormat} {U : Set String} (hinj : Set.InjOn fmt.digest U)
    {calls : List ClaimCall} (hU : Uses U calls) :
    Models fmt U (ClaimDir.after fmt calls) (ClaimStore.after calls) := by
  induction calls using List.reverseRecOn with
  | nil => exact Models.empty
  | append_singleton calls c ih =>
    rw [ClaimDir.after_snoc, ClaimStore.after_snoc]
    refine ((ih hU.append_left).call (ClaimStore.paired_after calls) hinj c ?_).2
    rintro claim rfl
    exact hU claim (by simp)

/-- The names a run marks for a claim, in order. -/
def markedNames (jti : Id) (calls : List ClaimCall) : List String :=
  calls.filterMap fun
    | .markFetched j name => if j = jti then some name else none
    | _ => none

/-- A claim with the distinct new names that calls have marked since, in first-marked order. -/
def ClaimRecord.fetchedSince (claim : ClaimRecord) (calls : List ClaimCall) : ClaimRecord :=
  { claim with
    filesFetched := claim.filesFetched ++
      ((markedNames claim.jti calls).filter (· ∉ claim.filesFetched)).eraseDups }

/-- A claim that a run has issued and not deleted since, with what has been marked. -/
def Live (fmt : ClaimFormat) (calls : List ClaimCall) (claim : ClaimRecord) : Prop :=
  ∃ before issued later, calls = before ++ .issue issued :: later ∧
    (ClaimDir.call fmt (.issue issued) (ClaimDir.after fmt before)).1 = .done ∧
    .delete issued.jti ∉ later ∧ claim = issued.fetchedSince later

private theorem ClaimRecord.fetchedSince_nil (claim : ClaimRecord) :
    claim.fetchedSince [] = claim := by
  simp [fetchedSince, markedNames]

private theorem markedNames_snoc (jti : Id) (calls : List ClaimCall) (c : ClaimCall) :
    markedNames jti (calls ++ [c]) = markedNames jti calls ++ markedNames jti [c] :=
  List.filterMap_append

/-- Marking one more name. -/
theorem ClaimRecord.fetch_append (claim : ClaimRecord) (names : List String) (name : String) :
    { claim with
      filesFetched := claim.filesFetched ++
        ((names ++ [name]).filter (· ∉ claim.filesFetched)).eraseDups } =
      ClaimRecord.fetch { claim with
        filesFetched := claim.filesFetched ++
          (names.filter (· ∉ claim.filesFetched)).eraseDups } name := by
  rw [List.filter_append, List.eraseDups_append]
  by_cases hf : name ∈ claim.filesFetched
  · rw [ClaimRecord.fetch, if_pos (List.mem_append_left _ hf)]
    simp [hf]
  · by_cases hn : name ∈ names
    · have hm : name ∈ (names.filter (· ∉ claim.filesFetched)).eraseDups := by
        simpa [List.mem_eraseDups, hf] using hn
      rw [ClaimRecord.fetch, if_pos (List.mem_append_right _ hm)]
      simp [hf, hn, List.removeAll]
    · have hm : name ∉ claim.filesFetched ++ (names.filter (· ∉ claim.filesFetched)).eraseDups := by
        simp [List.mem_eraseDups, hf, hn]
      rw [ClaimRecord.fetch, if_neg hm]
      simp [hf, hn, List.removeAll, List.eraseDups_cons]

private theorem ClaimRecord.fetchedSince_snoc (claim : ClaimRecord) (calls : List ClaimCall)
    (c : ClaimCall) :
    claim.fetchedSince (calls ++ [c]) = (claim.fetchedSince calls).afterCall c := by
  unfold fetchedSince
  rw [markedNames_snoc]
  cases c with
  | markFetched jti name =>
    by_cases hj : jti = claim.jti
    · simp only [afterCall, markedNames, List.filterMap_cons, List.filterMap_nil, if_pos hj,
        if_pos hj.symm]
      exact fetch_append claim _ name
    · simp [afterCall, markedNames, hj, Ne.symm hj]
  | _ => simp [afterCall, markedNames]

/-- Liveness, one call later. -/
theorem live_snoc {fmt : ClaimFormat} {calls : List ClaimCall} {c : ClaimCall}
    {claim : ClaimRecord} : Live fmt (calls ++ [c]) claim ↔
      (∃ claim₀, Live fmt calls claim₀ ∧ c ≠ .delete claim₀.jti ∧ claim = claim₀.afterCall c) ∨
        c = .issue claim ∧ (ClaimDir.call fmt c (ClaimDir.after fmt calls)).1 = .done := by
  constructor
  · rintro ⟨before, issued, later, hcalls, hdone, hkept, rfl⟩
    rcases List.eq_nil_or_concat later with rfl | ⟨later, c', rfl⟩
    · obtain ⟨rfl, hc⟩ := List.append_inj' hcalls rfl
      obtain rfl := List.singleton_inj.mp hc
      exact .inr ⟨by rw [ClaimRecord.fetchedSince_nil], hdone⟩
    · rw [List.concat_eq_append] at hcalls hkept ⊢
      rw [← List.cons_append, ← List.append_assoc] at hcalls
      obtain ⟨rfl, hc⟩ := List.append_inj' hcalls rfl
      obtain rfl := List.singleton_inj.mp hc
      rw [List.mem_append, not_or] at hkept
      refine .inl ⟨_, ⟨before, issued, later, rfl, hdone, hkept.1, rfl⟩, ?_,
        issued.fetchedSince_snoc later c⟩
      rintro rfl
      exact hkept.2 (by simp [ClaimRecord.fetchedSince])
  · rintro (⟨claim₀, ⟨before, issued, later, rfl, hdone, hkept, rfl⟩, hne, rfl⟩ | ⟨rfl, hdone⟩)
    · refine ⟨before, issued, later ++ [c], by simp, hdone, ?_,
        (issued.fetchedSince_snoc later c).symm⟩
      rw [List.mem_append, not_or, List.mem_singleton]
      exact ⟨hkept, fun he => hne he.symm⟩
    · exact ⟨calls, claim, [], rfl, hdone, by simp, (claim.fetchedSince_nil).symm⟩

/-- The live claims are the sidecars. -/
theorem live_iff_mem {fmt : ClaimFormat} {U : Set String} (hinj : Set.InjOn fmt.digest U)
    {calls : List ClaimCall} (hU : Uses U calls) {claim : ClaimRecord} :
    Live fmt calls claim ↔ claim ∈ (ClaimStore.after calls).sidecars := by
  induction calls using List.reverseRecOn generalizing claim with
  | nil =>
    refine iff_of_false ?_ (by simp [ClaimStore.after])
    rintro ⟨before, issued, later, he, -⟩
    simp at he
  | append_singleton calls c ih =>
    have hpaired := ClaimStore.paired_after calls
    have hreply := ((models_after hinj hU.append_left).call hpaired hinj c (by
      rintro claim rfl
      exact hU claim (by simp))).1.done_iff
    rw [live_snoc, ClaimStore.after_snoc, ClaimStore.mem_call hpaired.toSound, hreply]
    refine or_congr_left (exists_congr fun claim₀ => ?_)
    rw [ih hU.append_left]

/-! ## The contract -/

open ClaimDir

/-- No call of a run issues this claim id. -/
def Unissued (calls : List ClaimCall) (jti : Id) : Prop :=
  ∀ claim, .issue claim ∈ calls → claim.jti ≠ jti

/-- What a run of calls leaves in the directory, and what the next calls answer. -/
structure ClaimContract (fmt : ClaimFormat) (U : Set String) (calls : List ClaimCall) : Prop where
  locked_iff : ∀ path ∈ U, (after fmt calls).ino (lockPath fmt path) ≠ none ↔
    ∃! jti, ∃ c, (after fmt calls).read (.sidecar jti) = some (.record c) ∧ c.bundlePath = path
  lock_holds : ∀ jti c, (after fmt calls).read (.sidecar jti) = some (.record c) →
    (after fmt calls).read (lockPath fmt c.bundlePath) = some (.jti jti)
  issue_done_iff : ∀ claim, claim.bundlePath ∈ U → Unissued calls claim.jti →
    ((call fmt (.issue claim) (after fmt calls)).1 = .done ↔
      ∀ jti c, (after fmt calls).read (.sidecar jti) = some (.record c) →
        c.bundlePath ≠ claim.bundlePath)
  issue_refused : ∀ claim, claim.bundlePath ∈ U → Unissued calls claim.jti →
    (call fmt (.issue claim) (after fmt calls)).1 ≠ .done →
      call fmt (.issue claim) (after fmt calls) = (.bundleClaimed, after fmt calls)
  get_live : ∀ claim, Live fmt calls claim →
    call fmt (.get claim.jti) (after fmt calls) = (.claim claim, after fmt calls)
  mark_twice : ∀ jti name, call fmt (.markFetched jti name)
      (call fmt (.markFetched jti name) (after fmt calls)).2 =
    call fmt (.markFetched jti name) (after fmt calls)
  mark_order : ∀ claim, Live fmt calls claim → ∀ names names' : List String, names.Perm names' →
    ∃ c c', (call fmt (.get claim.jti)
        (after fmt (calls ++ names.map (.markFetched claim.jti)))).1 = .claim c ∧
      (call fmt (.get claim.jti)
        (after fmt (calls ++ names'.map (.markFetched claim.jti)))).1 = .claim c' ∧
      ∀ name, name ∈ c.filesFetched ↔ name ∈ c'.filesFetched
  delete_twice : ∀ jti, call fmt (.delete jti) (call fmt (.delete jti) (after fmt calls)).2 =
    call fmt (.delete jti) (after fmt calls)
  delete_frees : ∀ claim, Live fmt calls claim → ∀ next : ClaimRecord,
    next.bundlePath = claim.bundlePath → Unissued calls next.jti →
      (call fmt (.issue next) (call fmt (.delete claim.jti) (after fmt calls)).2).1 = .done
  iterAll_live : ∃ claims, (call fmt .iterAll (after fmt calls)).1 = .all claims ∧
    (claims.map (·.jti)).Nodup ∧ ∀ claim, claim ∈ claims ↔ Live fmt calls claim

section Contract

variable {fmt : ClaimFormat} {U : Set String}

/-- The ids of the sidecars have been issued. -/
theorem jti_ne_of_unissued {calls : List ClaimCall} {jti : Id} (h : Unissued calls jti) :
    ∀ c ∈ (ClaimStore.after calls).sidecars, c.jti ≠ jti := by
  induction calls using List.reverseRecOn with
  | nil => simp [ClaimStore.after]
  | append_singleton calls call ih =>
    intro c hc
    rw [ClaimStore.after_snoc,
      ClaimStore.mem_call (ClaimStore.paired_after calls).toSound] at hc
    rcases hc with ⟨c₀, hc₀, -, rfl⟩ | ⟨rfl, -⟩
    · have hj : (c₀.afterCall call).jti = c₀.jti := by
        unfold ClaimRecord.afterCall
        split
        · split <;> simp
        · rfl
      rw [hj]
      exact ih (fun claim hm => h claim (List.mem_append_left _ hm)) c₀ hc₀
    · exact h c (by simp)

/-- `issue` of a new id on the list. -/
theorem ClaimStore.issue_done_iff {cs : ClaimStore} (hp : cs.Paired) {claim : ClaimRecord}
    (hjti : ∀ c ∈ cs.sidecars, c.jti ≠ claim.jti) :
    (cs.call (.issue claim)).1 = .done ↔ ∀ c ∈ cs.sidecars, c.bundlePath ≠ claim.bundlePath := by
  have hget : cs.get claim.jti = none := by
    rw [Option.eq_none_iff_forall_ne_some]
    intro c hc
    obtain ⟨hm, hj⟩ := (get_eq_some hp.toSound).mp hc
    exact hjti c hm hj
  cases hl : cs.locked claim.bundlePath with
  | true =>
    obtain ⟨c, hc, hpath⟩ := hp.locked_iff.mp hl
    refine iff_of_false ?_ fun h => h c hc hpath
    simp [ClaimStore.call, ClaimStore.issue, hl]
  | false =>
    refine iff_of_true ?_ fun c hc hpath => ?_
    · simp [ClaimStore.call, ClaimStore.issue, hl, hget]
    · rw [hp.locked_iff.mpr ⟨c, hc, hpath⟩] at hl
      cases hl

/-- Marking a list of names adds just those. -/
theorem live_marked {calls : List ClaimCall} {claim : ClaimRecord} (h : Live fmt calls claim)
    (names : List String) : ∃ c, Live fmt (calls ++ names.map (.markFetched claim.jti)) c ∧
      c.jti = claim.jti ∧ ∀ name, name ∈ c.filesFetched ↔ name ∈ claim.filesFetched ∨
        name ∈ names := by
  induction names using List.reverseRecOn with
  | nil => exact ⟨claim, by simpa using h, rfl, by simp⟩
  | append_singleton names name ih =>
    obtain ⟨c, hc, hj, hmem⟩ := ih
    refine ⟨c.fetch name, ?_, by simpa using hj, fun n => ?_⟩
    · rw [List.map_append, ← List.append_assoc, List.map_singleton, live_snoc]
      exact .inl ⟨c, hc, by simp, by simp [ClaimRecord.afterCall, hj]⟩
    · rw [ClaimRecord.mem_fetch, hmem, List.mem_append, List.mem_singleton, or_assoc]

private theorem call_get_live (hinj : Set.InjOn fmt.digest U) {calls : List ClaimCall}
    (hU : Uses U calls)
    {claim : ClaimRecord} (h : Live fmt calls claim) :
    call fmt (.get claim.jti) (after fmt calls) = (.claim claim, after fmt calls) := by
  have hget := (models_after hinj hU).get_eq_some ((live_iff_mem hinj hU).mp h) rfl
  simp only [call, hget]

private theorem call_mark_twice (hinj : Set.InjOn fmt.digest U) {calls : List ClaimCall}
    (hU : Uses U calls) (jti : Id) (name : String) :
    call fmt (.markFetched jti name) (call fmt (.markFetched jti name) (after fmt calls)).2 =
      call fmt (.markFetched jti name) (after fmt calls) := by
  have hm := models_after hinj hU
  by_cases hj : ∃ c ∈ (ClaimStore.after calls).sidecars, c.jti = jti
  · obtain ⟨c, hc, rfl⟩ := hj
    obtain ⟨d', he, hread⟩ := hm.finish_mark hc name
    have hget : d'.get c.jti = some (some (c.fetch name)) := by
      rw [ClaimDir.get, hread, if_pos rfl]
      rfl
    have hmarked : name ∈ (c.fetch name).filesFetched := ClaimRecord.mem_fetch.mpr (.inr rfl)
    have hagain := @ClaimPhase.finish_mark_again fmt _ _ _ _ hget hmarked
    simp only [call, he, hagain]
  · have hget := hm.get_eq_none fun c hc he => hj ⟨c, hc, he⟩
    simp only [call, ClaimPhase.finish_mark_absent hget]

private theorem call_delete_twice (hinj : Set.InjOn fmt.digest U) {calls : List ClaimCall}
    (hU : Uses U calls) (jti : Id) :
    call fmt (.delete jti) (call fmt (.delete jti) (after fmt calls)).2 =
      call fmt (.delete jti) (after fmt calls) := by
  have hm := (models_after hinj hU).delete (ClaimStore.paired_after calls) hinj jti
  have hgone : ∀ c ∈ ((ClaimStore.after calls).call (.delete jti)).2.sidecars, c.jti ≠ jti :=
    fun _ hc => (ClaimStore.mem_delete.mp hc).2
  have hget := hm.get_eq_none hgone
  show (ClaimReply.done, (ClaimPhase.finish fmt _ _).2) = _
  rw [ClaimPhase.finish_delete_absent hget]
  rfl

end Contract

/-- The claim store keeps its contract over every run of calls, as long as no two paths it is
asked about share a digest. -/
theorem claim_store_contract (fmt : ClaimFormat) (U : Set String)
    (hinj : Set.InjOn fmt.digest U) (calls : List ClaimCall)
    (hU : ∀ claim, .issue claim ∈ calls → claim.bundlePath ∈ U) :
    ClaimContract fmt U calls := by
  have hm := models_after hinj hU
  have hp := ClaimStore.paired_after calls
  have hsidecar : ∀ jti c, (after fmt calls).read (.sidecar jti) = some (.record c) ↔
      c ∈ (ClaimStore.after calls).sidecars ∧ c.jti = jti := by
    intro jti c
    rw [hm.sidecar]
    constructor
    · rintro ⟨c', hc, hj, he⟩
      obtain rfl := ClaimBody.record.inj he
      exact ⟨hc, hj⟩
    · rintro ⟨hc, hj⟩
      exact ⟨c, hc, hj, rfl⟩
  refine ⟨?_, ?_, ?_, ?_, fun claim h => call_get_live hinj hU h, call_mark_twice hinj hU, ?_,
    call_delete_twice hinj hU, ?_, ?_⟩
  · intro path hpath
    rw [hm.lock_ne_none hpath]
    simp only [hsidecar]
    constructor
    · rintro ⟨c, hc, rfl⟩
      refine ⟨c.jti, ⟨c, ⟨hc, rfl⟩, rfl⟩, ?_⟩
      rintro jti ⟨c', ⟨hc', rfl⟩, hpath'⟩
      rw [List.inj_on_of_nodup_map hp.paths hc' hc hpath']
    · rintro ⟨jti, ⟨c, ⟨hc, -⟩, he⟩, -⟩
      exact ⟨c, hc, he⟩
  · intro jti c hr
    obtain ⟨hc, rfl⟩ := (hsidecar jti c).mp hr
    exact (hm.lock _ (hm.used c hc) _).mpr ⟨c, hc, rfl, rfl⟩
  · intro claim hpath hnew
    rw [(hm.issue hp hinj hpath).1, ClaimStore.issue_done_iff hp (jti_ne_of_unissued hnew)]
    simp only [hsidecar]
    exact ⟨fun h jti c hc => h c hc.1, fun h c hc => h c.jti c ⟨hc, rfl⟩⟩
  · intro claim hpath hnew hne
    rw [(hm.issue hp hinj hpath).1, ne_eq,
      ClaimStore.issue_done_iff hp (jti_ne_of_unissued hnew)] at hne
    push Not at hne
    simp only [call, ClaimPhase.finish_issue_locked ((hm.lock_ne_none hpath).mpr hne)]
  · intro claim hlive names names' hperm
    have huses : ∀ ns : List String, Uses U (calls ++ ns.map (.markFetched claim.jti)) := by
      intro ns c hc
      rcases List.mem_append.mp hc with hc | hc
      · exact hU c hc
      · simp at hc
    obtain ⟨c, hc, hj, hmem⟩ := live_marked hlive names
    obtain ⟨c', hc', hj', hmem'⟩ := live_marked hlive names'
    refine ⟨c, c', ?_, ?_, fun name => ?_⟩
    · rw [← hj, call_get_live hinj (hj ▸ huses names) (hj ▸ hc)]
    · rw [← hj', call_get_live hinj (hj' ▸ huses names') (hj' ▸ hc')]
    · rw [hmem, hmem', hperm.mem_iff]
  · intro claim hlive next hpath hnew
    have hc := (live_iff_mem hinj hU).mp hlive
    have hm' := hm.delete hp hinj claim.jti
    have hp' := hp.call (.delete claim.jti)
    rw [(hm'.issue hp' hinj (hpath ▸ hm.used _ hc)).1, ClaimStore.issue_done_iff hp']
    · intro c hc' he
      obtain ⟨hmem, hne⟩ := ClaimStore.mem_delete.mp hc'
      exact hne (by rw [List.inj_on_of_nodup_map hp.paths hmem hc (he.trans hpath)])
    · intro c hc'
      exact jti_ne_of_unissued hnew c (ClaimStore.mem_delete.mp hc').1
  · have hperm := hm.iterAll_perm hp
    refine ⟨_, rfl, ((hperm.map _).nodup_iff).mpr hp.jtis, fun claim => ?_⟩
    rw [hperm.mem_iff, live_iff_mem hinj hU]

/-- A claim, a second one refused, and a third once the first is gone. -/
def sampleCalls : List ClaimCall :=
  [.issue ⟨1, "inbox/host:proj/note", 5, "host:proj", 0, []⟩,
    .markFetched 1 "a.txt",
    .issue ⟨2, "inbox/host:proj/note", 5, "host:proj", 1, []⟩,
    .delete 1,
    .issue ⟨3, "inbox/host:proj/note", 5, "host:proj", 2, []⟩,
    .issue ⟨4, "store/report", 6, "host:proj", 3, []⟩]

/-- The contract, for a run that issues, marks and deletes. -/
theorem claim_store_contract_sample :
    Set.InjOn ClaimFormat.sample.digest {"inbox/host:proj/note", "store/report"} ∧
      ClaimContract .sample {"inbox/host:proj/note", "store/report"} sampleCalls := by
  have hinj : Set.InjOn ClaimFormat.sample.digest {"inbox/host:proj/note", "store/report"} := by
    rintro p (rfl | rfl) q (rfl | rfl) h
    · rfl
    · exact absurd h (by decide)
    · exact absurd h (by decide)
    · rfl
  refine ⟨hinj, claim_store_contract _ _ hinj _ ?_⟩
  intro claim hc
  simp only [sampleCalls, List.mem_cons, ClaimCall.issue.injEq, reduceCtorEq, false_or,
    List.not_mem_nil, or_false] at hc
  rcases hc with rfl | rfl | rfl | rfl <;> simp

example : (ClaimDir.call .sample .iterAll (after .sample sampleCalls)).1 =
    .all [⟨3, "inbox/host:proj/note", 5, "host:proj", 2, []⟩,
      ⟨4, "store/report", 6, "host:proj", 3, []⟩] := by decide +kernel

end Cassetta
