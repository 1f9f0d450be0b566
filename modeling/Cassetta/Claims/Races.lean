import Cassetta.Claims.Directory

/-!
# Claim-store operations of several processes

Any number of `issue`, `mark_fetched` and `delete` operations in flight on one directory, each
making one filesystem call at a time in any order. Operations that have returned are kept, so
that the state tells which claims were issued and which deletes have begun.

A lock belongs to a path and a sidecar to a claim, and `delete` takes the path from a record
it has read before. `Apart` asks that a delete does not overlap another operation on the same
claim; under it a lock is removed by its own claim only, and a sidecar that is gone stays gone.
-/

namespace Cassetta

open ClaimDir

/-- The directory and the operations on it. -/
structure ClaimRace where
  dir : ClaimDir
  ops : List ClaimPhase

namespace ClaimRace

variable (fmt : ClaimFormat)

def init : ClaimRace := ⟨ClaimDir.empty, []⟩

/-- Begin an operation, or let one make its next call. -/
inductive Act where
  | issue (claim : ClaimRecord)
  | markFetched (jti : Id) (name : String)
  | delete (jti : Id)
  | advance (op : Nat)
  deriving DecidableEq, Repr

def step (s : ClaimRace) : Act → ClaimRace
  | .issue claim => { s with ops := s.ops ++ [.issueOpenLock claim] }
  | .markFetched jti name => { s with ops := s.ops ++ [.markRead jti name] }
  | .delete jti => { s with ops := s.ops ++ [.deleteRead jti] }
  | .advance i =>
    match s.ops[i]? with
    | none => s
    | some ph => ⟨(ph.step fmt s.dir).2, s.ops.set i (ph.step fmt s.dir).1⟩

/-- A claim id is a fresh UUID. -/
def Fresh (s : ClaimRace) : Act → Prop
  | .issue claim => ∀ ph ∈ s.ops, ph.jti ≠ claim.jti
  | _ => True

/-- No delete overlaps another operation on the same claim. -/
def Apart (s : ClaimRace) : Act → Prop
  | .markFetched jti _ => ∀ ph ∈ s.ops, ph.jti = jti → ph.kind = .delete → ph.finished = true
  | .delete jti => ∀ ph ∈ s.ops, ph.jti = jti → ph.finished = true
  | _ => True

instance (s : ClaimRace) : ∀ a, Decidable (s.Fresh a)
  | .issue claim => inferInstanceAs (Decidable (∀ ph ∈ s.ops, ph.jti ≠ claim.jti))
  | .markFetched .. | .delete _ | .advance _ => .isTrue trivial

instance (s : ClaimRace) : ∀ a, Decidable (s.Apart a)
  | .markFetched jti _ => inferInstanceAs
      (Decidable (∀ ph ∈ s.ops, ph.jti = jti → ph.kind = .delete → ph.finished = true))
  | .delete jti => inferInstanceAs
      (Decidable (∀ ph ∈ s.ops, ph.jti = jti → ph.finished = true))
  | .issue _ | .advance _ => .isTrue trivial

/-- A claim whose `issue` has returned and whose delete has not begun. -/
def Stands (s : ClaimRace) (i : Nat) (claim : ClaimRecord) : Prop :=
  (∃ lockFd, s.ops[i]? = some (.issued claim lockFd)) ∧
    ∀ ph ∈ s.ops, ph.jti = claim.jti → ph.kind ≠ .delete

/-- At most one claim stands for a bundle path. -/
def Exclusive (s : ClaimRace) : Prop :=
  ∀ i j claim claim', s.Stands i claim → s.Stands j claim' →
    claim.bundlePath = claim'.bundlePath → i = j

/-- The sidecar of a deleted claim is not there. -/
def Buried (s : ClaimRace) : Prop :=
  ∀ jti, .deleted jti ∈ s.ops → s.dir.ino (.sidecar jti) = none

end ClaimRace

/-! ## What one call does -/

namespace ClaimPhase

/-- The moves of an operation that has not returned. -/
inductive Move (fmt : ClaimFormat) : ClaimPhase → ClaimDir → ClaimPhase → ClaimDir → Prop where
  | lock {claim : ClaimRecord} {d : ClaimDir}
      (h : d.ino (lockPath fmt claim.bundlePath) = none) :
      Move fmt (.issueOpenLock claim) d (.issueWriteLock claim d.next)
        (d.create (lockPath fmt claim.bundlePath) (.text 0) h)
  | locked {claim : ClaimRecord} {d : ClaimDir} :
      Move fmt (.issueOpenLock claim) d (.bundleClaimed claim) d
  | writeLock {claim : ClaimRecord} {l : Nat} {d : ClaimDir} :
      Move fmt (.issueWriteLock claim l) d (.issueOpen claim l)
        (write fmt l (.jti claim.jti) d)
  | create {claim : ClaimRecord} {l : Nat} {d : ClaimDir} (h : d.ino (.sidecar claim.jti) = none) :
      Move fmt (.issueOpen claim l) d (.issueWrite claim l d.next)
        (d.create (.sidecar claim.jti) (.text 0) h)
  | clash {claim : ClaimRecord} {l : Nat} {d : ClaimDir}
      (h : d.ino (.sidecar claim.jti) ≠ none) :
      Move fmt (.issueOpen claim l) d (.issueUnlinkLock claim) d
  | undo {claim : ClaimRecord} {d : ClaimDir} :
      Move fmt (.issueUnlinkLock claim) d (.bundleClaimed claim)
        (d.unlink (lockPath fmt claim.bundlePath))
  | write {claim : ClaimRecord} {l fd : Nat} {d : ClaimDir} :
      Move fmt (.issueWrite claim l fd) d (.issued claim l) (write fmt fd (.record claim) d)
  | noSidecar {jti : Id} {name : String} {d : ClaimDir} :
      Move fmt (.markRead jti name) d (.markNotFound jti) d
  | badSidecar {jti : Id} {name : String} {d : ClaimDir} :
      Move fmt (.markRead jti name) d (.markMalformed jti) d
  | already {jti : Id} {name : String} {claim : ClaimRecord} {d : ClaimDir} :
      Move fmt (.markRead jti name) d (.marked jti claim) d
  | draft {jti : Id} {name : String} {claim : ClaimRecord} {d : ClaimDir}
      (h : d.get jti = some (some claim)) :
      Move fmt (.markRead jti name) d
        (.markOpenTmp jti { claim with filesFetched := claim.filesFetched ++ [name] }) d
  | newTmp {jti : Id} {updated : ClaimRecord} {d : ClaimDir}
      (h : d.ino (.sidecarTmp updated.jti) = none) :
      Move fmt (.markOpenTmp jti updated) d (.markWriteTmp jti updated d.next)
        (d.create (.sidecarTmp updated.jti) (.text 0) h)
  | oldTmp {jti : Id} {updated : ClaimRecord} {i : Nat} {d : ClaimDir}
      (h : d.ino (.sidecarTmp updated.jti) = some i) :
      Move fmt (.markOpenTmp jti updated) d (.markWriteTmp jti updated i) (d.put i (.text 0))
  | writeTmp {jti : Id} {updated : ClaimRecord} {fd : Nat} {d : ClaimDir} :
      Move fmt (.markWriteTmp jti updated fd) d (.markReplace jti updated)
        (ClaimDir.write fmt fd (.record updated) d)
  | replaced {jti : Id} {updated : ClaimRecord} {i : Nat} {d : ClaimDir}
      (h : d.ino (.sidecarTmp updated.jti) = some i) :
      Move fmt (.markReplace jti updated) d (.marked jti updated)
        (d.moveTo (.sidecarTmp updated.jti) (.sidecar updated.jti) i h)
  | noTmp {jti : Id} {updated : ClaimRecord} {d : ClaimDir} :
      Move fmt (.markReplace jti updated) d (.markUnlinkTmp jti updated) d
  | dropTmp {jti : Id} {updated : ClaimRecord} {d : ClaimDir} :
      Move fmt (.markUnlinkTmp jti updated) d (.markNotFound jti)
        (d.unlink (.sidecarTmp updated.jti))
  | found {jti : Id} {claim : ClaimRecord} {d : ClaimDir} (h : d.get jti = some (some claim)) :
      Move fmt (.deleteRead jti) d (.deleteUnlinkLock jti claim.bundlePath) d
  | notFound {jti : Id} {d : ClaimDir} : Move fmt (.deleteRead jti) d (.deleteUnlink jti) d
  | unlock {jti : Id} {path : String} {d : ClaimDir} :
      Move fmt (.deleteUnlinkLock jti path) d (.deleteUnlink jti) (d.unlink (lockPath fmt path))
  | remove {jti : Id} {d : ClaimDir} :
      Move fmt (.deleteUnlink jti) d (.deleted jti) (d.unlink (.sidecar jti))

/-- A call that is not finished moves on. -/
theorem step_move (fmt : ClaimFormat) {ph : ClaimPhase} (h : ph.finished = false) (d : ClaimDir) :
    Move fmt ph d (ph.step fmt d).1 (ph.step fmt d).2 := by
  cases ph with
  | issueOpenLock claim =>
    by_cases hl : d.ino (lockPath fmt claim.bundlePath) = none
    · simp only [step, Folder.openExcl_of_none hl]
      exact .lock hl
    · simp only [step, Folder.openExcl_of_ne hl]
      exact .locked
  | issueWriteLock claim l => exact .writeLock
  | issueOpen claim l =>
    by_cases hs : d.ino (.sidecar claim.jti) = none
    · simp only [step, Folder.openExcl_of_none hs]
      exact .create hs
    · simp only [step, Folder.openExcl_of_ne hs]
      exact .clash hs
  | issueUnlinkLock claim => exact .undo
  | issueWrite claim l fd => exact .write
  | markRead jti name =>
    simp only [step]
    split
    · exact .noSidecar
    · exact .badSidecar
    · rename_i claim hg
      split
      · exact .already
      · exact .draft hg
  | markOpenTmp jti updated =>
    cases ht : d.ino (.sidecarTmp updated.jti) with
    | none =>
      simp only [step, Folder.openTrunc_of_none ht]
      exact .newTmp ht
    | some i =>
      simp only [step, Folder.openTrunc_of_some ht]
      exact .oldTmp ht
  | markWriteTmp jti updated fd => exact .writeTmp
  | markReplace jti updated =>
    cases ht : d.ino (.sidecarTmp updated.jti) with
    | none =>
      simp only [step, Folder.replace_of_none ht]
      exact .noTmp
    | some i =>
      simp only [step, Folder.replace_of_some ht]
      exact .replaced ht
  | markUnlinkTmp jti updated => exact .dropTmp
  | deleteRead jti =>
    simp only [step]
    split
    · rename_i claim hg
      exact .found hg
    · exact .notFound
  | deleteUnlinkLock jti path => exact .unlock
  | deleteUnlink jti => exact .remove
  | _ => cases h

/-! ### What an operation holds -/

/-- The claim an `issue` is for. -/
def claimOf : ClaimPhase → Option ClaimRecord
  | .issueOpenLock claim | .issueWriteLock claim _ | .issueOpen claim _ | .issueUnlinkLock claim
  | .issueWrite claim _ _ | .issued claim _ | .bundleClaimed claim => some claim
  | _ => none

/-- The lock an `issue` has created and not given back. -/
def lockFd : ClaimPhase → Option Nat
  | .issueWriteLock _ l | .issueOpen _ l | .issueWrite _ l _ | .issued _ l => some l
  | _ => none

/-- The sidecar, or the file that will replace it, that an operation is about to write. -/
def fd : ClaimPhase → Option Nat
  | .issueWrite _ _ fd | .markWriteTmp _ _ fd => some fd
  | _ => none

/-- The record a `mark_fetched` is about to put in place. -/
def draft : ClaimPhase → Option ClaimRecord
  | .markOpenTmp _ updated | .markWriteTmp _ updated _ | .markReplace _ updated
  | .markUnlinkTmp _ updated => some updated
  | _ => none

/-- The `issue` has created its sidecar. -/
def late : ClaimPhase → Bool
  | .issueWrite .. | .issued .. => true
  | _ => false

/-- The `delete` is done with the lock. -/
def unlocked : ClaimPhase → Bool
  | .deleteUnlink _ | .deleted _ => true
  | _ => false

private theorem draft_of_finished {ph : ClaimPhase} (h : ph.finished = true) : ph.draft = none := by
  cases ph <;> first | rfl | cases h

private theorem issued_of_late {ph : ClaimPhase} (hl : ph.late = true) (hf : ph.finished = true) :
    ∃ claim l, ph = .issued claim l := by
  cases ph <;> cases hl <;> first | exact ⟨_, _, rfl⟩ | cases hf

private theorem kind_of_late {ph : ClaimPhase} (hl : ph.late = true) : ph.kind = .issue := by
  cases ph <;> first | rfl | cases hl

private theorem kind_of_claimOf {ph : ClaimPhase} {c : ClaimRecord} (h : ph.claimOf = some c) :
    ph.kind = .issue ∧ ph.jti = c.jti := by
  cases ph <;> cases h <;> exact ⟨rfl, rfl⟩

private theorem deleted_of_unlocked {ph : ClaimPhase} (hu : ph.unlocked = true)
    (hf : ph.finished = true) : ph = .deleted ph.jti := by
  cases ph <;> cases hu <;> first | rfl | cases hf

section Move

variable {fmt : ClaimFormat} {ph ph' : ClaimPhase} {d d' : ClaimDir}

private theorem Move.jti_eq (h : Move fmt ph d ph' d') : ph'.jti = ph.jti := by
  cases h <;> rfl

/-- A call stays of its kind. -/
theorem Move.kind_eq (h : Move fmt ph d ph' d') : ph'.kind = ph.kind := by
  cases h <;> rfl

/-- A call stays about its claim. -/
theorem Move.claimOf_eq (h : Move fmt ph d ph' d') : ph'.claimOf = ph.claimOf := by
  cases h <;> rfl

private theorem Move.late (h : Move fmt ph d ph' d') (hl : ph.late = true) : ph'.late = true := by
  cases h <;> first | rfl | cases hl

private theorem Move.unfinished (h : Move fmt ph d ph' d') : ph.finished = false := by
  cases h <;> rfl

private theorem Move.next_le (h : Move fmt ph d ph' d') : d.next ≤ d'.next := by
  cases h <;> first | exact Nat.le_refl _ | exact Nat.le_succ _

private theorem Move.born_eq (h : Move fmt ph d ph' d') {i : Nat} (hi : i < d.next) :
    d'.born i = d.born i := by
  cases h <;> first | rfl | exact Function.update_of_ne (Nat.ne_of_lt hi) ..

/-- A call that has given its lock up has done so for good. -/
theorem Move.unlocked (h : Move fmt ph d ph' d') (hu : ph.unlocked = true) :
    ph'.unlocked = true := by
  cases h <;> first | rfl | cases hu

private theorem Move.of_unlock {jti : Id} {path : String}
    (h : Move fmt (.deleteUnlinkLock jti path) d ph' d') : ph' = .deleteUnlink jti := by
  cases h
  rfl

private theorem Move.to_undo {claim : ClaimRecord} (h : Move fmt ph d (.issueUnlinkLock claim) d') :
    (∃ l, ph = .issueOpen claim l) ∧ d.ino (.sidecar claim.jti) ≠ none := by
  cases h with
  | clash hs => exact ⟨⟨_, rfl⟩, hs⟩

private theorem Move.to_unlock {jti : Id} {path : String}
    (h : Move fmt ph d (.deleteUnlinkLock jti path) d') :
    ph = .deleteRead jti ∧ ∃ claim, d.get jti = some (some claim) ∧ path = claim.bundlePath := by
  cases h with
  | found hg => exact ⟨rfl, _, hg, rfl⟩

private theorem Move.to_deleted {jti : Id} (h : Move fmt ph d (.deleted jti) d') :
    ph = .deleteUnlink jti ∧ d'.ino (.sidecar jti) = none := by
  cases h with
  | remove => exact ⟨rfl, by rw [Folder.ino_unlink, if_pos rfl]⟩

/-- A lock is kept from the phase before, or is new. -/
theorem Move.lockFd (h : Move fmt ph d ph' d') {l : Nat} (hl : ph'.lockFd = some l) :
    ph.lockFd = some l ∨ ∃ claim, ph = .issueOpenLock claim ∧ l = d.next ∧ l < d'.next ∧
      d'.ino (lockPath fmt claim.bundlePath) = some l := by
  cases h with
  | lock hn =>
    obtain rfl := Option.some.inj hl
    exact .inr ⟨_, rfl, rfl, Nat.lt_succ_self _, by rw [Folder.ino_create, if_pos rfl]⟩
  | writeLock => exact .inl hl
  | create hs => exact .inl hl
  | write => exact .inl hl
  | _ => cases hl

/-- A draft is kept from the phase before, or comes from a sidecar that is there. -/
theorem Move.draft_of (h : Move fmt ph d ph' d') {c : ClaimRecord} (hc : ph'.draft = some c) :
    ph.draft = some c ∨ d.ino (.sidecar ph.jti) ≠ none := by
  cases h with
  | draft hg => exact .inr (ino_ne_none_of_get hg)
  | newTmp ht => exact .inl hc
  | oldTmp ht => exact .inl hc
  | writeTmp => exact .inl hc
  | noTmp => exact .inl hc
  | _ => cases hc

/-- Only `issue` on its way back and `delete` take a lock away. -/
theorem Move.lock_kept (h : Move fmt ph d ph' d') (hundo : ∀ c, ph ≠ .issueUnlinkLock c)
    {path : String} (hun : ∀ jti p, ph = .deleteUnlinkLock jti p →
      lockPath fmt p ≠ lockPath fmt path) {l : Nat} (hl : d.ino (lockPath fmt path) = some l) :
    d'.ino (lockPath fmt path) = some l := by
  cases h with
  | lock hn =>
    rw [Folder.ino_create, if_neg, hl]
    intro he
    rw [← he, hl] at hn
    cases hn
  | create hs => rw [Folder.ino_create, if_neg (by simp [lockPath]), hl]
  | newTmp ht => rw [Folder.ino_create, if_neg (by simp [lockPath]), hl]
  | replaced ht =>
    rw [Folder.ino_moveTo _ ht (by simp), if_neg (by simp [lockPath]),
      if_neg (by simp [lockPath]), hl]
  | undo => exact absurd rfl (hundo _)
  | dropTmp => rw [Folder.ino_unlink, if_neg (by simp [lockPath]), hl]
  | unlock => rw [Folder.ino_unlink, if_neg fun he => hun _ _ rfl he.symm, hl]
  | remove => rw [Folder.ino_unlink, if_neg (by simp [lockPath]), hl]
  | _ => exact hl

/-- Where a sidecar comes from: it was there, an `issue` creates it, or a draft becomes it. -/
theorem Move.sidecar (h : Move fmt ph d ph' d') {jti : Id} (hs : d'.ino (.sidecar jti) ≠ none) :
    d.ino (.sidecar jti) ≠ none ∨ (ph'.late = true ∧ ph'.jti = jti) ∨
      ∃ c, ph.draft = some c ∧ c.jti = jti := by
  cases h with
  | lock hl =>
    rw [Folder.ino_create, if_neg (by simp [lockPath])] at hs
    exact .inl hs
  | create hn =>
    rename_i claim l
    rw [Folder.ino_create] at hs
    by_cases hj : jti = claim.jti
    · exact .inr (.inl ⟨rfl, hj.symm⟩)
    · rw [if_neg (by simpa using hj)] at hs
      exact .inl hs
  | newTmp ht =>
    rw [Folder.ino_create, if_neg (by simp)] at hs
    exact .inl hs
  | replaced ht =>
    rename_i jti' updated i
    rw [Folder.ino_moveTo _ ht (by simp)] at hs
    by_cases hj : jti = updated.jti
    · exact .inr (.inr ⟨updated, rfl, hj.symm⟩)
    · rw [if_neg (by simpa using hj), if_neg (by simp)] at hs
      exact .inl hs
  | undo =>
    rw [Folder.ino_unlink, if_neg (by simp [lockPath])] at hs
    exact .inl hs
  | dropTmp =>
    rw [Folder.ino_unlink, if_neg (by simp)] at hs
    exact .inl hs
  | unlock =>
    rw [Folder.ino_unlink, if_neg (by simp [lockPath])] at hs
    exact .inl hs
  | remove =>
    rw [Folder.ino_unlink] at hs
    split at hs
    · exact absurd rfl hs
    · exact .inl hs
  | _ => exact .inl hs

end Move

end ClaimPhase

/-! ## Whose inode is whose -/

/-- The claim a file is for; a lock is for none. -/
def ClaimFile.owner : ClaimFile → Option Id
  | .sidecar jti | .sidecarTmp jti => some jti
  | .lock _ => none

/-- Names keep to the inodes of their own claim, and what is recorded there is `P`. -/
structure Kin (P : Id → ClaimRecord → Prop) (d : ClaimDir) : Prop where
  names : ∀ k i, d.ino k = some i → (d.born i).owner = k.owner
  records : ∀ i jti c, i < d.next → (d.born i).owner = some jti → d.content i = .record c → P jti c

namespace Kin

variable {P : Id → ClaimRecord → Prop} {d : ClaimDir}

/-- Claims of a kind are claims of a larger kind. -/
theorem mono {Q : Id → ClaimRecord → Prop} (h : Kin P d) (hPQ : ∀ jti c, P jti c → Q jti c) :
    Kin Q d :=
  ⟨h.names, fun i jti c hi ho hc => hPQ jti c (h.records i jti c hi ho hc)⟩

/-- What is read is of the kind. -/
theorem get (h : Kin P d) {jti : Id} {c : ClaimRecord} (hg : d.get jti = some (some c)) :
    P jti c := by
  obtain ⟨b, hb, hc⟩ := Option.map_eq_some_iff.mp hg
  obtain ⟨i, hi, rfl⟩ := Option.map_eq_some_iff.mp hb
  have hrec : d.content i = .record c := by
    cases hbody : d.content i with
    | record c' =>
      rw [hbody] at hc
      rw [Option.some.inj hc]
    | text n => simp [hbody, parse] at hc
    | jti j => simp [hbody, parse] at hc
  exact h.records i jti c (Folder.ino_lt hi) (h.names _ _ hi) hrec

/-- A new file, which holds no claim yet, keeps the kind. -/
theorem create (h : Kin P d) {k : ClaimFile} (hk : d.ino k = none) :
    Kin P (d.create k (.text 0) hk) := by
  have hborn : ∀ i, i ≠ d.next → (d.create k (.text 0) hk).born i = d.born i := fun i hi =>
    Function.update_of_ne hi ..
  refine ⟨fun l i hi => ?_, fun i jti c hi ho hc => ?_⟩
  · rw [Folder.ino_create] at hi
    split at hi
    · rename_i hl
      obtain rfl := Option.some.inj hi
      rw [Folder.born_create_next, hl]
    · rw [hborn i (Nat.ne_of_lt (Folder.ino_lt hi))]
      exact h.names l i hi
  · by_cases hn : i = d.next
    · subst hn
      rw [Folder.content_create_next] at hc
      cases hc
    · have hi' : i < d.next := Nat.lt_of_le_of_ne (Nat.lt_succ_iff.mp hi) hn
      have hct : (d.create k (.text 0) hk).content i = d.content i := Function.update_of_ne hn ..
      rw [hborn i hn] at ho
      exact h.records i jti c hi' ho (hct ▸ hc)

/-- What goes into an inode is no record, or one that is `P` for the inode's claim. -/
theorem put (h : Kin P d) {i : Nat} {b : ClaimBody}
    (hb : ∀ jti c, (d.born i).owner = some jti → b = .record c → P jti c) : Kin P (d.put i b) := by
  refine ⟨h.names, fun j jti c hj ho hc => ?_⟩
  by_cases hji : j = i
  · subst hji
    refine hb jti c ho ?_
    rwa [Folder.content_put, Function.update_self] at hc
  · rw [Folder.content_put, Function.update_of_ne hji] at hc
    exact h.records j jti c hj ho hc

/-- A removal keeps the kind. -/
theorem unlink (h : Kin P d) (k : ClaimFile) : Kin P (d.unlink k) := by
  refine ⟨fun l i hi => ?_, h.records⟩
  rw [Folder.ino_unlink] at hi
  split at hi
  · cases hi
  · exact h.names l i hi

/-- Putting a temporary file in the place of its sidecar keeps the kind. -/
theorem moveTo (h : Kin P d) {jti : Id} {i : Nat} (hi : d.ino (.sidecarTmp jti) = some i) :
    Kin P (d.moveTo (.sidecarTmp jti) (.sidecar jti) i hi) := by
  refine ⟨fun l j hj => ?_, h.records⟩
  rw [Folder.ino_moveTo _ hi (by simp)] at hj
  split at hj
  · rename_i hl
    obtain rfl := Option.some.inj hj
    rw [hl]
    exact h.names (.sidecarTmp jti) i hi
  · split at hj
    · cases hj
    · exact h.names l j hj

end Kin

private theorem ClaimDir.overwrite_record {fmt : ClaimFormat} {old new : ClaimBody}
    {c : ClaimRecord}
    (h : overwrite fmt old new = .record c) : new = .record c := by
  unfold overwrite at h
  split at h
  · cases h
  · exact h

/-! ## One operation moves -/

namespace ClaimRace

variable {fmt : ClaimFormat}

/-- The operation an action begins. -/
def Act.begins : Act → Option ClaimPhase
  | .issue claim => some (.issueOpenLock claim)
  | .markFetched jti name => some (.markRead jti name)
  | .delete jti => some (.deleteRead jti)
  | .advance _ => none

/-- One place of a list of operations has a new entry. -/
def Changed (ops : List ClaimPhase) (i : Nat) (ph : ClaimPhase) (ops' : List ClaimPhase) : Prop :=
  ∀ k, ops'[k]? = if k = i then some ph else ops[k]?

private theorem changed_append (ops : List ClaimPhase) (ph : ClaimPhase) :
    Changed ops ops.length ph (ops ++ [ph]) := by
  intro k
  rw [List.getElem?_append]
  split
  · rename_i hk
    rw [if_neg (by omega)]
  · by_cases hk : k = ops.length
    · simp [hk]
    · rw [if_neg hk, List.getElem?_eq_none (by simp; omega), List.getElem?_eq_none (by omega)]

private theorem changed_set {ops : List ClaimPhase} {i : Nat} {ph : ClaimPhase}
    (h : ops[i]? = some ph)
    (ph' : ClaimPhase) : Changed ops i ph' (ops.set i ph') := by
  intro k
  obtain ⟨hi, -⟩ := List.getElem?_eq_some_iff.mp h
  rw [List.getElem?_set, if_pos hi]
  by_cases hk : k = i
  · simp [hk]
  · rw [if_neg hk, if_neg (Ne.symm hk)]

/-- An action changes nothing, begins an operation, or moves one. -/
theorem step_cases (s : ClaimRace) (a : Act) :
    s.step fmt a = s ∨
      (∃ ph, a.begins = some ph ∧ Changed s.ops s.ops.length ph (s.step fmt a).ops ∧
        (s.step fmt a).dir = s.dir) ∨
      ∃ i ph ph', s.ops[i]? = some ph ∧ Changed s.ops i ph' (s.step fmt a).ops ∧
        ClaimPhase.Move fmt ph s.dir ph' (s.step fmt a).dir := by
  cases a with
  | issue claim => exact .inr (.inl ⟨_, rfl, changed_append _ _, rfl⟩)
  | markFetched jti name => exact .inr (.inl ⟨_, rfl, changed_append _ _, rfl⟩)
  | delete jti => exact .inr (.inl ⟨_, rfl, changed_append _ _, rfl⟩)
  | advance i =>
    cases hi : s.ops[i]? with
    | none => simp [step, hi]
    | some ph =>
      cases hf : ph.finished with
      | true =>
        have hs : s.ops.set i ph = s.ops := by
          obtain ⟨hlt, rfl⟩ := List.getElem?_eq_some_iff.mp hi
          exact List.set_getElem_self hlt
        simp [step, hi, ClaimPhase.step_finished fmt hf, hs]
      | false =>
        simp only [step, hi]
        exact .inr (.inr ⟨i, ph, _, hi, changed_set hi _, ClaimPhase.step_move fmt hf s.dir⟩)

/-! ## What holds in every run -/

/-- A claim of this id has been issued on this path, or is being. -/
def PathOf (ops : List ClaimPhase) (jti : Id) (path : String) : Prop :=
  ∃ (k : Nat) (ph : ClaimPhase) (claim : ClaimRecord), ops[k]? = some ph ∧ ph.claimOf = some claim ∧
    claim.jti = jti ∧ claim.bundlePath = path

/-- The sidecar of this claim has been created. -/
def Late (ops : List ClaimPhase) (jti : Id) : Prop :=
  ∃ (k : Nat) (ph : ClaimPhase), ops[k]? = some ph ∧ ph.late = true ∧ ph.jti = jti

/-- Every record found is one of the claim it is found under, and ids are not reused. -/
structure Orderly (s : ClaimRace) : Prop where
  kin : Kin (fun jti c => c.jti = jti ∧ PathOf s.ops jti c.bundlePath) s.dir
  fds : ∀ (k : Nat) (ph : ClaimPhase) (fd : Nat), s.ops[k]? = some ph → ph.fd = some fd →
    fd < s.dir.next ∧ (s.dir.born fd).owner = some ph.jti
  drafts :
    ∀ (k : Nat) (ph : ClaimPhase) (c : ClaimRecord), s.ops[k]? = some ph → ph.draft = some c →
    c.jti = ph.jti ∧ PathOf s.ops ph.jti c.bundlePath ∧ Late s.ops ph.jti
  sidecars : ∀ jti, s.dir.ino (.sidecar jti) ≠ none → Late s.ops jti
  unique : ∀ (k l : Nat) (ph ph' : ClaimPhase), s.ops[k]? = some ph → s.ops[l]? = some ph' →
    ph.kind = .issue → ph'.kind = .issue → ph.jti = ph'.jti → k = l

section Orderly

variable {ops ops' : List ClaimPhase} {i : Nat} {ph ph' : ClaimPhase} {d d' : ClaimDir}

/-- The call that moved is where it was. -/
theorem Changed.self (h : Changed ops i ph ops') : ops'[i]? = some ph := by
  rw [h, if_pos rfl]

/-- The other calls are as they were. -/
theorem Changed.other (h : Changed ops i ph ops') {k : Nat} (hk : k ≠ i) : ops'[k]? = ops[k]? := by
  rw [h, if_neg hk]

/-- A call is the one that moved, or is as it was. -/
theorem Changed.cases (hc : Changed ops i ph' ops') {k : Nat} {q : ClaimPhase}
    (hk : ops'[k]? = some q) : (k = i ∧ q = ph') ∨ (k ≠ i ∧ ops[k]? = some q) := by
  by_cases he : k = i
  · subst he
    exact .inl ⟨rfl, Option.some.inj (hk.symm.trans hc.self)⟩
  · exact .inr ⟨he, (hc.other he).symm.trans hk⟩

/-- The bundle of a claim is known after a call has begun. -/
theorem PathOf.begun (hc : Changed ops ops.length ph ops') {jti : Id} {path : String}
    (h : PathOf ops jti path) : PathOf ops' jti path := by
  obtain ⟨k, ph₀, claim, hk, he⟩ := h
  have hne : k ≠ ops.length := by
    obtain ⟨hlt, -⟩ := List.getElem?_eq_some_iff.mp hk
    omega
  exact ⟨k, ph₀, claim, (hc.other hne).trans hk, he⟩

/-- A claim that is late stays so after a call has begun. -/
theorem Late.begun (hc : Changed ops ops.length ph ops') {jti : Id} (h : Late ops jti) :
    Late ops' jti := by
  obtain ⟨k, ph₀, hk, he⟩ := h
  have hne : k ≠ ops.length := by
    obtain ⟨hlt, -⟩ := List.getElem?_eq_some_iff.mp hk
    omega
  exact ⟨k, ph₀, (hc.other hne).trans hk, he⟩

/-- The bundle of a claim is known after a call has moved. -/
theorem PathOf.moved (hi : ops[i]? = some ph) (hc : Changed ops i ph' ops')
    (hm : ClaimPhase.Move fmt ph d ph' d') {jti : Id} {path : String} (h : PathOf ops jti path) :
    PathOf ops' jti path := by
  obtain ⟨k, ph₀, claim, hk, hcl, he⟩ := h
  by_cases hki : k = i
  · subst hki
    obtain rfl := Option.some.inj (hk.symm.trans hi)
    exact ⟨k, ph', claim, hc.self, hm.claimOf_eq.trans hcl, he⟩
  · exact ⟨k, ph₀, claim, (hc.other hki).trans hk, hcl, he⟩

/-- A claim that is late stays so after a call has moved. -/
theorem Late.moved (hi : ops[i]? = some ph) (hc : Changed ops i ph' ops')
    (hm : ClaimPhase.Move fmt ph d ph' d') {jti : Id} (h : Late ops jti) : Late ops' jti := by
  obtain ⟨k, ph₀, hk, hl, he⟩ := h
  by_cases hki : k = i
  · subst hki
    obtain rfl := Option.some.inj (hk.symm.trans hi)
    exact ⟨k, ph', hc.self, hm.late hl, hm.jti_eq.trans he⟩
  · exact ⟨k, ph₀, (hc.other hki).trans hk, hl, he⟩

variable {s s' : ClaimRace}

/-- An operation that begins holds nothing yet. -/
theorem Orderly.begun (h : s.Orderly) (hfd : ph.fd = none) (hdraft : ph.draft = none)
    (hfresh : ph.kind = .issue → ∀ q ∈ s.ops, q.jti ≠ ph.jti)
    (hc : Changed s.ops s.ops.length ph s'.ops) (hd : s'.dir = s.dir) : s'.Orderly := by
  refine ⟨?_, ?_, ?_, ?_, ?_⟩
  · rw [hd]
    exact h.kin.mono fun jti c hP => ⟨hP.1, hP.2.begun hc⟩
  · intro k q fd hk hq
    rcases hc.cases hk with ⟨-, rfl⟩ | ⟨-, hk⟩
    · rw [hfd] at hq
      cases hq
    · rw [hd]
      exact h.fds k q fd hk hq
  · intro k q c hk hq
    rcases hc.cases hk with ⟨-, rfl⟩ | ⟨-, hk⟩
    · rw [hdraft] at hq
      cases hq
    · obtain ⟨hj, hp, hl⟩ := h.drafts k q c hk hq
      exact ⟨hj, hp.begun hc, hl.begun hc⟩
  · intro jti hj
    rw [hd] at hj
    exact (h.sidecars jti hj).begun hc
  · intro k l q q' hk hl hq hq' hjti
    rcases hc.cases hk with ⟨rfl, rfl⟩ | ⟨-, hk⟩ <;>
      rcases hc.cases hl with ⟨rfl, rfl⟩ | ⟨-, hl⟩
    · rfl
    · exact absurd hjti.symm (hfresh hq q' (List.mem_of_getElem? hl))
    · exact absurd hjti (hfresh hq' q (List.mem_of_getElem? hk))
    · exact h.unique k l q q' hk hl hq hq' hjti

/-- What a move writes is for the claim it is on. -/
theorem Orderly.kin_moved (h : s.Orderly) (hi : s.ops[i]? = some ph)
    (hm : ClaimPhase.Move fmt ph s.dir ph' d') :
    Kin (fun jti c => c.jti = jti ∧ PathOf s.ops jti c.bundlePath) d' := by
  cases hm with
  | lock hl => exact h.kin.create hl
  | create hs => exact h.kin.create hs
  | newTmp ht => exact h.kin.create ht
  | writeLock =>
    refine h.kin.put fun jti c _ hb => ?_
    cases overwrite_record hb
  | write =>
    rename_i claim l fd
    refine h.kin.put fun jti c ho hb => ?_
    obtain rfl := ClaimBody.record.inj (overwrite_record hb)
    have hjti : claim.jti = jti := Option.some.inj ((h.fds i _ fd hi rfl).2.symm.trans ho)
    exact ⟨hjti, i, _, claim, hi, rfl, hjti, rfl⟩
  | oldTmp ht =>
    refine h.kin.put fun jti c _ hb => ?_
    cases hb
  | writeTmp =>
    rename_i jti updated fd
    refine h.kin.put fun jti' c ho hb => ?_
    obtain rfl := ClaimBody.record.inj (overwrite_record hb)
    obtain rfl : jti = jti' := Option.some.inj ((h.fds i _ fd hi rfl).2.symm.trans ho)
    obtain ⟨hj, hp, -⟩ := h.drafts i _ updated hi rfl
    exact ⟨hj, hp⟩
  | replaced ht => exact h.kin.moveTo ht
  | undo => exact h.kin.unlink _
  | dropTmp => exact h.kin.unlink _
  | unlock => exact h.kin.unlink _
  | remove => exact h.kin.unlink _
  | _ => exact h.kin

private theorem Orderly.fds_moved (h : s.Orderly) (hm : ClaimPhase.Move fmt ph s.dir ph' d')
    (hi : s.ops[i]? = some ph) {fd : Nat} (hfd : ph'.fd = some fd) :
    fd < d'.next ∧ (d'.born fd).owner = some ph'.jti := by
  cases hm with
  | create hs =>
    obtain rfl := Option.some.inj hfd
    exact ⟨Nat.lt_succ_self _, congrArg ClaimFile.owner (Folder.born_create_next ..)⟩
  | newTmp ht =>
    obtain rfl := Option.some.inj hfd
    refine ⟨Nat.lt_succ_self _, (congrArg ClaimFile.owner (Folder.born_create_next ..)).trans ?_⟩
    exact congrArg some (h.drafts i _ _ hi rfl).1
  | oldTmp ht =>
    obtain rfl := Option.some.inj hfd
    refine ⟨Folder.ino_lt ht, (h.kin.names _ _ ht).trans ?_⟩
    exact congrArg some (h.drafts i _ _ hi rfl).1
  | _ => cases hfd

private theorem Orderly.drafts_moved (h : s.Orderly) (hm : ClaimPhase.Move fmt ph s.dir ph' d')
    (hi : s.ops[i]? = some ph) {c : ClaimRecord} (hc : ph'.draft = some c) :
    c.jti = ph'.jti ∧ PathOf s.ops ph'.jti c.bundlePath ∧ Late s.ops ph'.jti := by
  cases hm with
  | draft hg =>
    obtain rfl := Option.some.inj hc
    obtain ⟨hj, hp⟩ := h.kin.get hg
    exact ⟨hj, hp, h.sidecars _ (ino_ne_none_of_get hg)⟩
  | newTmp ht =>
    have hd := h.drafts i _ c hi hc
    exact hd
  | oldTmp ht =>
    have hd := h.drafts i _ c hi hc
    exact hd
  | writeTmp =>
    have hd := h.drafts i _ c hi hc
    exact hd
  | noTmp =>
    have hd := h.drafts i _ c hi hc
    exact hd
  | _ => cases hc

/-- A call that moves keeps the directory orderly. -/
theorem Orderly.moved (h : s.Orderly) (hi : s.ops[i]? = some ph)
    (hc : Changed s.ops i ph' s'.ops) (hm : ClaimPhase.Move fmt ph s.dir ph' s'.dir) :
    s'.Orderly := by
  refine ⟨?_, ?_, ?_, ?_, ?_⟩
  · exact (h.kin_moved hi hm).mono fun jti c hP => ⟨hP.1, hP.2.moved hi hc hm⟩
  · intro k q fd hk hq
    rcases hc.cases hk with ⟨-, rfl⟩ | ⟨-, hk⟩
    · exact h.fds_moved hm hi hq
    · obtain ⟨hlt, ho⟩ := h.fds k q fd hk hq
      exact ⟨hlt.trans_le hm.next_le, by rw [hm.born_eq hlt, ho]⟩
  · intro k q c hk hq
    rcases hc.cases hk with ⟨-, rfl⟩ | ⟨-, hk⟩
    · obtain ⟨hj, hp, hl⟩ := h.drafts_moved hm hi hq
      exact ⟨hj, hp.moved hi hc hm, hl.moved hi hc hm⟩
    · obtain ⟨hj, hp, hl⟩ := h.drafts k q c hk hq
      exact ⟨hj, hp.moved hi hc hm, hl.moved hi hc hm⟩
  · intro jti hj
    rcases hm.sidecar hj with hs | ⟨hl, hjti⟩ | ⟨c, hdr, rfl⟩
    · exact (h.sidecars jti hs).moved hi hc hm
    · exact ⟨i, ph', hc.self, hl, hjti⟩
    · obtain ⟨hj, -, hl⟩ := h.drafts i ph c hi hdr
      rw [hj]
      exact hl.moved hi hc hm
  · intro k l q q' hk hl hq hq' hjti
    have hbefore : ∀ (k : Nat) (q : ClaimPhase), s'.ops[k]? = some q →
        ∃ q₀, s.ops[k]? = some q₀ ∧ q.kind = q₀.kind ∧ q.jti = q₀.jti := by
      intro k q hk
      rcases hc.cases hk with ⟨rfl, rfl⟩ | ⟨-, hk⟩
      · exact ⟨ph, hi, hm.kind_eq, hm.jti_eq⟩
      · exact ⟨q, hk, rfl, rfl⟩
    obtain ⟨q₀, hk₀, hkind, hj⟩ := hbefore k q hk
    obtain ⟨q₁, hl₁, hkind', hj'⟩ := hbefore l q' hl
    exact h.unique k l q₀ q₁ hk₀ hl₁ (hkind ▸ hq) (hkind' ▸ hq') (hj ▸ hj' ▸ hjti)

end Orderly

/-! ## What holds while deletes keep apart -/

/-- Every lock belongs to the claim that took it until its own delete removes it, and a
deleted claim is left alone. -/
structure Safe (fmt : ClaimFormat) (s : ClaimRace) : Prop where
  lock_lt : ∀ (k : Nat) (ph : ClaimPhase) (l : Nat), s.ops[k]? = some ph → ph.lockFd = some l →
    l < s.dir.next
  distinct : ∀ (k k' : Nat) (ph ph' : ClaimPhase) (l : Nat), s.ops[k]? = some ph →
    s.ops[k']? = some ph' → ph.lockFd = some l → ph'.lockFd = some l → k = k'
  held : ∀ (k : Nat) (ph : ClaimPhase) (c : ClaimRecord) (l : Nat), s.ops[k]? = some ph →
    ph.claimOf = some c → ph.lockFd = some l →
    (∀ q ∈ s.ops, q.jti = c.jti → q.unlocked = false) →
    s.dir.ino (lockPath fmt c.bundlePath) = some l
  no_undo : ∀ (k : Nat) (c : ClaimRecord), s.ops[k]? ≠ some (.issueUnlinkLock c)
  apart : ∀ (k k' : Nat) (ph ph' : ClaimPhase), s.ops[k]? = some ph → s.ops[k']? = some ph' →
    ph.kind = .delete → ph.finished = false → ph'.jti = ph.jti → k' ≠ k → ph'.finished = true
  unlocking : ∀ (k : Nat) (jti : Id) (path : String),
    s.ops[k]? = some (.deleteUnlinkLock jti path) →
    (∃ (k' : Nat) (c : ClaimRecord) (l : Nat), s.ops[k']? = some (.issued c l) ∧ c.jti = jti ∧
      c.bundlePath = path) ∧ ∀ q ∈ s.ops, q.jti = jti → q.unlocked = false
  gone : ∀ jti, .deleted jti ∈ s.ops → s.dir.ino (.sidecar jti) = none ∧
    ∀ q ∈ s.ops, q.jti = jti → q.draft = none ∧ (q.kind = .issue → q.finished = true)

section Safe

variable {ops ops' : List ClaimPhase} {i : Nat} {ph ph' : ClaimPhase} {s s' : ClaimRace}

private theorem Changed.mem (hc : Changed ops i ph' ops') {q : ClaimPhase} (hq : q ∈ ops') :
    q = ph' ∨ q ∈ ops := by
  obtain ⟨k, hk⟩ := List.mem_iff_getElem?.mp hq
  rcases hc.cases hk with ⟨-, rfl⟩ | ⟨-, hk⟩
  · exact .inl rfl
  · exact .inr (List.mem_of_getElem? hk)

private theorem Changed.mem_begun (hc : Changed ops ops.length ph ops') {q : ClaimPhase}
    (hq : q ∈ ops) :
    q ∈ ops' := by
  obtain ⟨k, hk⟩ := List.mem_iff_getElem?.mp hq
  obtain ⟨hlt, -⟩ := List.getElem?_eq_some_iff.mp hk
  exact List.mem_of_getElem? ((hc.other (Nat.ne_of_lt hlt)).trans hk)

/-- A call that begins keeps the calls safe. -/
theorem Safe.begun (h : s.Safe fmt) (hlock : ph.lockFd = none)
    (hundo : ∀ c, ph ≠ .issueUnlinkLock c)
    (hun : ∀ jti p, ph ≠ .deleteUnlinkLock jti p) (hdel : ∀ jti, ph ≠ .deleted jti)
    (hunl : ph.unlocked = false) (hdraft : ph.draft = none)
    (hfresh : ph.kind = .issue → ∀ q ∈ s.ops, q.jti ≠ ph.jti)
    (hapart : ∀ q ∈ s.ops, q.jti = ph.jti → ph.kind = .delete ∨ q.kind = .delete →
      q.finished = true)
    (hc : Changed s.ops s.ops.length ph s'.ops) (hd : s'.dir = s.dir) : s'.Safe fmt := by
  refine ⟨?_, ?_, ?_, ?_, ?_, ?_, ?_⟩
  · intro k q l hk hl
    rw [hd]
    rcases hc.cases hk with ⟨-, rfl⟩ | ⟨-, hk⟩
    · rw [hlock] at hl
      cases hl
    · exact h.lock_lt k q l hk hl
  · intro k k' q q' l hk hk' hl hl'
    rcases hc.cases hk with ⟨-, rfl⟩ | ⟨-, hk⟩
    · rw [hlock] at hl
      cases hl
    · rcases hc.cases hk' with ⟨-, rfl⟩ | ⟨-, hk'⟩
      · rw [hlock] at hl'
        cases hl'
      · exact h.distinct k k' q q' l hk hk' hl hl'
  · intro k q c l hk hq hl hno
    rw [hd]
    rcases hc.cases hk with ⟨-, rfl⟩ | ⟨-, hk⟩
    · rw [hlock] at hl
      cases hl
    · exact h.held k q c l hk hq hl fun q hq => hno q (hc.mem_begun hq)
  · intro k c hk
    rcases hc.cases hk with ⟨-, he⟩ | ⟨-, hk⟩
    · exact hundo c he.symm
    · exact h.no_undo k c hk
  · intro k k' q q' hk hk' hq hf hj hne
    rcases hc.cases hk with ⟨rfl, rfl⟩ | ⟨-, hk⟩
    · rcases hc.cases hk' with ⟨rfl, -⟩ | ⟨-, hk'⟩
      · exact absurd rfl hne
      · exact hapart q' (List.mem_of_getElem? hk') hj (.inl hq)
    · rcases hc.cases hk' with ⟨rfl, rfl⟩ | ⟨-, hk'⟩
      · rw [hapart q (List.mem_of_getElem? hk) hj.symm (.inr hq)] at hf
        cases hf
      · exact h.apart k k' q q' hk hk' hq hf hj hne
  · intro k jti path hk
    rcases hc.cases hk with ⟨-, he⟩ | ⟨-, hk⟩
    · exact absurd he.symm (hun jti path)
    · obtain ⟨⟨k', c, l, hk', he⟩, hno⟩ := h.unlocking k jti path hk
      obtain ⟨hlt, -⟩ := List.getElem?_eq_some_iff.mp hk'
      refine ⟨⟨k', c, l, (hc.other (Nat.ne_of_lt hlt)).trans hk', he⟩, fun q hq hj => ?_⟩
      rcases hc.mem hq with rfl | hq
      · exact hunl
      · exact hno q hq hj
  · intro jti hm
    rcases hc.mem hm with he | hm
    · exact absurd he.symm (hdel jti)
    · obtain ⟨hs, hall⟩ := h.gone jti hm
      refine ⟨by rw [hd, hs], fun q hq hj => ?_⟩
      rcases hc.mem hq with rfl | hq
      · exact ⟨hdraft, fun hk => absurd hj.symm (hfresh hk _ hm)⟩
      · exact hall q hq hj

/-- A lock stays with its claim through the moves of others. -/
theorem Safe.held_moved (h : s.Safe fmt) (hi : s.ops[i]? = some ph)
    (hc : Changed s.ops i ph' s'.ops) (hm : ClaimPhase.Move fmt ph s.dir ph' s'.dir) {k : Nat}
    {q : ClaimPhase} {c : ClaimRecord} {l : Nat} (hk : s.ops[k]? = some q)
    (hq : q.claimOf = some c) (hl : q.lockFd = some l)
    (hno : ∀ q ∈ s'.ops, q.jti = c.jti → q.unlocked = false) :
    s'.dir.ino (lockPath fmt c.bundlePath) = some l := by
  have hself : ph' ∈ s'.ops := List.mem_of_getElem? hc.self
  have hno' : ∀ q ∈ s.ops, q.jti = c.jti → q.unlocked = false := by
    intro q hq hj
    obtain ⟨m, hm'⟩ := List.mem_iff_getElem?.mp hq
    by_cases hmi : m = i
    · subst hmi
      obtain rfl := Option.some.inj (hm'.symm.trans hi)
      by_contra hu
      have hu' := hm.unlocked (by simpa using hu)
      rw [hno ph' hself (hm.jti_eq.trans hj)] at hu'
      cases hu'
    · exact hno q (List.mem_of_getElem? ((hc.other hmi).trans hm')) hj
  refine hm.lock_kept (fun c' he => h.no_undo i c' (he ▸ hi)) ?_ (h.held k q c l hk hq hl hno')
  rintro jti p rfl he
  obtain ⟨⟨k', c', l', hk', hj', hp'⟩, hno''⟩ := h.unlocking i jti p hi
  have hl' : s.dir.ino (lockPath fmt c'.bundlePath) = some l' :=
    h.held k' _ c' l' hk' rfl rfl fun q hq hj => hno'' q hq (hj.trans hj')
  rw [hp', he, h.held k q c l hk hq hl hno'] at hl'
  obtain rfl := Option.some.inj hl'
  obtain rfl := h.distinct k k' q _ l hk hk' hl rfl
  obtain rfl := Option.some.inj (hk.symm.trans hk')
  obtain rfl := Option.some.inj hq
  have hu := hno ph' hself (hm.jti_eq.trans hj'.symm)
  rw [hm.of_unlock] at hu
  cases hu

/-- A delete that has read its sidecar is the only one that has got that far. -/
theorem Safe.unlocking_found (h : s.Safe fmt) (ho : s.Orderly) {jti : Id} {claim : ClaimRecord}
    (hi : s.ops[i]? = some (.deleteRead jti)) (hg : s.dir.get jti = some (some claim)) :
    (∃ (k : Nat) (c : ClaimRecord) (l : Nat), k ≠ i ∧ s.ops[k]? = some (.issued c l) ∧
      c.jti = jti ∧ c.bundlePath = claim.bundlePath) ∧
      ∀ q ∈ s.ops, q.jti = jti → q.unlocked = false := by
  have hs := ino_ne_none_of_get hg
  obtain ⟨-, k, q, c, hk, hq, hj, hp⟩ := ho.kin.get hg
  obtain ⟨k', q', hk', hlate, hj'⟩ := ho.sidecars jti hs
  obtain ⟨hkind, hjq⟩ := ClaimPhase.kind_of_claimOf hq
  obtain rfl := ho.unique k k' q q' hk hk' hkind (ClaimPhase.kind_of_late hlate)
    (hjq.trans (hj.trans hj'.symm))
  obtain rfl := Option.some.inj (hk.symm.trans hk')
  have hne : k ≠ i := by
    rintro rfl
    rw [Option.some.inj (hk.symm.trans hi)] at hkind
    cases hkind
  have hfin := h.apart i k _ q hi hk rfl rfl hj' hne
  obtain ⟨c₀, l, rfl⟩ := ClaimPhase.issued_of_late hlate hfin
  obtain rfl := Option.some.inj hq
  refine ⟨⟨k, c₀, l, hne, hk, hj, hp⟩, fun r hr hjr => ?_⟩
  by_contra hu
  obtain ⟨m, hm⟩ := List.mem_iff_getElem?.mp hr
  by_cases hmi : m = i
  · subst hmi
    rw [Option.some.inj (hm.symm.trans hi)] at hu
    exact hu rfl
  · have hdel :=
      ClaimPhase.deleted_of_unlocked (by simpa using hu) (h.apart i m _ r hi hm rfl rfl hjr hmi)
    rw [hdel, hjr] at hr
    exact hs (h.gone jti hr).1

/-- A call that moves keeps the calls safe. -/
theorem Safe.moved (h : s.Safe fmt) (ho : s.Orderly) (hi : s.ops[i]? = some ph)
    (hc : Changed s.ops i ph' s'.ops) (hm : ClaimPhase.Move fmt ph s.dir ph' s'.dir) :
    s'.Safe fmt := by
  have hunf := hm.unfinished
  refine ⟨?_, ?_, ?_, ?_, ?_, ?_, ?_⟩
  · intro k q l hk hl
    rcases hc.cases hk with ⟨-, rfl⟩ | ⟨-, hk⟩
    · rcases hm.lockFd hl with hl | ⟨claim, -, -, hlt, -⟩
      · exact (h.lock_lt i ph l hi hl).trans_le hm.next_le
      · exact hlt
    · exact (h.lock_lt k q l hk hl).trans_le hm.next_le
  · intro k k' q q' l hk hk' hl hl'
    rcases hc.cases hk with ⟨rfl, rfl⟩ | ⟨-, hk⟩ <;>
      rcases hc.cases hk' with ⟨rfl, rfl⟩ | ⟨-, hk'⟩
    · rfl
    · rcases hm.lockFd hl with hl | ⟨-, -, rfl, -⟩
      · exact h.distinct _ k' ph q' l hi hk' hl hl'
      · exact absurd (h.lock_lt k' q' _ hk' hl') (lt_irrefl _)
    · rcases hm.lockFd hl' with hl' | ⟨-, -, rfl, -⟩
      · exact h.distinct k _ q ph l hk hi hl hl'
      · exact absurd (h.lock_lt k q _ hk hl) (lt_irrefl _)
    · exact h.distinct k k' q q' l hk hk' hl hl'
  · intro k q c l hk hq hl hno
    rcases hc.cases hk with ⟨-, rfl⟩ | ⟨-, hk⟩
    · rcases hm.lockFd hl with hl | ⟨claim, rfl, -, -, hlock⟩
      · exact h.held_moved hi hc hm hi (hm.claimOf_eq.symm.trans hq) hl hno
      · obtain rfl := Option.some.inj (hm.claimOf_eq.symm.trans hq)
        exact hlock
    · exact h.held_moved hi hc hm hk hq hl hno
  · intro k c hk
    rcases hc.cases hk with ⟨-, he⟩ | ⟨-, hk⟩
    · rw [← he] at hm
      obtain ⟨⟨l, rfl⟩, hs⟩ := hm.to_undo
      obtain ⟨k', q, hk', hlate, hj⟩ := ho.sidecars _ hs
      obtain rfl := ho.unique k' i q _ hk' hi (ClaimPhase.kind_of_late hlate) rfl hj
      rw [Option.some.inj (hk'.symm.trans hi)] at hlate
      cases hlate
    · exact h.no_undo k c hk
  · intro k k' q q' hk hk' hq hf hj hne
    have hother : ∀ q₀, s.ops[k]? = some q₀ → q₀.kind = .delete → q₀.finished = false →
        q'.jti = q₀.jti → q'.finished = true := by
      intro q₀ hk₀ hkind hf₀ hj₀
      rcases hc.cases hk' with ⟨rfl, rfl⟩ | ⟨-, hk'⟩
      · rw [h.apart k k' q₀ ph hk₀ hi hkind hf₀ (hm.jti_eq.symm.trans hj₀) hne] at hunf
        cases hunf
      · exact h.apart k k' q₀ q' hk₀ hk' hkind hf₀ hj₀ hne
    rcases hc.cases hk with ⟨rfl, rfl⟩ | ⟨-, hk⟩
    · exact hother ph hi (hm.kind_eq.symm.trans hq) hunf (hj.trans hm.jti_eq)
    · exact hother q hk hq hf hj
  · intro k jti path hk
    rcases hc.cases hk with ⟨-, he⟩ | ⟨hki, hk⟩
    · have hmu := he ▸ hm
      obtain ⟨rfl, claim, hg, rfl⟩ := hmu.to_unlock
      obtain ⟨⟨k', c, l, hne, hk', hcl⟩, hno⟩ := h.unlocking_found ho hi hg
      refine ⟨⟨k', c, l, (hc.other hne).trans hk', hcl⟩, fun q hq hj => ?_⟩
      rcases hc.mem hq with rfl | hq
      · rw [← he]
        rfl
      · exact hno q hq hj
    · obtain ⟨⟨k', c, l, hk', hcl⟩, hno⟩ := h.unlocking k jti path hk
      have hne : k' ≠ i := by
        rintro rfl
        rw [Option.some.inj (hi.symm.trans hk')] at hunf
        cases hunf
      refine ⟨⟨k', c, l, (hc.other hne).trans hk', hcl⟩, fun q hq hj => ?_⟩
      rcases hc.mem hq with rfl | hq
      · rw [h.apart k i _ ph hk hi rfl rfl (hm.jti_eq.symm.trans hj) (Ne.symm hki)] at hunf
        cases hunf
      · exact hno q hq hj
  · intro jti hmem
    obtain ⟨k, hk⟩ := List.mem_iff_getElem?.mp hmem
    rcases hc.cases hk with ⟨-, he⟩ | ⟨-, hk⟩
    · have hmd := he ▸ hm
      obtain ⟨rfl, hs⟩ := hmd.to_deleted
      refine ⟨hs, fun q hq hj => ?_⟩
      obtain ⟨k', hk'⟩ := List.mem_iff_getElem?.mp hq
      have hfin : q.finished = true := by
        rcases hc.cases hk' with ⟨-, rfl⟩ | ⟨hne, hk'⟩
        · rw [← he]
          rfl
        · exact h.apart i k' _ q hi hk' rfl rfl hj hne
      exact ⟨ClaimPhase.draft_of_finished hfin, fun _ => hfin⟩
    · obtain ⟨hs, hall⟩ := h.gone jti (List.mem_of_getElem? hk)
      have hph : ph.jti = jti → ph.draft = none ∧ ph.kind ≠ .issue := by
        intro hj
        obtain ⟨hd, hfin⟩ := hall ph (List.mem_of_getElem? hi) hj
        refine ⟨hd, fun hkind => ?_⟩
        rw [hfin hkind] at hunf
        cases hunf
      refine ⟨?_, fun q hq hj => ?_⟩
      · by_contra hn
        rcases hm.sidecar hn with hn | ⟨hl, hj⟩ | ⟨c, hd, rfl⟩
        · exact hn hs
        · refine (hph (hm.jti_eq.symm.trans hj)).2 ?_
          rw [← hm.kind_eq, ClaimPhase.kind_of_late hl]
        · have hj := (ho.drafts i ph c hi hd).1
          rw [(hph hj.symm).1] at hd
          cases hd
      · rcases hc.mem hq with rfl | hq
        · obtain ⟨hd, hkind⟩ := hph (hm.jti_eq.symm.trans hj)
          refine ⟨?_, fun hk => absurd (hm.kind_eq.symm.trans hk) hkind⟩
          rw [Option.eq_none_iff_forall_ne_some]
          intro c hdr
          rcases hm.draft_of hdr with hdr | hn
          · rw [hd] at hdr
            cases hdr
          · exact hn (by rw [hm.jti_eq.symm.trans hj, hs])
        · exact hall q hq hj

end Safe

/-! ## Runs -/

private theorem init_orderly : init.Orderly := by
  refine ⟨⟨?_, ?_⟩, ?_, ?_, ?_, ?_⟩
  · intro k i hi
    simp [init, ClaimDir.empty] at hi
  · intro i jti c hi
    exact absurd hi (Nat.not_lt_zero i)
  all_goals simp [init, ClaimDir.empty]

private theorem init_safe : init.Safe fmt := by
  refine ⟨?_, ?_, ?_, ?_, ?_, ?_, ?_⟩ <;> simp [init]

/-- One action keeps everything in order. -/
theorem step_safe {s : ClaimRace} {a : Act} (h : s.Orderly ∧ s.Safe fmt)
    (hg : s.Fresh a ∧ s.Apart a) : (s.step fmt a).Orderly ∧ (s.step fmt a).Safe fmt := by
  obtain ⟨ho, hs⟩ := h
  rcases @step_cases fmt s a with he | ⟨ph, hbegins, hc, hd⟩ | ⟨i, ph, ph', hi, hc, hm⟩
  · rw [he]
    exact ⟨ho, hs⟩
  · have hfresh : ph.kind = .issue → ∀ q ∈ s.ops, q.jti ≠ ph.jti := by
      intro hk
      cases a <;> cases hbegins <;> first | exact hg.1 | cases hk
    have hapart : ∀ q ∈ s.ops, q.jti = ph.jti → ph.kind = .delete ∨ q.kind = .delete →
        q.finished = true := by
      intro q hq hj hk
      cases a with
      | issue claim =>
        cases hbegins
        exact absurd hj (hg.1 q hq)
      | markFetched jti name =>
        cases hbegins
        rcases hk with hk | hk
        · cases hk
        · exact hg.2 q hq hj hk
      | delete jti =>
        cases hbegins
        exact hg.2 q hq hj
      | advance i => cases hbegins
    cases a <;> cases hbegins <;>
      exact ⟨ho.begun rfl rfl hfresh hc hd,
        hs.begun rfl (by simp) (by simp) (by simp) rfl rfl hfresh hapart hc hd⟩
  · exact ⟨ho.moved hi hc hm, hs.moved ho hi hc hm⟩

/-- A standing claim holds the lock of its path. -/
theorem Safe.lock_of_stands {s : ClaimRace} (h : s.Safe fmt) {i : Nat} {claim : ClaimRecord}
    (hst : s.Stands i claim) : ∃ l, s.ops[i]? = some (.issued claim l) ∧
      s.dir.ino (lockPath fmt claim.bundlePath) = some l := by
  obtain ⟨⟨l, hi⟩, hno⟩ := hst
  refine ⟨l, hi, h.held i _ claim l hi rfl rfl fun q hq hj => ?_⟩
  have hk := hno q hq hj
  cases q <;> first | rfl | exact absurd rfl hk

/-- While no delete overlaps another operation on its claim, at most one claim stands for a
path in every state reached, and no deleted claim comes back. -/
theorem claims_exclusive (fmt : ClaimFormat) (acts : List Act)
    (h : Runs.Guarded (step fmt) (fun s a => s.Fresh a ∧ s.Apart a) init acts) :
    (Runs.run (step fmt) init acts).Exclusive ∧ (Runs.run (step fmt) init acts).Buried := by
  obtain ⟨-, hs⟩ := h.invariant (I := fun s => s.Orderly ∧ s.Safe fmt)
    (fun s a hs hg => step_safe hs hg) ⟨init_orderly, init_safe⟩
  generalize Runs.run (step fmt) init acts = s at hs
  refine ⟨fun i j claim claim' hst hst' hpath => ?_, fun jti hd => (hs.gone jti hd).1⟩
  obtain ⟨l, hi, hl⟩ := hs.lock_of_stands hst
  obtain ⟨l', hj, hl'⟩ := hs.lock_of_stands hst'
  rw [hpath, hl'] at hl
  obtain rfl := Option.some.inj hl
  exact hs.distinct i j _ _ l' hi hj rfl rfl

/-! ## Deletes that overlap -/

/-- Let one operation make four calls. -/
def fourCalls (op : Nat) : List Act := List.replicate 4 (.advance op)

/-- A claim, marked and deleted, and the next one on its path. -/
def orderlyActs : List Act :=
  .issue (sampleClaim 1) :: fourCalls 0 ++ .markFetched 1 "a.txt" :: fourCalls 1 ++
    .delete 1 :: fourCalls 2 ++ .issue (sampleClaim 2) :: fourCalls 3

/-- An orderly run, with its claims exclusive and its deletes buried. -/
theorem claims_exclusive_sample :
    Runs.Guarded (step .sample) (fun s a => s.Fresh a ∧ s.Apart a) init orderlyActs ∧
      (Runs.run (step .sample) init orderlyActs).Exclusive ∧
      (Runs.run (step .sample) init orderlyActs).Buried := by
  have hg : Runs.Guarded (step .sample) (fun s a => s.Fresh a ∧ s.Apart a) init orderlyActs := by
    decide +kernel
  exact ⟨hg, claims_exclusive _ _ hg⟩

/-- A download and the reaper delete the same claim: the slower of them removes the lock of
the claim that came next. -/
def doubleDelete : List Act :=
  .issue (sampleClaim 1) :: fourCalls 0 ++ .delete 1 :: .advance 1 :: .delete 1 :: fourCalls 2 ++
    .issue (sampleClaim 2) :: fourCalls 3 ++ .advance 1 :: .issue (sampleClaim 3) :: fourCalls 4

/-- A delete between the read of `mark_fetched` and its `os.replace`. -/
def lateMark : List Act :=
  .issue (sampleClaim 1) :: fourCalls 0 ++ .markFetched 1 "a.txt" :: .advance 1 ::
    .delete 1 :: fourCalls 2 ++ fourCalls 1

/-- Two deletes of one claim, and a mark beside a delete. -/
theorem claims_overlap :
    (Runs.Guarded (step .sample) Fresh init doubleDelete ∧
      ¬(Runs.run (step .sample) init doubleDelete).Exclusive) ∧
    Runs.Guarded (step .sample) Fresh init lateMark ∧
      ¬(Runs.run (step .sample) init lateMark).Buried := by
  refine ⟨⟨by decide +kernel, fun h => ?_⟩, by decide +kernel, fun h => ?_⟩
  · have hij : 3 = 4 := h 3 4 (sampleClaim 2) (sampleClaim 3)
      ⟨⟨2, by decide +kernel⟩, by decide +kernel⟩ ⟨⟨4, by decide +kernel⟩, by decide +kernel⟩ rfl
    cases hij
  · have hgone := h 1 (by decide +kernel)
    revert hgone
    decide +kernel

end ClaimRace

end Cassetta
