import Mathlib
import Cassetta.Core.Runs

/-!
# The file key store

`FileKeyStore` keeps its records in memory and writes all of them to one JSON file after every
change. Records are never removed, only flagged. A store that starts again reads the file. A
write truncates the file first; it may fail before that, in the middle, or when it is closed.
-/

namespace Cassetta.FileKeyStore

/-- `KEY_PREFIX`. -/
def keyPrefix : String := "cst_"

/-- `KEY_PREFIX_LEN`. -/
def keyPrefixLen : Nat := 8

/-- `KeyRecord`. -/
structure KeyRecord where
  label : String
  keyHash : String
  shown : String
  createdAt : Nat
  isActive : Bool
  deriving DecidableEq, Repr

/-- `KeyInfo` of the key store. -/
structure Info where
  label : String
  shown : String
  createdAt : Nat
  isActive : Bool
  deriving DecidableEq, Repr

/-- What is kept in memory, and what is dumped to the file. -/
structure Contents where
  setupDone : Bool := false
  keys : List KeyRecord := []
  deriving DecidableEq, Repr

/-- The text of the key file: a whole dump, or the beginning of one. -/
inductive KeyFileText where
  | dumped (data : Contents)
  | cut (data : Contents)
  deriving DecidableEq, Repr

/-- The store and its file. -/
structure Store where
  memory : Contents := {}
  file : Option KeyFileText := none
  deriving DecidableEq, Repr

inductive KeyStoreError where
  | value (text : String)
  | key (text : String)
  | osError
  deriving DecidableEq, Repr

/-- How a write of the file goes: `makedirs` or `open` may fail, the dump may be cut short, and
the close may fail after everything was written. -/
inductive Write where
  | succeeds
  | noDirectory
  | notOpened
  | cutShort
  | closeFailed
  deriving DecidableEq, Repr

/-- What an operation finds outside: the token `secrets` draws, the clock, and its write. -/
structure Draw where
  token : String
  now : Nat
  write : Write := .succeeds
  deriving DecidableEq, Repr

/-! ## Load and save -/

/-- `_load` of a new store; the beginning of a dump is no JSON. -/
def load : Option KeyFileText → Option Contents
  | none => some {}
  | some (.dumped data) => some data
  | some (.cut _) => none

/-- `_save`. -/
def save (write : Write) (st : Store) : Except KeyStoreError Unit × Store :=
  match write with
  | .succeeds => (.ok (), { st with file := some (.dumped st.memory) })
  | .noDirectory | .notOpened => (.error .osError, st)
  | .cutShort => (.error .osError, { st with file := some (.cut st.memory) })
  | .closeFailed => (.error .osError, { st with file := some (.dumped st.memory) })

/-! ## Operations -/

section Operations

variable (hash : String → String)

/-- `_generate_key`. -/
def generateKey (token : String) : String := keyPrefix ++ token

/-- The part of a key that is shown. -/
def shownPart (raw : String) : String :=
  String.ofList (raw.toList.take (keyPrefix.length + keyPrefixLen))

/-- `k.label == label and k.is_active`. -/
def KeyRecord.holds (k : KeyRecord) (label : String) : Bool := k.label = label && k.isActive

def KeyRecord.info (k : KeyRecord) : Info := ⟨k.label, k.shown, k.createdAt, k.isActive⟩

/-- The label has an active key. -/
def Contents.holds (c : Contents) (label : String) : Bool := c.keys.any (·.holds label)

/-- The record of a new key. -/
def newRecord (label : String) (draw : Draw) : KeyRecord where
  label := label
  keyHash := hash (generateKey draw.token)
  shown := shownPart (generateKey draw.token)
  createdAt := draw.now
  isActive := true

/-- `create_key`. -/
def createKey (label : String) (draw : Draw) (st : Store) :
    Except KeyStoreError (String × Info) × Store :=
  if st.memory.holds label then
    (.error (.value ("Key with label '" ++ label ++ "' already exists")), st)
  else
    let record := newRecord hash label draw
    let memory := { st.memory with keys := st.memory.keys ++ [record] }
    match save draw.write { st with memory } with
    | (.error e, st') => (.error e, st')
    | (.ok (), st') => (.ok (generateKey draw.token, record.info), st')

/-- `setup`. -/
def setup (label : String) (draw : Draw) (st : Store) :
    Except KeyStoreError (String × Info) × Store :=
  if st.memory.setupDone then (.error (.value "Setup already completed"), st)
  else createKey hash label draw { st with memory := { st.memory with setupDone := true } }

/-- Flag the first active record of a label. -/
def deactivate (label : String) : List KeyRecord → List KeyRecord
  | [] => []
  | k :: rest =>
    if k.holds label then { k with isActive := false } :: rest else k :: deactivate label rest

/-- The error of an operation on a label that has no active key. -/
def notFound (label : String) : KeyStoreError :=
  .key ("Active key with label '" ++ label ++ "' not found")

/-- `revoke_key`. -/
def revokeKey (label : String) (draw : Draw) (st : Store) : Except KeyStoreError Unit × Store :=
  if st.memory.holds label then
    save draw.write
      { st with memory := { st.memory with keys := deactivate label st.memory.keys } }
  else (.error (notFound label), st)

/-- `rotate_key`. -/
def rotateKey (label : String) (draw : Draw) (st : Store) :
    Except KeyStoreError (String × Info) × Store :=
  if st.memory.holds label then
    createKey hash label draw
      { st with memory := { st.memory with keys := deactivate label st.memory.keys } }
  else (.error (notFound label), st)

/-- `validate`. -/
def validate (raw : String) (st : Store) : Option Info :=
  (st.memory.keys.find? fun k => k.keyHash = hash raw && k.isActive).map (·.info)

end Operations

/-! ## Calls and restarts -/

inductive KeyOp where
  | setup (label : String)
  | createKey (label : String)
  | rotateKey (label : String)
  | revokeKey (label : String)
  deriving DecidableEq, Repr

/-- The label an operation is about. -/
def KeyOp.label : KeyOp → String
  | .setup label | .createKey label | .rotateKey label | .revokeKey label => label

/-- The raw key of an answer. -/
def rawOf (x : Except KeyStoreError (String × Info) × Store) :
    Except KeyStoreError (Option String) × Store := (x.1.map fun key => some key.1, x.2)

/-- Run an operation; with success goes the key it returns, if any. -/
def KeyOp.call (hash : String → String) (op : KeyOp) (draw : Draw) (st : Store) :
    Except KeyStoreError (Option String) × Store :=
  match op with
  | .setup label => rawOf (FileKeyStore.setup hash label draw st)
  | .createKey label => rawOf (FileKeyStore.createKey hash label draw st)
  | .rotateKey label => rawOf (FileKeyStore.rotateKey hash label draw st)
  | .revokeKey label =>
    let (r, st') := FileKeyStore.revokeKey label draw st
    (r.map fun _ => none, st')

/-- One thing that happens to a key store. -/
inductive KeyEvent where
  | call (op : KeyOp) (draw : Draw)
  | restart
  deriving DecidableEq, Repr

/-- A call and what came of it. -/
structure Entry where
  op : KeyOp
  result : Except KeyStoreError (Option String)

/-- A key store that may be down, and the calls made so far. -/
structure Running where
  store : Option Store := some {}
  log : List Entry := []

/-- A store that cannot read its file does not come up. -/
def Running.step (hash : String → String) (p : Running) : KeyEvent → Running
  | .call op draw =>
    match p.store with
    | none => p
    | some st =>
      let (result, st') := op.call hash draw st
      { store := some st', log := p.log ++ [⟨op, result⟩] }
  | .restart =>
    match p.store with
    | none => p
    | some st => { p with store := (load st.file).map fun memory => { st with memory } }

/-- A store that starts without a file, after some calls and restarts. -/
def Running.run (hash : String → String) (events : List KeyEvent) : Running :=
  Runs.run (Running.step hash) {} events

/-! ## What a call does -/

/-- Each label has at most one active key. -/
def Contents.OneActive (c : Contents) : Prop :=
  ∀ label, (c.keys.filter (·.holds label)).length ≤ 1

/-- A record of the label without its flag, and any other record. -/
def retire (label : String) (k : KeyRecord) : KeyRecord :=
  if k.holds label then { k with isActive := false } else k

/-- Retiring keeps the label. -/
@[simp] theorem retire_label (label : String) (k : KeyRecord) :
    (retire label k).label = k.label := by
  unfold retire
  split <;> rfl

/-- Retiring keeps the hash. -/
@[simp] theorem retire_keyHash (label : String) (k : KeyRecord) :
    (retire label k).keyHash = k.keyHash := by
  unfold retire
  split <;> rfl

/-- Retiring deactivates the keys of the label. -/
theorem retire_isActive {label : String} {k : KeyRecord} :
    (retire label k).isActive = true ↔ k.isActive = true ∧ k.label ≠ label := by
  by_cases ha : k.isActive = true <;> by_cases hl : k.label = label <;>
    simp [retire, KeyRecord.holds, ha, hl]

/-- A label is held by an active key. -/
theorem holds_iff {c : Contents} {label : String} :
    c.holds label = true ↔ ∃ k ∈ c.keys, k.label = label ∧ k.isActive = true := by
  simp [Contents.holds, KeyRecord.holds]

/-- A label is not held if its keys are inactive. -/
theorem holds_eq_false_iff {c : Contents} {label : String} :
    c.holds label = false ↔ ∀ k ∈ c.keys, k.label = label → k.isActive = false := by
  simp [Contents.holds, KeyRecord.holds]

/-- Where a label has one active key, flagging the first is flagging all. -/
theorem deactivate_eq {label : String} {keys : List KeyRecord}
    (h : (keys.filter (fun k => k.holds label)).length ≤ 1) :
    deactivate label keys = keys.map (retire label) := by
  induction keys with
  | nil => rfl
  | cons k rest ih =>
    by_cases hk : k.holds label = true
    · have hrest : ∀ k' ∈ rest, ¬k'.holds label = true := by
        rw [List.filter_cons, if_pos hk, List.length_cons] at h
        exact List.filter_eq_nil_iff.mp (List.length_eq_zero_iff.mp (by omega))
      have hmap : rest.map (retire label) = rest := by
        refine (List.map_congr_left fun k' hk' => ?_).trans (List.map_id rest)
        rw [retire, if_neg (hrest k' hk'), id]
      rw [deactivate, if_pos hk, List.map_cons, hmap, retire, if_pos hk]
    · rw [List.filter_cons, if_neg hk] at h
      rw [deactivate, if_neg hk, List.map_cons, ih h, retire, if_neg hk]

/-- The operation gets as far as `_save`. -/
def Contents.Reaches (c : Contents) : KeyOp → Bool
  | .setup label => !c.setupDone && !c.holds label
  | .createKey label => !c.holds label
  | .rotateKey label | .revokeKey label => c.holds label

/-- The memory as the operation hands it to `_save`. -/
def Contents.changed (hash : String → String) (c : Contents) (op : KeyOp) (draw : Draw) :
    Contents :=
  match op with
  | .setup label => ⟨true, c.keys ++ [newRecord hash label draw]⟩
  | .createKey label => { c with keys := c.keys ++ [newRecord hash label draw] }
  | .rotateKey label => { c with keys := c.keys.map (retire label) ++ [newRecord hash label draw] }
  | .revokeKey label => { c with keys := c.keys.map (retire label) }

/-- What the operation returns. -/
def KeyOp.returned (op : KeyOp) (draw : Draw) : Option String :=
  match op with
  | .revokeKey _ => none
  | _ => some (generateKey draw.token)

/-- The first setup for a label that has an active key already. -/
def Contents.Clashes (c : Contents) : KeyOp → Bool
  | .setup label => !c.setupDone && c.holds label
  | _ => false

/-- A retired label is not held. -/
theorem holds_map_retire (c : Contents) (label : String) (done : Bool) :
    (⟨done, c.keys.map (retire label)⟩ : Contents).holds label = false := by
  rw [holds_eq_false_iff]
  intro k hk hkl
  obtain ⟨k', -, rfl⟩ := List.mem_map.mp hk
  rw [← Bool.not_eq_true, retire_isActive]
  rintro ⟨-, hne⟩
  exact hne ((retire_label label k').symm.trans hkl)

/-- `create_key` for a label without an active key. -/
theorem rawOf_createKey {hash : String → String} {label : String} {draw : Draw} {st : Store}
    (h : st.memory.holds label = false) :
    rawOf (createKey hash label draw st) =
      let (r, st') := save draw.write
        { st with memory :=
        { st.memory with keys := st.memory.keys ++ [newRecord hash label draw] } }
      (r.map fun _ => some (generateKey draw.token), st') := by
  unfold createKey
  rw [if_neg (by simp [h])]
  obtain ⟨token, now, write⟩ := draw
  cases write <;> rfl

/-- `create_key` for a label with one. -/
theorem rawOf_createKey_taken (hash : String → String) (draw : Draw) (st : Store) {label : String}
    (h : st.memory.holds label = true) :
    ∃ e, rawOf (createKey hash label draw st) = (.error e, st) := by
  unfold createKey
  rw [if_pos h]
  exact ⟨_, rfl⟩

/-- A call that gets as far as `_save` changes the memory first and answers by the write; any
other is refused, and leaves the store alone unless it is a setup that clashes. -/
theorem call_spec (hash : String → String) {st : Store} (hone : st.memory.OneActive) (op : KeyOp)
    (draw : Draw) :
    (st.memory.Reaches op = true ∧ op.call hash draw st =
        let (r, st') := save draw.write { st with memory := st.memory.changed hash op draw }
        (r.map fun _ => op.returned draw, st')) ∨
      st.memory.Reaches op = false ∧ ∃ e, op.call hash draw st = (.error e,
        if st.memory.Clashes op then { st with memory := { st.memory with setupDone := true } }
        else st) := by
  cases op with
  | setup label =>
    cases hd : st.memory.setupDone with
    | true =>
      refine .inr ⟨by simp [Contents.Reaches, hd], .value "Setup already completed", ?_⟩
      simp [KeyOp.call, setup, hd, Contents.Clashes, rawOf, Except.map]
    | false =>
      have hset : KeyOp.call hash (.setup label) draw st = rawOf (createKey hash label draw
          { st with memory := { st.memory with setupDone := true } }) := by
        simp [KeyOp.call, setup, hd]
      cases hl : st.memory.holds label with
      | true =>
        obtain ⟨e, he⟩ := rawOf_createKey_taken hash draw
          { st with memory := { st.memory with setupDone := true } } hl
        exact .inr ⟨by simp [Contents.Reaches, hl], e, by simp [hset, he, Contents.Clashes, hd, hl]⟩
      | false =>
        exact .inl ⟨by simp [Contents.Reaches, hd, hl], hset.trans (rawOf_createKey hl)⟩
  | createKey label =>
    cases hl : st.memory.holds label with
    | true =>
      obtain ⟨e, he⟩ := rawOf_createKey_taken hash draw st hl
      exact .inr ⟨by simp [Contents.Reaches, hl], e, by simp [KeyOp.call, he, Contents.Clashes]⟩
    | false => exact .inl ⟨by simp [Contents.Reaches, hl], rawOf_createKey hl⟩
  | rotateKey label =>
    cases hl : st.memory.holds label with
    | false =>
      refine .inr ⟨by simp [Contents.Reaches, hl], notFound label, ?_⟩
      simp [KeyOp.call, rotateKey, hl, Contents.Clashes, rawOf, Except.map]
    | true =>
      have hfree := holds_map_retire st.memory label st.memory.setupDone
      have hrot : KeyOp.call hash (.rotateKey label) draw st = rawOf (createKey hash label draw
          { st with memory := { st.memory with keys := st.memory.keys.map (retire label) } }) := by
        simp [KeyOp.call, rotateKey, hl, deactivate_eq (hone label)]
      exact .inl ⟨by simp [Contents.Reaches, hl], hrot.trans (rawOf_createKey hfree)⟩
  | revokeKey label =>
    cases hl : st.memory.holds label with
    | false =>
      refine .inr ⟨by simp [Contents.Reaches, hl], notFound label, ?_⟩
      simp [KeyOp.call, revokeKey, hl, Contents.Clashes, Except.map]
    | true =>
      refine .inl ⟨by simp [Contents.Reaches, hl], ?_⟩
      simp only [KeyOp.call, revokeKey, hl, if_true, deactivate_eq (hone label)]
      rfl

/-! ## One active key for each label -/

private theorem filter_map_retire (label label' : String) (keys : List KeyRecord) :
    (keys.map (retire label)).filter (fun k => k.holds label') =
      if label' = label then [] else keys.filter (fun k => k.holds label') := by
  by_cases hl : label' = label
  · subst hl
    rw [if_pos rfl, List.filter_eq_nil_iff]
    intro k hk hh
    obtain ⟨k', -, rfl⟩ := List.mem_map.mp hk
    simp only [KeyRecord.holds, Bool.and_eq_true, decide_eq_true_eq, retire_label] at hh
    exact (retire_isActive.mp hh.2).2 hh.1
  · rw [if_neg hl]
    induction keys with
    | nil => rfl
    | cons k rest ih =>
      have hsame : retire label k = k ∨
          k.holds label' = false ∧ (retire label k).holds label' = false := by
        by_cases hk : k.holds label = true
        · right
          have hkl : k.label = label := by
            simp only [KeyRecord.holds, Bool.and_eq_true, decide_eq_true_eq] at hk
            exact hk.1
          simp [KeyRecord.holds, hkl, Ne.symm hl]
        · exact .inl (if_neg hk)
      rcases hsame with he | ⟨h₁, h₂⟩
      · rw [List.map_cons, List.filter_cons, List.filter_cons, he, ih]
      · rw [List.map_cons, List.filter_cons, List.filter_cons, h₁, h₂]
        exact ih

/-- A key for a label that is not held may be added. -/
theorem Contents.OneActive.append {c : Contents} (h : c.OneActive) {k : KeyRecord}
    (hfree : c.holds k.label = false) (done : Bool) :
    (⟨done, c.keys ++ [k]⟩ : Contents).OneActive := by
  intro label
  have hle := h label
  rw [List.filter_append, List.length_append]
  by_cases hk : k.holds label = true
  · have hkl : k.label = label := by
      simp only [KeyRecord.holds, Bool.and_eq_true, decide_eq_true_eq] at hk
      exact hk.1
    have hnone : c.keys.filter (fun k => k.holds label) = [] := by
      rw [List.filter_eq_nil_iff]
      intro k' hk' hh
      simp only [KeyRecord.holds, Bool.and_eq_true, decide_eq_true_eq] at hh
      have := (holds_eq_false_iff.mp hfree) k' hk' (hh.1.trans hkl.symm)
      rw [this] at hh
      exact Bool.false_ne_true hh.2
    simp [hnone, hk]
  · simpa [hk] using hle

/-- Retiring leaves at most one active key for each label. -/
theorem Contents.OneActive.retire {c : Contents} (h : c.OneActive) (label : String) (done : Bool) :
    (⟨done, c.keys.map (retire label)⟩ : Contents).OneActive := by
  intro label'
  show ((c.keys.map (FileKeyStore.retire label)).filter (fun k => k.holds label')).length ≤ 1
  rw [filter_map_retire]
  split
  · simp
  · exact h label'

/-- An operation leaves at most one active key for each label. -/
theorem Contents.OneActive.changed {c : Contents} (h : c.OneActive) {op : KeyOp}
    (hr : c.Reaches op = true)
    (hash : String → String) (draw : Draw) : (c.changed hash op draw).OneActive := by
  cases op with
  | setup label =>
    simp only [Contents.Reaches, Bool.and_eq_true, Bool.not_eq_true'] at hr
    exact h.append hr.2 true
  | createKey label =>
    simp only [Contents.Reaches, Bool.not_eq_true'] at hr
    exact h.append hr c.setupDone
  | rotateKey label =>
    exact (h.retire label c.setupDone).append (holds_map_retire c label c.setupDone) c.setupDone
  | revokeKey label => exact h.retire label c.setupDone

/-- Memory and file have at most one active key for each label. -/
structure Store.Sound (st : Store) : Prop where
  memory : st.memory.OneActive
  file : ∀ c, load st.file = some c → c.OneActive

/-- The empty store is sound. -/
theorem sound_empty : Store.Sound {} := by
  refine ⟨fun label => by simp, fun c hc => ?_⟩
  obtain rfl := Option.some.inj hc
  exact fun label => by simp

/-- Saving keeps a store sound, however the write goes. -/
theorem Store.Sound.save {st : Store} (h : st.Sound) {c : Contents} (hc : c.OneActive)
    (write : Write) : (FileKeyStore.save write { st with memory := c }).2.Sound := by
  have hdump : ∀ c', load (some (.dumped c)) = some c' → c'.OneActive := by
    intro c' he
    obtain rfl := Option.some.inj he
    exact hc
  cases write with
  | succeeds => exact ⟨hc, hdump⟩
  | noDirectory => exact ⟨hc, h.file⟩
  | notOpened => exact ⟨hc, h.file⟩
  | cutShort => exact ⟨hc, fun c' he => by cases he⟩
  | closeFailed => exact ⟨hc, hdump⟩

/-- Every operation keeps a store sound. -/
theorem Store.Sound.call {st : Store} (h : st.Sound) (hash : String → String) (op : KeyOp)
    (draw : Draw) : (op.call hash draw st).2.Sound := by
  rcases call_spec hash h.memory op draw with ⟨hr, heq⟩ | ⟨-, e, heq⟩
  · rw [heq]
    exact h.save (h.memory.changed hr hash draw) draw.write
  · rw [heq]
    split
    · exact ⟨h.memory, h.file⟩
    · exact h

/-- However the writes go, a store that is up has at most one active key for each label. -/
theorem run_sound (hash : String → String) (events : List KeyEvent) :
    ∀ st ∈ (Running.run hash events).store, st.Sound := by
  have hstep : ∀ (p : Running) (e : KeyEvent), (∀ st ∈ p.store, st.Sound) →
      ∀ st ∈ (p.step hash e).store, st.Sound := by
    intro p e hp st' hst'
    cases e with
    | call op draw =>
      cases hs : p.store with
      | none => simp [Running.step, hs] at hst'
      | some st =>
        simp only [Running.step, hs, Option.mem_def, Option.some.injEq] at hst'
        exact hst' ▸ (hp st hs).call hash op draw
    | restart =>
      cases hs : p.store with
      | none => simp [Running.step, hs] at hst'
      | some st =>
        simp only [Running.step, hs, Option.mem_def, Option.map_eq_some_iff] at hst'
        obtain ⟨memory, hload, rfl⟩ := hst'
        exact ⟨(hp st hs).file memory hload, (hp st hs).file⟩
  have hrun : ∀ (events : List KeyEvent) (p : Running), (∀ st ∈ p.store, st.Sound) →
      ∀ st ∈ (Runs.run (Running.step hash) p events).store, st.Sound := by
    intro events
    induction events with
    | nil => exact fun p hp => hp
    | cons e rest ih => exact fun p hp => ih _ (hstep p e hp)
  refine hrun events {} fun st hst => ?_
  obtain rfl := Option.some.inj hst
  exact sound_empty

end Cassetta.FileKeyStore
