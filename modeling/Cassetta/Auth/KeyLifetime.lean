import Cassetta.Auth.KeyStore

/-!
# How long a key is valid

The log of a key store says which keys it has returned and which operations have succeeded
since. A key is valid exactly while the operation that returned it is the last one that
succeeded for its label. The records of every run agree with the log, across restarts.
-/

namespace Cassetta.FileKeyStore

open Runs

/-! ## The log -/

/-- The operation succeeded, and was about the label. -/
def Entry.Succeeds (e : Entry) (label : String) : Prop :=
  e.op.label = label ∧ ∃ r, e.result = .ok r

/-- The operation returned the key. -/
def Entry.Returns (e : Entry) (raw : String) : Prop := e.result = .ok (some raw)

/-- The key was returned by the last operation that succeeded for the label. -/
def Latest (log : List Entry) (label raw : String) : Prop :=
  ∃ before e after, log = before ++ e :: after ∧ e.op.label = label ∧ e.Returns raw ∧
    ∀ e' ∈ after, ¬e'.Succeeds label

/-- The key was returned, and its label revoked or rotated later. -/
def Withdrawn (log : List Entry) (raw : String) : Prop :=
  ∃ before e between e' after, log = before ++ e :: (between ++ e' :: after) ∧ e.Returns raw ∧
    e'.Succeeds e.op.label ∧ (e'.op = .revokeKey e.op.label ∨ e'.op = .rotateKey e.op.label)

private theorem latest_append {log : List Entry} {e : Entry} {label raw : String} :
    Latest (log ++ [e]) label raw ↔
      e.op.label = label ∧ e.Returns raw ∨ ¬e.Succeeds label ∧ Latest log label raw := by
  constructor
  · rintro ⟨before, e₀, after, heq, hl, hr, hafter⟩
    rcases List.eq_nil_or_concat after with rfl | ⟨after, e', rfl⟩
    · obtain ⟨-, he⟩ := List.append_inj' heq rfl
      obtain rfl : e = e₀ := List.singleton_inj.mp he
      exact .inl ⟨hl, hr⟩
    · rw [List.concat_eq_append, ← List.cons_append, ← List.append_assoc] at heq
      obtain ⟨rfl, he⟩ := List.append_inj' heq rfl
      obtain rfl : e = e' := List.singleton_inj.mp he
      refine .inr ⟨hafter e (by simp), before, e₀, after, rfl, hl, hr, fun x hx => ?_⟩
      exact hafter x (by simp [hx])
  · rintro (⟨hl, hr⟩ | ⟨hno, before, e₀, after, rfl, hl, hr, hafter⟩)
    · exact ⟨log, e, [], rfl, hl, hr, by simp⟩
    · refine ⟨before, e₀, after ++ [e], by simp, hl, hr, fun x hx => ?_⟩
      rcases List.mem_append.mp hx with hx | hx
      · exact hafter x hx
      · rwa [List.mem_singleton.mp hx]

/-- No key is returned twice. -/
def Distinct (log : List Entry) : Prop :=
  log.Pairwise fun e e' => ∀ raw, e.Returns raw → ¬e'.Returns raw

/-- Where no key is returned twice, the operation that returned it is found in one place. -/
theorem Distinct.split_eq {before before' after after' : List Entry} {e e' : Entry}
    (h : Distinct (before ++ e :: after)) (heq : before ++ e :: after = before' ++ e' :: after')
    {raw : String} (hr : e.Returns raw) (hr' : e'.Returns raw) : e = e' ∧ after = after' := by
  have h' := h
  rw [heq] at h'
  rcases List.append_eq_append_iff.mp heq with ⟨x, rfl, hx⟩ | ⟨x, rfl, hx⟩
  · cases x with
    | nil => simpa using hx
    | cons y x =>
      obtain ⟨rfl, -⟩ := List.cons.inj hx
      have hcross := (List.pairwise_append.mp h').2.2 e (by simp) e' (by simp)
      exact absurd hr' (hcross raw hr)
  · cases x with
    | nil => simpa using hx.symm
    | cons y x =>
      obtain ⟨rfl, -⟩ := List.cons.inj hx
      have hcross := (List.pairwise_append.mp h).2.2 e' (by simp) e (by simp)
      exact absurd hr (hcross raw hr')

/-- A key that was withdrawn is no label's latest. -/
theorem Withdrawn.not_latest {log : List Entry} (hd : Distinct log) {label raw : String}
    (h : Withdrawn log raw) : ¬Latest log label raw := by
  obtain ⟨before, e, between, e', after, rfl, hr, hs, -⟩ := h
  rintro ⟨before', e₀, after', heq, hl, hr', hafter⟩
  obtain ⟨rfl, rfl⟩ := hd.split_eq heq hr hr'
  exact hafter e' (by simp) (hl ▸ hs)

/-! ## The records follow the log -/

/-- Every record is that of a returned key, and is active while the key is the latest of its
label; and the latest key of a label has a record. -/
structure Tracks (hash : String → String) (log : List Entry) (keys : List KeyRecord) : Prop where
  known : ∀ k ∈ keys, ∃ raw, (∃ e ∈ log, e.Returns raw) ∧ k.keyHash = hash raw ∧
    (k.isActive = true ↔ Latest log k.label raw)
  kept : ∀ label raw, Latest log label raw →
    ∃ k ∈ keys, k.label = label ∧ k.keyHash = hash raw ∧ k.isActive = true

variable {hash : String → String} {log : List Entry} {keys : List KeyRecord}

/-- An empty log tracks an empty store. -/
theorem tracks_nil : Tracks hash [] [] := by
  refine ⟨by simp, fun label raw h => ?_⟩
  obtain ⟨before, e, after, heq, -⟩ := h
  simp at heq

/-- A refused call changes nothing. -/
theorem Tracks.refused (h : Tracks hash log keys) {op : KeyOp} {err : KeyStoreError} :
    Tracks hash (log ++ [⟨op, .error err⟩]) keys := by
  have hlatest :
    ∀ label raw, Latest (log ++ [⟨op, .error err⟩]) label raw ↔ Latest log label raw := by
    intro label raw
    rw [latest_append]
    simp [Entry.Returns, Entry.Succeeds]
  refine ⟨fun k hk => ?_, fun label raw hl => h.kept label raw ((hlatest label raw).mp hl)⟩
  obtain ⟨raw, ⟨e, he, hr⟩, hh, ha⟩ := h.known k hk
  exact ⟨raw, ⟨e, by simp [he], hr⟩, hh, by rw [hlatest]; exact ha⟩

/-- The records a call adds. -/
def added (hash : String → String) (op : KeyOp) (draw : Draw) : List KeyRecord :=
  match op with
  | .revokeKey _ => []
  | op => [newRecord hash op.label draw]

/-- What a call that gets as far as `_save` makes of the records: those of the label lose their
flag, and a new one may come after them. -/
theorem changed_keys {c : Contents} {op : KeyOp} (hr : c.Reaches op = true) (draw : Draw) :
    (c.changed hash op draw).keys = c.keys.map (retire op.label) ++ added hash op draw := by
  have hfree : ∀ label, c.holds label = false → c.keys.map (retire label) = c.keys := by
    intro label hl
    refine (List.map_congr_left fun k hk => ?_).trans (List.map_id c.keys)
    rw [retire, if_neg, id]
    simp only [KeyRecord.holds, Bool.and_eq_true, decide_eq_true_eq]
    rintro ⟨hkl, ha⟩
    rw [holds_eq_false_iff.mp hl k hk hkl] at ha
    cases ha
  cases op with
  | setup label =>
    simp only [Contents.Reaches, Bool.and_eq_true, Bool.not_eq_true'] at hr
    simp [Contents.changed, KeyOp.label, added, hfree label hr.2]
  | createKey label =>
    simp only [Contents.Reaches, Bool.not_eq_true'] at hr
    simp [Contents.changed, KeyOp.label, added, hfree label hr]
  | rotateKey label => rfl
  | revokeKey label => simp [Contents.changed, KeyOp.label, added]

private theorem added_cases (hash : String → String) (op : KeyOp) (draw : Draw) :
    (op.returned draw = none ∧ added hash op draw = []) ∨
      (op.returned draw = some (generateKey draw.token) ∧
        added hash op draw = [newRecord hash op.label draw]) := by
  cases op <;> simp [KeyOp.returned, added]

/-- A call that succeeds, with a key that was not returned before. -/
theorem Tracks.succeeded (h : Tracks hash log keys) {op : KeyOp} {draw : Draw}
    (hnew : ∀ e ∈ log, ¬e.Returns (generateKey draw.token)) :
    Tracks hash (log ++ [⟨op, .ok (op.returned draw)⟩])
      (keys.map (retire op.label) ++ added hash op draw) := by
  have hlatest : ∀ label raw, Latest (log ++ [⟨op, .ok (op.returned draw)⟩]) label raw ↔
      op.label = label ∧ op.returned draw = some raw ∨ op.label ≠ label ∧ Latest log label raw := by
    intro label raw
    rw [latest_append]
    simp [Entry.Returns, Entry.Succeeds]
  have hold : ∀ raw, (∃ e ∈ log, e.Returns raw) → op.returned draw ≠ some raw := by
    rintro raw ⟨e, he, hr⟩ heq
    rcases added_cases hash op draw with ⟨hnone, -⟩ | ⟨hsome, -⟩
    · rw [hnone] at heq
      cases heq
    · rw [hsome] at heq
      exact hnew e he (Option.some.inj heq ▸ hr)
  constructor
  · intro k hk
    rcases List.mem_append.mp hk with hk | hk
    · obtain ⟨k₀, hk₀, rfl⟩ := List.mem_map.mp hk
      obtain ⟨raw, hissued, hh, ha⟩ := h.known k₀ hk₀
      have hmore : ∃ e ∈ log ++ [⟨op, .ok (op.returned draw)⟩], e.Returns raw := by
        obtain ⟨e, he, hr⟩ := hissued
        exact ⟨e, by simp [he], hr⟩
      refine ⟨raw, hmore, by rw [retire_keyHash, hh], ?_⟩
      rw [retire_isActive, retire_label, hlatest, ha]
      simp [hold raw hissued, and_comm, eq_comm]
    · rcases added_cases hash op draw with ⟨-, hnil⟩ | ⟨hret, hone⟩
      · simp [hnil] at hk
      · rw [hone, List.mem_singleton] at hk
        subst hk
        refine ⟨generateKey draw.token, ⟨⟨op, .ok (op.returned draw)⟩, by simp, ?_⟩, rfl, ?_⟩
        · rw [Entry.Returns, hret]
        rw [hlatest]
        simp [newRecord, hret]
  · intro label raw hl
    rcases (hlatest label raw).mp hl with ⟨rfl, hret⟩ | ⟨hne, hl⟩
    · rcases added_cases hash op draw with ⟨hnone, -⟩ | ⟨hsome, hone⟩
      · rw [hnone] at hret
        cases hret
      · rw [hsome] at hret
        obtain rfl := Option.some.inj hret
        exact ⟨newRecord hash op.label draw, by simp [hone], rfl, rfl, rfl⟩
    · obtain ⟨k, hk, hkl, hh, ha⟩ := h.kept label raw hl
      refine ⟨retire op.label k, List.mem_append_left _ (List.mem_map.mpr ⟨k, hk, rfl⟩), ?_, ?_, ?_⟩
      · rw [retire_label, hkl]
      · rw [retire_keyHash, hh]
      · rw [retire_isActive, hkl]
        exact ⟨ha, Ne.symm hne⟩

/-! ## Runs -/

/-- The token an event may draw. -/
def KeyEvent.token : KeyEvent → Option String
  | .call _ draw => some draw.token
  | .restart => none

/-- The event's write, if it comes to one, goes through. -/
def KeyEvent.Writes : KeyEvent → Prop
  | .call _ draw => draw.write = .succeeds
  | .restart => True

instance : ∀ e : KeyEvent, Decidable e.Writes
  | .call _ draw => inferInstanceAs (Decidable (draw.write = .succeeds))
  | .restart => .isTrue trivial

/-- The store is up, its records and those in the file follow the log, and every key in the log
was made from a token drawn so far. -/
structure Followed (hash : String → String) (drawn : List String) (p : Running) : Prop where
  up : ∃ st, p.store = some st ∧ st.Sound ∧ Tracks hash p.log st.memory.keys ∧
    ∃ c, load st.file = some c ∧ c.keys = st.memory.keys
  distinct : Distinct p.log
  drawn : ∀ e ∈ p.log, ∀ raw, e.Returns raw → ∃ token ∈ drawn, raw = generateKey token

private theorem generateKey_inj {a b : String} (h : generateKey a = generateKey b) : a = b := by
  have hl := congrArg String.toList h
  simp only [generateKey, String.toList_append, List.append_cancel_left_eq] at hl
  exact String.toList_injective hl

/-- A call returns no key but the one it has made of its token. -/
theorem call_returns {st : Store} (hone : st.memory.OneActive) {op : KeyOp} {draw : Draw}
    {raw : String} (h : (op.call hash draw st).1 = .ok (some raw)) :
    raw = generateKey draw.token := by
  rcases call_spec hash hone op draw with ⟨-, heq⟩ | ⟨-, err, heq⟩
  · rw [heq] at h
    rcases added_cases hash op draw with ⟨hret, -⟩ | ⟨hret, -⟩ <;>
      rcases hs :
        (save draw.write { st with memory := st.memory.changed hash op draw }).1 with e | u <;>
      simp [hs, hret, Except.map] at h
    exact h.symm
  · rw [heq] at h
    cases h

/-- A call whose write goes through, if it comes to one, keeps the records and the file with the
log. -/
theorem Tracks.call {st : Store} (h : Tracks hash log st.memory.keys) (hsound : st.Sound)
    {op : KeyOp}
    {draw : Draw} (hw : draw.write = .succeeds)
    (hfile : ∃ c, load st.file = some c ∧ c.keys = st.memory.keys)
    (hnew : ∀ e ∈ log, ¬e.Returns (generateKey draw.token)) :
    Tracks hash (log ++ [⟨op, (op.call hash draw st).1⟩]) (op.call hash draw st).2.memory.keys ∧
      ∃ c, load (op.call hash draw st).2.file = some c ∧
        c.keys = (op.call hash draw st).2.memory.keys := by
  rcases call_spec hash hsound.memory op draw with ⟨hreach, heq⟩ | ⟨-, err, heq⟩
  · have hcall : op.call hash draw st = (.ok (op.returned draw),
        ⟨st.memory.changed hash op draw, some (.dumped (st.memory.changed hash op draw))⟩) := by
      rw [heq, hw]
      rfl
    rw [hcall]
    refine ⟨?_, _, rfl, rfl⟩
    show Tracks hash _ (st.memory.changed hash op draw).keys
    rw [changed_keys hreach]
    exact h.succeeded hnew
  · rw [heq]
    split <;> exact ⟨h.refused, hfile⟩

/-- A log follows a store through one event. -/
theorem Followed.step {drawn : List String} {p : Running} (h : Followed hash drawn p) {e : KeyEvent}
    (hw : e.Writes) (hnew : ∀ token ∈ e.token, token ∉ drawn) :
    Followed hash (drawn ++ e.token.toList) (p.step hash e) := by
  obtain ⟨st, hst, hsound, htracks, c, hload, hkeys⟩ := h.up
  cases e with
  | restart =>
    have hstep : p.step hash .restart = { p with store := some { st with memory := c } } := by
      simp [Running.step, hst, hload]
    rw [hstep]
    refine ⟨⟨_, rfl, ⟨hsound.file c hload, hsound.file⟩, hkeys ▸ htracks, c, hload, rfl⟩,
      h.distinct, fun e he raw hr => ?_⟩
    obtain ⟨token, ht, hraw⟩ := h.drawn e he raw hr
    exact ⟨token, by simp [ht], hraw⟩
  | call op draw =>
    have hfresh : ∀ e ∈ p.log, ¬e.Returns (generateKey draw.token) := by
      intro e he hr
      obtain ⟨token, ht, hraw⟩ := h.drawn e he _ hr
      exact hnew draw.token rfl (generateKey_inj hraw ▸ ht)
    have hstep : p.step hash (.call op draw) =
        ⟨some (op.call hash draw st).2, p.log ++ [⟨op, (op.call hash draw st).1⟩]⟩ := by
      simp [Running.step, hst]
    obtain ⟨htracks', hfile'⟩ := htracks.call hsound hw ⟨c, hload, hkeys⟩ hfresh
    rw [hstep]
    refine ⟨⟨_, rfl, hsound.call hash op draw, htracks', hfile'⟩, ?_, fun e he raw hr => ?_⟩
    · refine List.pairwise_append.mpr ⟨h.distinct, List.pairwise_singleton _ _, ?_⟩
      intro e he e' he' raw hr hr'
      obtain rfl := List.mem_singleton.mp he'
      exact hfresh e he (call_returns hsound.memory hr' ▸ hr)
    · rcases List.mem_append.mp he with he | he
      · obtain ⟨token, ht, hraw⟩ := h.drawn e he raw hr
        exact ⟨token, by simp [ht], hraw⟩
      · obtain rfl := List.mem_singleton.mp he
        exact ⟨draw.token, by simp [KeyEvent.token], call_returns hsound.memory hr⟩

/-- A log follows a store through a run. -/
theorem Followed.run {events : List KeyEvent} {drawn : List String} {p : Running}
    (h : Followed hash drawn p) (hw : ∀ e ∈ events, e.Writes)
    (hnew : (drawn ++ events.filterMap KeyEvent.token).Nodup) :
    Followed hash (drawn ++ events.filterMap KeyEvent.token)
      (Runs.run (Running.step hash) p events) := by
  induction events generalizing drawn p with
  | nil => simpa using h
  | cons e rest ih =>
    have htokens : (e :: rest).filterMap KeyEvent.token =
        e.token.toList ++ rest.filterMap KeyEvent.token := by
      cases e <;> rfl
    rw [htokens, ← List.append_assoc] at hnew ⊢
    refine ih (h.step (hw e (by simp)) fun token ht hmem => ?_)
      (fun e' he' => hw e' (by simp [he'])) hnew
    have hdisjoint := (List.nodup_append.mp (List.nodup_append.mp hnew).1).2.2
    exact hdisjoint token hmem token (by simp [Option.mem_def.mp ht]) rfl

/-! ## The lifetime of a key -/

/-- `validate` returns the label's record. -/
def ValidatesAs (hash : String → String) (st : Store) (raw label : String) : Prop :=
  ∃ info, validate hash raw st = some info ∧ info.label = label

/-- At most one active key for each label; a key is valid exactly while it is the latest of its
label; and a withdrawn key is not valid. -/
structure Lifetime (hash : String → String) (log : List Entry) (st : Store) : Prop where
  oneActive : st.memory.OneActive
  valid_iff : ∀ raw label, ValidatesAs hash st raw label ↔ Latest log label raw
  withdrawn : ∀ raw, Withdrawn log raw → validate hash raw st = none

/-- A followed store validates the latest key of each label and no other. -/
theorem Followed.validatesAs_iff {drawn : List String} {p : Running} (h : Followed hash drawn p)
    (hcoll : ∀ token ∈ drawn, ∀ raw, hash raw = hash (generateKey token) → raw = generateKey token)
    {st : Store} (hst : p.store = some st) (raw label : String) :
    ValidatesAs hash st raw label ↔ Latest p.log label raw := by
  obtain ⟨st', hst', -, htracks, -⟩ := h.up
  obtain rfl := Option.some.inj (hst.symm.trans hst')
  have hrecord : ∀ k ∈ st.memory.keys, k.keyHash = hash raw → k.isActive = true →
      Latest p.log k.label raw := by
    intro k hk hh ha
    obtain ⟨raw', ⟨e, he, hr⟩, hh', hact⟩ := htracks.known k hk
    obtain ⟨token, ht, rfl⟩ := h.drawn e he raw' hr
    obtain rfl := hcoll token ht raw (hh.symm.trans hh')
    exact hact.mp ha
  have hsame : ∀ label', Latest p.log label raw → Latest p.log label' raw → label = label' := by
    rintro label' ⟨b, e, a, heq, hl, hr, -⟩ ⟨b', e', a', heq', hl', hr', -⟩
    have hd := h.distinct
    rw [heq] at hd
    obtain ⟨rfl, -⟩ := hd.split_eq (heq.symm.trans heq') hr hr'
    exact hl.symm.trans hl'
  constructor
  · rintro ⟨info, hv, rfl⟩
    obtain ⟨k, hfind, rfl⟩ := Option.map_eq_some_iff.mp hv
    have hp := List.find?_some hfind
    simp only [Bool.and_eq_true, decide_eq_true_eq] at hp
    exact hrecord k (List.mem_of_find?_eq_some hfind) hp.1 hp.2
  · intro hl
    obtain ⟨k, hk, hkl, hh, ha⟩ := htracks.kept label raw hl
    have hsome : (st.memory.keys.find? fun k => k.keyHash = hash raw && k.isActive).isSome := by
      rw [List.find?_isSome]
      exact ⟨k, hk, by simp [hh, ha]⟩
    obtain ⟨k', hfind⟩ := Option.isSome_iff_exists.mp hsome
    have hp := List.find?_some hfind
    simp only [Bool.and_eq_true, decide_eq_true_eq] at hp
    refine ⟨k'.info, by simp [validate, hfind], ?_⟩
    exact (hsame _ hl (hrecord k' (List.mem_of_find?_eq_some hfind) hp.1 hp.2)).symm

/-- After every sequence of calls and restarts whose writes go through, with tokens that are
drawn once and keys that no other string shares a hash with, the store is up and a key is valid
exactly as long as the log says. -/
theorem run_lifetime (hash : String → String) {events : List KeyEvent}
    (hwrites : ∀ e ∈ events, e.Writes) (hfresh : (events.filterMap KeyEvent.token).Nodup)
    (hcoll : ∀ token ∈ events.filterMap KeyEvent.token, ∀ raw,
      hash raw = hash (generateKey token) → raw = generateKey token) :
    ∃ st, (Running.run hash events).store = some st ∧
      Lifetime hash (Running.run hash events).log st := by
  have hstart : Followed hash [] {} :=
    ⟨⟨{}, rfl, sound_empty, tracks_nil, {}, rfl, rfl⟩, List.Pairwise.nil, by simp⟩
  have h := hstart.run hwrites (by simpa using hfresh)
  rw [List.nil_append] at h
  obtain ⟨st, hst, hsound, -⟩ := h.up
  have hiff := h.validatesAs_iff hcoll hst
  refine ⟨st, hst, hsound.memory, hiff, fun raw hw => ?_⟩
  by_contra hv
  obtain ⟨info, hinfo⟩ := Option.ne_none_iff_exists'.mp hv
  exact hw.not_latest h.distinct ((hiff raw info.label).mp ⟨info, hinfo, rfl⟩)

/-- A first key, a refused second one, a rotation and a restart. -/
def rotatedOnce : List KeyEvent :=
  [.call (.setup "a") ⟨"1", 0, .succeeds⟩, .call (.createKey "a") ⟨"2", 0, .succeeds⟩,
    .call (.rotateKey "a") ⟨"3", 0, .succeeds⟩, .restart]

/-- After it the second key is valid and the first is not. -/
theorem run_lifetime_rotated :
    ((Running.run id rotatedOnce).store.any fun st =>
      (validate id "cst_3" st).isSome && (validate id "cst_1" st).isNone) = true ∧
      ∃ st, (Running.run id rotatedOnce).store = some st ∧
        Lifetime id (Running.run id rotatedOnce).log st :=
  ⟨by decide +kernel, run_lifetime id (by decide) (by decide) fun _ _ _ h => h⟩

end Cassetta.FileKeyStore
