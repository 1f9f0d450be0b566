import Cassetta.Auth.Admin

/-!
# Whose word a key is valid by

A run of requests to the key routes and of restarts, from an application without a key file. The
ledger keeps every operation that came to the key store, with the credentials that were presented.
Every one of them was authorised by the setup token or by a key that was then the latest of its
label, so the chain of who created whose key ends at the setup token; and REST and MCP
authenticate exactly the keys the ledger says are valid.
-/

namespace Cassetta.Admin

open FileKeyStore

/-! ## Runs -/

/-- One thing that happens to the application. -/
inductive AdminEvent where
  | request (c : Credentials) (r : Request) (draw : Draw)
  | restart

/-- The token a request may draw. -/
def AdminEvent.token : AdminEvent → Option String
  | .request _ _ draw => some draw.token
  | .restart => none

/-- The write of a request, if it comes to one, goes through. -/
def AdminEvent.Writes : AdminEvent → Prop
  | .request _ _ draw => draw.write = .succeeds
  | .restart => True

instance : ∀ e : AdminEvent, Decidable e.Writes
  | .request _ _ draw => inferInstanceAs (Decidable (draw.write = .succeeds))
  | .restart => .isTrue trivial

/-- The key store of the application, which may be down, and what has come to it. -/
structure Office where
  store : Option Store := some {}
  ledger : List (Credentials × Entry) := []

/-- The operations of the ledger. -/
def Office.log (o : Office) : List Entry := o.ledger.map Prod.snd

/-- The key store with its log. -/
def Office.running (o : Office) : Running := ⟨o.store, o.log⟩

/-- The operation a request brings to the key store, where it is let through. -/
def admitted (g : Gate) (c : Credentials) (r : Request) (st : Store) : Option KeyOp :=
  match r.op with
  | some (op, action) =>
    if (enforce g c ("keys:" ++ op.label) action st).toBool then some op else none
  | none => none

/-- One request is answered, or the process starts again. -/
def Office.step (g : Gate) (o : Office) : AdminEvent → Office
  | .request c r draw =>
    match o.store with
    | none => o
    | some st =>
      { store := some (r.handle g c draw st).2
        ledger := match admitted g c r st with
          | some op => o.ledger ++ [(c, ⟨op, (op.call g.hash draw st).1⟩)]
          | none => o.ledger }
  | .restart =>
    match o.store with
    | none => o
    | some st => { o with store := (load st.file).map fun memory => { st with memory } }

/-- A run from an application without a key file. -/
def Office.run (g : Gate) (events : List AdminEvent) : Office := Runs.run (Office.step g) {} events

variable {g : Gate} {c : Credentials}

/-- A request is to the key store what the operation it is let through with is, or nothing. -/
theorem Office.running_request (o : Office) {st : Store} (hst : o.store = some st) (r : Request)
    (draw : Draw) : (o.step g (.request c r draw)).running = match admitted g c r st with
      | some op => o.running.step g.hash (.call op draw)
      | none => o.running := by
  simp only [Office.step, Office.running, Office.log, hst, r.handle_store, Running.step, admitted]
  cases hop : r.op with
  | none => rfl
  | some x =>
    obtain ⟨op, action⟩ := x
    by_cases hok : (enforce g c ("keys:" ++ op.label) action st).toBool = true
    · simp [hok]
    · simp [hok]

private theorem Office.running_restart (o : Office) :
    (o.step g .restart).running = o.running.step g.hash .restart := by
  simp only [Office.step, Office.running, Running.step]
  cases hs : o.store with
  | none => simp [hs]
  | some st => rfl

/-! ## Credentials that hold -/

/-- The setup token, or a key that is the latest of its label. -/
def Holds (g : Gate) (c : Credentials) (log : List Entry) : Prop :=
  c.setupToken = some g.setupToken ∨ ∃ raw label, c.bearer = some raw ∧ Latest log label raw

/-- The records of the store are those the log tells of. -/
def Agrees (g : Gate) (log : List Entry) (st : Store) : Prop :=
  ∀ raw label, ValidatesAs g.hash st raw label ↔ Latest log label raw

private theorem validate_eq_none_iff {log : List Entry} {st : Store} (h : Agrees g log st)
    (raw : String) :
    validate g.hash raw st = none ↔ ∀ label, ¬Latest log label raw := by
  constructor
  · intro hnone label hl
    obtain ⟨info, hv, -⟩ := (h raw label).mpr hl
    rw [hnone] at hv
    cases hv
  · intro hno
    by_contra hv
    obtain ⟨info, hinfo⟩ := Option.ne_none_iff_exists'.mp hv
    exact hno info.label ((h raw info.label).mp ⟨info, hinfo, rfl⟩)

/-- What becomes of a key: the identity its record resolves to, an exception of the provider, or
no authentication. -/
theorem resolveKey_cases (g : Gate) (raw : String) (st : Store) :
    validate g.hash raw st = none ∧ resolveKey g raw st = none ∨
      ∃ info, validate g.hash raw st = some info ∧
        ((∃ identity, g.resolve info = some identity ∧
            resolveKey g raw st = some (.ok identity)) ∨
          resolveKey g raw st = some (.error .raised)) := by
  unfold resolveKey
  cases hv : validate g.hash raw st with
  | none => exact .inl ⟨rfl, rfl⟩
  | some info =>
    refine .inr ⟨info, rfl, ?_⟩
    cases hr : g.resolve info with
    | none => exact .inr (by simp [hr])
    | some identity => exact .inl ⟨identity, rfl, by simp [hr]⟩

/-- A REST request fails to authenticate exactly where its credentials do not hold. -/
theorem getCurrentIdentity_failed_iff {log : List Entry} {st : Store} (hdev : g.devMode = false)
    (h : Agrees g log st) (c : Credentials) (f : AuthFailure) :
    getCurrentIdentity g c st = .error (.failed f) ↔ ¬Holds g c log ∧ f = failureOf c := by
  unfold getCurrentIdentity
  rw [hdev, if_neg (by simp)]
  by_cases htok : c.setupToken = some g.setupToken
  · simp [htok, Holds]
  rw [if_neg htok]
  cases hb : c.bearer with
  | none =>
    simp only [Option.bind_none, Except.error.injEq, Refusal.failed.injEq, Holds, htok, hb,
      reduceCtorEq, false_and, exists_const, or_false, not_false_eq_true, true_and]
    exact eq_comm
  | some raw =>
    have hholds : Holds g c log ↔ ∃ label, Latest log label raw := by
      simp [Holds, htok, hb]
    rw [hholds, not_exists, ← validate_eq_none_iff h, Option.bind_some]
    rcases resolveKey_cases g raw st with
      ⟨hv, heq⟩ | ⟨info, hv, ⟨identity, -, heq⟩ | heq⟩ <;> rw [heq, hv]
    · simp only [Except.error.injEq, Refusal.failed.injEq, true_and]
      exact eq_comm
    · simp
    · simp

/-- The MCP endpoint fails to authenticate a header exactly where it is not the `Bearer` header of
a valid key. -/
theorem mcpIdentity_failed_iff {log : List Entry} {st : Store} (hdev : g.devMode = false)
    (h : Agrees g log st) (header : String) :
    (∃ f, mcpIdentity g header st = .error (.failed f)) ↔
      ¬∃ raw label, header = bearerScheme ++ raw ∧ Latest log label raw := by
  have hsplit : startsWith header bearerScheme = true →
      header = bearerScheme ++ String.ofList (header.toList.drop 7) := by
    intro hs
    obtain ⟨rest, hrest⟩ := List.isPrefixOf_iff_prefix.mp hs
    apply String.toList_injective
    rw [String.toList_append, String.toList_ofList, ← hrest]
    simp [bearerScheme]
  unfold mcpIdentity
  rw [hdev, if_neg (by simp)]
  by_cases hs : startsWith header bearerScheme = true
  · rw [if_neg (by simp [hs])]
    have hiff : (∃ raw label, header = bearerScheme ++ raw ∧ Latest log label raw) ↔
        ∃ label, Latest log label (String.ofList (header.toList.drop 7)) := by
      constructor
      · rintro ⟨raw, label, heq, hl⟩
        have hraw : String.ofList (header.toList.drop 7) = raw := by
          apply String.toList_injective
          rw [String.toList_ofList, heq, String.toList_append]
          simp [bearerScheme]
        exact ⟨label, hraw ▸ hl⟩
      · rintro ⟨label, hl⟩
        exact ⟨_, label, hsplit hs, hl⟩
    rw [hiff, not_exists, ← validate_eq_none_iff h]
    generalize String.ofList (header.toList.drop 7) = token
    rcases resolveKey_cases g token st with
      ⟨hv, heq⟩ | ⟨info, hv, ⟨identity, -, heq⟩ | heq⟩ <;> simp [heq, hv]
  · rw [if_pos (by simpa using hs)]
    refine iff_of_true ⟨_, rfl⟩ ?_
    rintro ⟨raw, label, rfl, -⟩
    refine hs (List.isPrefixOf_iff_prefix.mpr ?_)
    rw [String.toList_append]
    exact List.prefix_append _ _

/-- An operation that is let through was authorised by credentials that hold. -/
theorem holds_of_admitted {log : List Entry} {st : Store} (hdev : g.devMode = false)
    (h : Agrees g log st) {r : Request} {op : KeyOp} (hop : admitted g c r st = some op) :
    Holds g c log := by
  by_contra hno
  have hfail := (getCurrentIdentity_failed_iff hdev h c (failureOf c)).mpr ⟨hno, rfl⟩
  unfold admitted at hop
  split at hop
  · simp [enforce, hfail, Except.toBool] at hop
  · cases hop

/-! ## The ledger -/

/-- Every operation was authorised by credentials that held when it came. -/
def Vouched (g : Gate) (ledger : List (Credentials × Entry)) : Prop :=
  ∀ before c e after, ledger = before ++ (c, e) :: after → Holds g c (before.map Prod.snd)

private theorem vouched_append {ledger : List (Credentials × Entry)} {e : Entry}
    (h : Vouched g ledger)
    (hc : Holds g c (ledger.map Prod.snd)) : Vouched g (ledger ++ [(c, e)]) := by
  intro before c' e' after heq
  rcases List.eq_nil_or_concat after with rfl | ⟨after, x, rfl⟩
  · obtain ⟨rfl, he⟩ := List.append_inj' heq rfl
    obtain ⟨rfl, rfl⟩ := Prod.mk.inj (List.singleton_inj.mp he)
    exact hc
  · rw [List.concat_eq_append, ← List.cons_append, ← List.append_assoc] at heq
    exact h before c' e' after (List.append_inj' heq rfl).1

/-- Without the setup token nothing begins. -/
theorem Vouched.eq_nil {ledger : List (Credentials × Entry)} (h : Vouched g ledger)
    (hno : ∀ x ∈ ledger, x.1.setupToken ≠ some g.setupToken) : ledger = [] := by
  cases ledger with
  | nil => rfl
  | cons x rest =>
    rcases h [] x.1 x.2 rest rfl with htok | ⟨raw, label, -, before, e, after, hlog, -⟩
    · exact absurd htok (hno x (by simp))
    · simp at hlog

private theorem followed_mono {hash : String → String} {drawn drawn' : List String} {p : Running}
    (h : Followed hash drawn p) (hsub : drawn ⊆ drawn') : Followed hash drawn' p where
  up := h.up
  distinct := h.distinct
  drawn e he raw hr := by
    obtain ⟨token, ht, heq⟩ := h.drawn e he raw hr
    exact ⟨token, hsub ht, heq⟩

/-- What holds of the application between requests: its key store follows its log, and its ledger
is vouched for. -/
structure Office.Sound (g : Gate) (drawn : List String) (o : Office) : Prop where
  followed : Followed g.hash drawn o.running
  vouched : Vouched g o.ledger

/-- No other string shares the hash of a key made of one of the tokens. -/
def Apart (g : Gate) (drawn : List String) : Prop :=
  ∀ token ∈ drawn, ∀ raw, g.hash raw = g.hash (generateKey token) → raw = generateKey token

namespace Office.Sound

variable {drawn : List String} {o : Office}

/-- A new office is sound. -/
theorem init (g : Gate) : Office.Sound g [] {} where
  followed := ⟨⟨{}, rfl, sound_empty, tracks_nil, {}, rfl, rfl⟩, List.Pairwise.nil,
    by simp [log, running]⟩
  vouched before c e after heq := by simp at heq

/-- The store of a sound office agrees with its log. -/
theorem agrees (h : Office.Sound g drawn o) (hapart : Apart g drawn) {st : Store}
    (hst : o.store = some st) : Agrees g o.log st :=
  h.followed.validatesAs_iff hapart hst

/-- An event keeps an office sound. -/
theorem step (hdev : g.devMode = false) (h : Office.Sound g drawn o) {e : AdminEvent}
    (hapart : Apart g drawn) (hw : e.Writes) (hnew : ∀ token ∈ e.token, token ∉ drawn) :
    Office.Sound g (drawn ++ e.token.toList) (o.step g e) := by
  cases e with
  | restart =>
    refine ⟨?_, ?_⟩
    · rw [running_restart]
      exact h.followed.step (e := .restart) trivial (by simp [KeyEvent.token])
    · have hledger : (o.step g .restart).ledger = o.ledger := by
        simp only [Office.step]
        split <;> rfl
      rw [hledger]
      exact h.vouched
  | request c r draw =>
    obtain ⟨st, hst, -⟩ := h.followed.up
    have hst : o.store = some st := hst
    cases hop : admitted g c r st with
    | none =>
      refine ⟨?_, ?_⟩
      · rw [o.running_request hst, hop]
        exact followed_mono h.followed (List.subset_append_left _ _)
      · simpa [Office.step, hst, hop] using h.vouched
    | some op =>
      refine ⟨?_, ?_⟩
      · rw [o.running_request hst, hop]
        exact h.followed.step (e := .call op draw) hw hnew
      · have hledger : (o.step g (.request c r draw)).ledger =
            o.ledger ++ [(c, ⟨op, (op.call g.hash draw st).1⟩)] := by
          simp [Office.step, hst, hop]
        rw [hledger]
        exact vouched_append h.vouched (holds_of_admitted hdev (h.agrees hapart hst) hop)

/-- A run keeps an office sound. -/
theorem run (hdev : g.devMode = false) {events : List AdminEvent} (h : Office.Sound g drawn o)
    (hapart : Apart g (drawn ++ events.filterMap AdminEvent.token))
    (hw : ∀ e ∈ events, e.Writes)
    (hnew : (drawn ++ events.filterMap AdminEvent.token).Nodup) :
    Office.Sound g (drawn ++ events.filterMap AdminEvent.token)
      (Runs.run (Office.step g) o events) := by
  induction events generalizing drawn o with
  | nil => simpa using h
  | cons e rest ih =>
    have htokens : (e :: rest).filterMap AdminEvent.token =
        e.token.toList ++ rest.filterMap AdminEvent.token := by
      cases e <;> rfl
    rw [htokens, ← List.append_assoc] at hnew hapart ⊢
    refine ih (h.step hdev (fun token ht => hapart token (by simp [ht])) (hw e (by simp))
      fun token ht hmem => ?_) hapart (fun e' he' => hw e' (by simp [he'])) hnew
    have hdisjoint := (List.nodup_append.mp (List.nodup_append.mp hnew).1).2.2
    exact hdisjoint token hmem token (by simp [Option.mem_def.mp ht]) rfl

end Office.Sound

/-- Who may do what, as the ledger tells it: a REST request fails to authenticate exactly where its
credentials do not hold, an MCP request where it has no valid key, and every operation that came to
the key store was authorised by credentials that held at the time; without the setup token there is
none. -/
structure Authority (g : Gate) (o : Office) (st : Store) : Prop where
  rest : ∀ c f, getCurrentIdentity g c st = .error (.failed f) ↔
    ¬Holds g c o.log ∧ f = failureOf c
  mcp : ∀ header, (∃ f, mcpIdentity g header st = .error (.failed f)) ↔
    ¬∃ raw label, header = bearerScheme ++ raw ∧ Latest o.log label raw
  vouched : Vouched g o.ledger
  bootstrap : (∀ x ∈ o.ledger, x.1.setupToken ≠ some g.setupToken) → o.ledger = []

/-- Outside dev mode, after every sequence of requests and restarts whose writes go through, with
tokens that are drawn once and keys that no other string shares a hash with. -/
theorem run_authority {g : Gate} (hdev : g.devMode = false) {events : List AdminEvent}
    (hwrites : ∀ e ∈ events, e.Writes) (hfresh : (events.filterMap AdminEvent.token).Nodup)
    (hapart : Apart g (events.filterMap AdminEvent.token)) :
    ∃ st, (Office.run g events).store = some st ∧ Authority g (Office.run g events) st := by
  have h := (Office.Sound.init g).run hdev (by simpa using hapart) hwrites (by simpa using hfresh)
  rw [List.nil_append] at h
  obtain ⟨st, hst, -⟩ := h.followed.up
  have hagrees := h.agrees hapart hst
  exact ⟨st, hst, getCurrentIdentity_failed_iff hdev hagrees, mcpIdentity_failed_iff hdev hagrees,
    h.vouched, h.vouched.eq_nil⟩

/-- A key for a first project, made with the setup token, and one for a second, made with that
key. -/
def firstKeys : List AdminEvent :=
  [.request ⟨some "s", none⟩ (.setup ⟨"h", by decide⟩ ⟨"p", by decide⟩) ⟨"1", 0, .succeeds⟩,
    .request ⟨none, some "cst_1"⟩ (.createKey ⟨"h", by decide⟩ ⟨"q", by decide⟩)
      ⟨"2", 1, .succeeds⟩,
    .restart, .request ⟨none, some "cst_2"⟩ (.revokeKey "h:p") ⟨"3", 2, .succeeds⟩]

/-- After them the second key is all that is left. -/
theorem run_authority_first :
    ∃ st, (Office.run (coreGate "s" id) firstKeys).store = some st ∧
      Authority (coreGate "s" id) (Office.run (coreGate "s" id) firstKeys) st :=
  run_authority rfl (by decide) (by decide) fun _ _ _ h => h

/-! ## The gauge of active keys -/

private theorem nodup_active {memory : Contents} (h : memory.OneActive) :
    ((memory.keys.filter (·.isActive)).map (·.label)).Nodup := by
  rw [List.nodup_iff_count_le_one]
  intro label
  have hcount : List.count label ((memory.keys.filter (·.isActive)).map (·.label)) =
      (memory.keys.filter (·.holds label)).length := by
    rw [List.count, List.countP_map, List.countP_filter, List.countP_eq_length_filter]
    congr 1
  rw [hcount]
  exact h label

/-- A gauge is published by a change that went through, of the store it has left. -/
theorem gauge_of_handle {r : Request} {draw : Draw} {st : Store} {n : Nat}
    (h : .gauge "cassetta.active_keys" n ∈ (r.handle g c draw st).1.emits) :
    n = activeKeys (r.handle g c draw st).2 := by
  have hrefused : ∀ {resource action : String} {a : Response},
      enforce g c resource action st = .error a → .gauge "cassetta.active_keys" n ∉ a.emits := by
    intro resource action a ha
    unfold enforce at ha
    split at ha
    · rename_i x _
      obtain rfl := Except.error.inj ha
      cases x <;> simp [Refusal.response, AuthFailure.emission]
    · split at ha
      · obtain rfl := Except.error.inj ha
        simp
      · obtain rfl := Except.error.inj ha
        simp [denied]
      · cases ha
  have hchange : ∀ {α : Type} {label action : String}
      {call : Store → Except KeyStoreError α × Store} {raised : KeyStoreError → Reply}
      {reply : α → Reply},
      .gauge "cassetta.active_keys" n ∈ (change g c label action call raised reply st).1.emits →
      n = activeKeys (change g c label action call raised reply st).2 := by
    intro α label action call raised reply hmem
    unfold change at hmem ⊢
    split at hmem
    · rename_i a ha
      exact absurd hmem (hrefused ha)
    · rcases hc : call st with ⟨x, st'⟩
      rw [hc] at hmem
      cases x with
      | error e => simp at hmem
      | ok a => simpa [changeEmissions] using hmem
  cases r with
  | setup host project => exact hchange h
  | createKey host project => exact hchange h
  | listKeys =>
    simp only [Request.handle, listKeys] at h
    split at h
    · rename_i a ha
      exact absurd h (hrefused ha)
    · simp at h
  | rotateKey label => exact hchange h
  | revokeKey label => exact hchange h

/-- In every such run the gauge that a request publishes is the number of labels that have a valid
key once it is done. -/
theorem run_gauge {g : Gate} (hdev : g.devMode = false) {events : List AdminEvent}
    {c : Credentials} {r : Request} {draw : Draw}
    (hwrites : ∀ e ∈ events ++ [AdminEvent.request c r draw], e.Writes)
    (hfresh : ((events ++ [AdminEvent.request c r draw]).filterMap AdminEvent.token).Nodup)
    (hapart : Apart g ((events ++ [AdminEvent.request c r draw]).filterMap AdminEvent.token))
    {st : Store} (hst : (Office.run g events).store = some st) {n : Nat}
    (hgauge : .gauge "cassetta.active_keys" n ∈ (r.handle g c draw st).1.emits) :
    ∃ labels : List String, labels.Nodup ∧ labels.length = n ∧ ∀ label, label ∈ labels ↔
      ∃ raw, Latest (Office.run g (events ++ [AdminEvent.request c r draw])).log label raw := by
  have h := (Office.Sound.init g).run hdev (by simpa using hapart) hwrites (by simpa using hfresh)
  obtain ⟨st', hst', hsound, htracks, -⟩ := h.followed.up
  have hstep : Office.run g (events ++ [AdminEvent.request c r draw]) =
      (Office.run g events).step g (.request c r draw) := by
    simp [Office.run, Runs.run_append]
  have heq : st' = (r.handle g c draw st).2 := by
    have hrun : (Runs.run (Office.step g) {} (events ++ [AdminEvent.request c r draw])).store =
      some st' := hst'
    rw [show Runs.run (Office.step g) {} (events ++ [AdminEvent.request c r draw]) = _
      from hstep] at hrun
    simpa [Office.step, hst] using hrun.symm
  refine ⟨_, nodup_active hsound.memory, ?_, fun label => ?_⟩
  · rw [List.length_map, gauge_of_handle hgauge, ← heq]
    rfl
  · simp only [List.mem_map, List.mem_filter]
    constructor
    · rintro ⟨k, ⟨hk, ha⟩, rfl⟩
      obtain ⟨raw, -, -, hact⟩ := htracks.known k hk
      exact ⟨raw, hact.mp ha⟩
    · rintro ⟨raw, hl⟩
      obtain ⟨k, hk, hkl, -, ha⟩ := htracks.kept label raw hl
      exact ⟨k, ⟨hk, ha⟩, hkl⟩

/-- The key for the second project. -/
def secondKey : AdminEvent :=
  .request ⟨none, some "cst_1"⟩ (.createKey ⟨"h", by decide⟩ ⟨"q", by decide⟩) ⟨"2", 1, .succeeds⟩

/-- It makes two labels with a valid key. -/
theorem run_gauge_first :
    ∃ labels : List String, labels.Nodup ∧ labels.length = 2 ∧ ∀ label, label ∈ labels ↔
      ∃ raw, Latest (Office.run (coreGate "s" id) (firstKeys.take 1 ++ [secondKey])).log
        label raw :=
  run_gauge rfl (by decide) (by decide) (fun _ _ _ h => h) rfl (by decide +kernel)

end Cassetta.Admin
