import Cassetta.Claims.Races

/-!
# Marks that overlap

`mark_fetched` reads the record, adds a name and puts the result in place through a temporary
file that all calls on the claim share, and nothing guards the time between. A mark is lost when
two calls read the same record and put different ones in place, and the sidecar is torn when a
call puts the temporary file in place that another has just truncated. `Clear` rules out these
two, and under it every mark is kept.
-/

namespace Cassetta

open ClaimDir

/-- The name added to the fetched files. -/
def ClaimRecord.withName (claim : ClaimRecord) (name : String) : ClaimRecord :=
  { claim with filesFetched := claim.filesFetched ++ [name] }

/-- The sidecar of a claim, as `issue` and `mark_fetched` write it. -/
structure ClaimDir.Live (d : ClaimDir) (jti : Id) (claim : ClaimRecord) : Prop where
  read : d.read (.sidecar jti) = some (.record claim)
  jti : claim.jti = jti

/-- A live claim can be read. -/
theorem ClaimDir.Live.get {d : ClaimDir} {jti : Id} {claim : ClaimRecord} (h : d.Live jti claim) :
    d.get jti = some (some claim) := by
  rw [ClaimDir.get, h.read]
  rfl

namespace ClaimRace

/-- Calls of `mark_fetched` that have done nothing yet, one for each name. -/
def marks (d : ClaimDir) (jti : Id) (names : List String) : ClaimRace :=
  ⟨d, names.map (.markRead jti)⟩

/-- One call of one operation. -/
def turn (fmt : ClaimFormat) (s : ClaimRace) (i : Nat) : ClaimRace := s.step fmt (.advance i)

/-- The next call of this operation is clear of the others. One that has a name to add reads
only while the operations that have read and not put their record in place have drafted the
record it is going to draft, and one replaces the sidecar only by a whole record. -/
def ClearAt (s : ClaimRace) : ClaimPhase → Prop
  | .markRead jti name => ∀ claim ∈ (s.dir.get jti).join, name ∉ claim.filesFetched →
      ∀ ph ∈ s.ops, ph.draft = none ∨ ph.draft = some (claim.withName name)
  | .markReplace jti _ => ∀ b ∈ s.dir.read (.sidecarTmp jti), parse b ≠ none
  | _ => True

instance (s : ClaimRace) : ∀ ph, Decidable (s.ClearAt ph)
  | .markRead jti name => inferInstanceAs
      (Decidable (∀ claim ∈ (s.dir.get jti).join, name ∉ claim.filesFetched →
        ∀ ph ∈ s.ops, ph.draft = none ∨ ph.draft = some (claim.withName name)))
  | .markReplace jti _ => inferInstanceAs
      (Decidable (∀ b ∈ s.dir.read (.sidecarTmp jti), parse b ≠ none))
  | .issueOpenLock _ | .issueWriteLock .. | .issueOpen .. | .issueUnlinkLock _ | .issueWrite ..
  | .issued .. | .bundleClaimed _ | .markOpenTmp .. | .markWriteTmp .. | .markUnlinkTmp ..
  | .marked .. | .markNotFound _ | .markMalformed _ | .deleteRead _ | .deleteUnlinkLock ..
  | .deleteUnlink _ | .deleted _ => .isTrue trivial

def Clear (s : ClaimRace) (i : Nat) : Prop := ∀ ph ∈ s.ops[i]?, s.ClearAt ph

instance (s : ClaimRace) (i : Nat) : Decidable (s.Clear i) :=
  inferInstanceAs (Decidable (∀ ph ∈ s.ops[i]?, s.ClearAt ph))

end ClaimRace

/-! ## One operation -/

/-- What the temporary file may hold while a record is being put in place. -/
def Drafted (draft : ClaimRecord) (b : ClaimBody) : Prop := b = .text 0 ∨ b = .record draft

/-- The temporary file is gone only when the record is in place. -/
structure TmpLaid (jti : Id) (d : ClaimDir) (cur draft : ClaimRecord) : Prop where
  gone : d.read (.sidecarTmp jti) = none → cur = draft
  there : ∀ b, d.read (.sidecarTmp jti) = some b → Drafted draft b

/-- Where a call that marks a name is, when `cur` is the record in place and `draft` the one
that the calls in flight put there. -/
inductive Marking (jti : Id) (d : ClaimDir) (cur draft : ClaimRecord) (name : String) :
    ClaimPhase → Prop
  | reading : Marking jti d cur draft name (.markRead jti name)
  | opening (hname : name ∈ draft.filesFetched) :
      Marking jti d cur draft name (.markOpenTmp jti draft)
  | writing (hname : name ∈ draft.filesFetched) (hlaid : TmpLaid jti d cur draft) (fd : Nat)
      (hfd : Drafted draft (d.content fd)) :
      Marking jti d cur draft name (.markWriteTmp jti draft fd)
  | replacing (hname : name ∈ draft.filesFetched) (hlaid : TmpLaid jti d cur draft) :
      Marking jti d cur draft name (.markReplace jti draft)
  | unlinking (hname : name ∈ draft.filesFetched) (hcur : cur = draft) :
      Marking jti d cur draft name (.markUnlinkTmp jti draft)
  | marked (hname : name ∈ cur.filesFetched) (claim : ClaimRecord) :
      Marking jti d cur draft name (.marked jti claim)
  | overtaken (hname : name ∈ cur.filesFetched) :
      Marking jti d cur draft name (.markNotFound jti)

/-- What a call of one operation leaves to the others. -/
structure Onward (jti : Id) (d d' : ClaimDir) (cur cur' draft : ClaimRecord) : Prop where
  names : ∀ n ∈ cur.filesFetched, n ∈ cur'.filesFetched
  contents : ∀ fd, Drafted draft (d.content fd) → Drafted draft (d'.content fd)
  laid : TmpLaid jti d cur draft → TmpLaid jti d' cur' draft
  placed : cur = draft → cur' = draft

namespace Marking

variable {jti : Id} {d d' : ClaimDir} {cur cur' draft : ClaimRecord} {name : String}
  {ph : ClaimPhase}

private theorem onward (h : Marking jti d cur draft name ph) (ho : Onward jti d d' cur cur' draft) :
    Marking jti d' cur' draft name ph := by
  cases h with
  | reading => exact .reading
  | opening hname => exact .opening hname
  | writing hname hlaid fd hfd => exact .writing hname (ho.laid hlaid) fd (ho.contents fd hfd)
  | replacing hname hlaid => exact .replacing hname (ho.laid hlaid)
  | unlinking hname hcur => exact .unlinking hname (ho.placed hcur)
  | marked hname claim => exact .marked (ho.names name hname) claim
  | overtaken hname => exact .overtaken (ho.names name hname)

/-- An operation does not care about the draft of others, or it is its own. -/
theorem redraft (h : Marking jti d cur draft name ph) {draft' : ClaimRecord}
    (hdraft : ph.draft = none ∨ ph.draft = some draft') : Marking jti d cur draft' name ph := by
  cases h with
  | reading => exact .reading
  | marked hname claim => exact .marked hname claim
  | overtaken hname => exact .overtaken hname
  | opening hname =>
    rcases hdraft with hd | hd <;> cases hd
    exact .opening hname
  | writing hname hlaid fd hfd =>
    rcases hdraft with hd | hd <;> cases hd
    exact .writing hname hlaid fd hfd
  | replacing hname hlaid =>
    rcases hdraft with hd | hd <;> cases hd
    exact .replacing hname hlaid
  | unlinking hname hcur =>
    rcases hdraft with hd | hd <;> cases hd
    exact .unlinking hname hcur

/-- A call that has returned has its name in the record. -/
theorem mem_of_finished (h : Marking jti d cur draft name ph) (hf : ph.finished = true) :
    name ∈ cur.filesFetched := by
  cases h with
  | marked hname claim => exact hname
  | overtaken hname => exact hname
  | _ => cases hf

end Marking

/-! ## One call -/

section Calls

variable (fmt : ClaimFormat) {jti : Id} {d : ClaimDir} {cur draft : ClaimRecord} {name : String}

/-- Nothing has changed. -/
theorem Onward.refl (jti : Id) (d : ClaimDir) (cur draft : ClaimRecord) :
    Onward jti d d cur cur draft :=
  ⟨fun _ hn => hn, fun _ hfd => hfd, id, id⟩

/-- The write of a draft leaves the draft. -/
theorem overwrite_drafted {b : ClaimBody} (h : Drafted draft b) :
    overwrite fmt b (.record draft) = .record draft := by
  unfold overwrite
  rcases h with rfl | rfl
  · rw [if_neg]
    exact Nat.not_lt_zero _
  · rw [if_neg (Nat.lt_irrefl _)]

private theorem drafted_update {fd fd' : Nat} {b : ClaimBody} (hb : Drafted draft b)
    (h : Drafted draft (d.content fd)) :
    Drafted draft (Function.update d.content fd' b fd) := by
  by_cases he : fd = fd'
  · rw [he, Function.update_self]
    exact hb
  · rw [Function.update_of_ne he]
    exact h

/-- The temporary file is opened. -/
theorem openTmp_onward (hlive : d.Live jti cur) (hjti : draft.jti = jti)
    (hname : name ∈ draft.filesFetched) :
    let r := ClaimPhase.step fmt (.markOpenTmp jti draft) d
    r.2.Live jti cur ∧ Onward jti d r.2 cur cur draft ∧ Marking jti r.2 cur draft name r.1 := by
  dsimp only [ClaimPhase.step]
  rw [hjti]
  cases hino : d.ino (.sidecarTmp jti) with
  | none =>
    rw [Folder.openTrunc_of_none hino]
    have htmp := Folder.read_create d (.text 0) hino (.sidecarTmp jti)
    have hside := Folder.read_create d (.text 0) hino (.sidecar jti)
    rw [if_pos rfl] at htmp
    rw [if_neg (by simp), hlive.read] at hside
    have hlaid : TmpLaid jti (d.create (.sidecarTmp jti) (.text 0) hino) cur draft := by
      refine ⟨fun hnone => ?_, fun b hb => ?_⟩
      · rw [htmp] at hnone
        cases hnone
      · rw [htmp] at hb
        cases hb
        exact .inl rfl
    exact ⟨⟨hside, hlive.jti⟩, ⟨fun _ hn => hn, fun fd => drafted_update (.inl rfl),
      fun _ => hlaid, id⟩, .writing hname hlaid _ (.inl (Folder.content_create_next ..))⟩
  | some i =>
    rw [Folder.openTrunc_of_some hino]
    have htmp := Folder.read_put d i (.text 0) (.sidecarTmp jti)
    have hside := Folder.read_put d i (.text 0) (.sidecar jti)
    rw [if_pos hino] at htmp
    have hother : d.ino (.sidecar jti) ≠ some i := by
      intro hs
      have hsame := Folder.ino_inj hs hino
      cases hsame
    rw [if_neg hother, hlive.read] at hside
    have hlaid : TmpLaid jti (d.put i (.text 0)) cur draft := by
      refine ⟨fun hnone => ?_, fun b hb => ?_⟩
      · rw [htmp] at hnone
        cases hnone
      · rw [htmp] at hb
        cases hb
        exact .inl rfl
    exact ⟨⟨hside, hlive.jti⟩, ⟨fun _ hn => hn, fun fd => drafted_update (.inl rfl),
      fun _ => hlaid, id⟩, .writing hname hlaid _ (.inl (Function.update_self ..))⟩

/-- The draft is written, into the temporary file or into what has become of it. -/
theorem writeTmp_onward (hlive : d.Live jti cur) (hname : name ∈ draft.filesFetched)
    (hlaid : TmpLaid jti d cur draft) {fd : Nat} (hfd : Drafted draft (d.content fd)) :
    let r := ClaimPhase.step fmt (.markWriteTmp jti draft fd) d
    r.2.Live jti cur ∧ Onward jti d r.2 cur cur draft ∧ Marking jti r.2 cur draft name r.1 := by
  dsimp only [ClaimPhase.step, write]
  rw [overwrite_drafted fmt hfd]
  have htmp := Folder.read_put d fd (.record draft) (.sidecarTmp jti)
  have hside := Folder.read_put d fd (.record draft) (.sidecar jti)
  have hput : TmpLaid jti (d.put fd (.record draft)) cur draft := by
    refine ⟨fun hnone => ?_, fun b hb => ?_⟩
    · rw [Folder.read_eq_none, Folder.ino_put] at hnone
      exact hlaid.gone (Folder.read_eq_none.mpr hnone)
    · rw [htmp] at hb
      split at hb
      · cases hb
        exact .inr rfl
      · exact hlaid.there b hb
  refine ⟨⟨?_, hlive.jti⟩,
    ⟨fun _ hn => hn, fun fd' => drafted_update (.inr rfl), fun _ => hput, id⟩,
    .replacing hname hput⟩
  rw [hside]
  split
  · next hino =>
    have hcontent : d.content fd = .record cur := by
      have hread := hlive.read
      rw [Folder.read, hino] at hread
      exact Option.some.inj hread
    rw [hcontent] at hfd
    rcases hfd with hfd | hfd
    · cases hfd
    · rw [hfd]
  · exact hlive.read

/-- The draft is put in place, or another call has done so. -/
theorem replace_onward (hlive : d.Live jti cur) (hjti : draft.jti = jti)
    (hsub : ∀ n ∈ cur.filesFetched, n ∈ draft.filesFetched) (hname : name ∈ draft.filesFetched)
    (hlaid : TmpLaid jti d cur draft)
    (hwhole : ∀ b ∈ d.read (.sidecarTmp jti), parse b ≠ none) :
    let r := ClaimPhase.step fmt (.markReplace jti draft) d
    ∃ cur', r.2.Live jti cur' ∧ (∀ n ∈ cur'.filesFetched, n ∈ draft.filesFetched) ∧
      Onward jti d r.2 cur cur' draft ∧ Marking jti r.2 cur' draft name r.1 := by
  dsimp only [ClaimPhase.step]
  rw [hjti]
  cases hino : d.ino (.sidecarTmp jti) with
  | none =>
    rw [Folder.replace_of_none hino]
    have hcur := hlaid.gone (Folder.read_eq_none.mpr hino)
    exact ⟨cur, hlive, hsub, .refl .., .unlinking hname hcur⟩
  | some i =>
    rw [Folder.replace_of_some hino]
    have hne : ClaimFile.sidecarTmp jti ≠ .sidecar jti := by simp
    have htmp := Folder.read_moveTo d hino hne (.sidecarTmp jti)
    have hside := Folder.read_moveTo d hino hne (.sidecar jti)
    rw [if_neg hne, if_pos rfl] at htmp
    rw [if_pos rfl] at hside
    have hread : d.read (.sidecarTmp jti) = some (d.content i) := by
      rw [Folder.read, hino]
      rfl
    have hcontent : d.content i = .record draft := by
      rcases hlaid.there _ hread with htorn | hrecord
      · exact absurd (by rw [htorn]; rfl) (hwhole _ hread)
      · exact hrecord
    refine ⟨draft, ⟨hside.trans (by rw [hcontent]), hjti⟩, fun _ hn => hn,
      ⟨hsub, fun _ hfd => hfd, fun _ => ⟨fun _ => rfl, fun b hb => ?_⟩, fun _ => rfl⟩,
      .marked hname draft⟩
    rw [htmp] at hb
    cases hb

/-- A call that was overtaken removes what is left of its temporary file. -/
theorem unlinkTmp_onward (hlive : d.Live jti cur) (hjti : draft.jti = jti)
    (hname : name ∈ draft.filesFetched) (hcur : cur = draft) :
    let r := ClaimPhase.step fmt (.markUnlinkTmp jti draft) d
    r.2.Live jti cur ∧ Onward jti d r.2 cur cur draft ∧ Marking jti r.2 cur draft name r.1 := by
  dsimp only [ClaimPhase.step]
  rw [hjti]
  have htmp := Folder.read_unlink d (.sidecarTmp jti) (.sidecarTmp jti)
  have hside := Folder.read_unlink d (.sidecarTmp jti) (.sidecar jti)
  rw [if_pos rfl] at htmp
  rw [if_neg (by simp), hlive.read] at hside
  refine ⟨⟨hside, hlive.jti⟩, ⟨fun _ hn => hn, fun _ hfd => hfd, fun _ => ⟨fun _ => hcur, ?_⟩, id⟩,
    .overtaken (hcur ▸ hname)⟩
  intro b hb
  rw [htmp] at hb
  cases hb

end Calls

/-! ## All operations -/

namespace ClaimRace

variable {fmt : ClaimFormat} {jti : Id} {names : List String} {s : ClaimRace}

private theorem turn_of_none {i : Nat} (h : s.ops[i]? = none) : s.turn fmt i = s := by
  simp only [turn, step, h]

private theorem turn_of_some {i : Nat} {ph : ClaimPhase} (h : s.ops[i]? = some ph) :
    s.turn fmt i = ⟨(ph.step fmt s.dir).2, s.ops.set i (ph.step fmt s.dir).1⟩ := by
  simp only [turn, step, h]

/-- All operations mark names on one claim, and no name in the record is missing from the
draft. -/
structure Marked (jti : Id) (names : List String) (cur draft : ClaimRecord) (s : ClaimRace) :
    Prop where
  live : s.dir.Live jti cur
  own : draft.jti = jti
  sub : ∀ n ∈ cur.filesFetched, n ∈ draft.filesFetched
  length : s.ops.length = names.length
  ops : ∀ (k : Nat) (n : String) (ph : ClaimPhase), names[k]? = some n → s.ops[k]? = some ph →
    Marking jti s.dir cur draft n ph

private theorem marked_marks {d : ClaimDir} {claim : ClaimRecord} (h : d.Live jti claim) :
    (marks d jti names).Marked jti names claim claim := by
  refine ⟨h, h.jti, fun _ hn => hn, by simp [marks], fun k n ph hn hph => ?_⟩
  have hops : (marks d jti names).ops[k]? = some (.markRead jti n) := by
    simp [marks, hn]
  rw [hops] at hph
  cases hph
  exact .reading

variable {cur draft : ClaimRecord}

/-- One operation has moved, and has left the others what they need. -/
theorem Marked.moved (h : s.Marked jti names cur draft) {i : Nat} {name : String}
    {ph : ClaimPhase} {d' : ClaimDir} {cur' : ClaimRecord} (hi : i < s.ops.length)
    (hname : names[i]? = some name) (hlive : d'.Live jti cur')
    (hsub : ∀ n ∈ cur'.filesFetched, n ∈ draft.filesFetched)
    (ho : Onward jti s.dir d' cur cur' draft) (hm : Marking jti d' cur' draft name ph) :
    Marked jti names cur' draft ⟨d', s.ops.set i ph⟩ := by
  refine ⟨hlive, h.own, hsub, by simp [h.length], fun k n q hn hq => ?_⟩
  rw [List.getElem?_set] at hq
  split at hq
  · next hik =>
    subst hik
    cases hq
    rw [hname] at hn
    cases hn
    exact hm
  · exact (h.ops k n q hn hq).onward ho

/-- A name is read to be added, and the draft is the one this leads to. -/
theorem Marked.redraft (h : s.Marked jti names cur draft) {name : String}
    (hclear : ∀ ph ∈ s.ops, ph.draft = none ∨ ph.draft = some (cur.withName name)) :
    s.Marked jti names cur (cur.withName name) :=
  ⟨h.live, h.live.jti, fun _ hn => List.mem_append_left _ hn, h.length, fun k n ph hn hph =>
    (h.ops k n ph hn hph).redraft (hclear ph (List.mem_of_getElem? hph))⟩

/-- One call keeps all that was marked. -/
theorem Marked.turn (fmt : ClaimFormat) (h : s.Marked jti names cur draft) {i : Nat}
    (hclear : s.Clear i) :
    ∃ cur' draft', (s.turn fmt i).Marked jti names cur' draft' ∧
      ∀ n ∈ cur.filesFetched, n ∈ cur'.filesFetched := by
  cases hops : s.ops[i]? with
  | none =>
    rw [turn_of_none hops]
    exact ⟨cur, draft, h, fun _ hn => hn⟩
  | some ph =>
    rw [turn_of_some hops]
    obtain ⟨hi, -⟩ := List.getElem?_eq_some_iff.mp hops
    obtain ⟨name, hname⟩ : ∃ name, names[i]? = some name :=
      ⟨_, List.getElem?_eq_getElem (h.length ▸ hi)⟩
    have hph := h.ops i name ph hname hops
    have hnext := hclear ph hops
    cases hph with
    | reading =>
      have hrefl := Onward.refl jti s.dir cur
      dsimp only [ClaimPhase.step]
      rw [h.live.get]
      dsimp only
      split
      · next hmem =>
        exact ⟨cur, draft, h.moved hi hname h.live h.sub (hrefl draft) (.marked hmem cur),
          fun _ hn => hn⟩
      · next hmem =>
        have hnew := h.redraft (hnext cur (by rw [h.live.get]; rfl) hmem)
        refine ⟨cur, cur.withName name, hnew.moved hi hname h.live hnew.sub (hrefl _)
          (.opening (List.mem_append_right _ (.head _))), fun _ hn => hn⟩
    | opening hmem =>
      obtain ⟨hlive, ho, hm⟩ := openTmp_onward fmt h.live h.own hmem
      exact ⟨cur, draft, h.moved hi hname hlive h.sub ho hm, ho.names⟩
    | writing hmem hlaid fd hfd =>
      obtain ⟨hlive, ho, hm⟩ := writeTmp_onward fmt h.live hmem hlaid hfd
      exact ⟨cur, draft, h.moved hi hname hlive h.sub ho hm, ho.names⟩
    | replacing hmem hlaid =>
      obtain ⟨cur', hlive, hsub, ho, hm⟩ :=
        replace_onward fmt h.live h.own h.sub hmem hlaid hnext
      exact ⟨cur', draft, h.moved hi hname hlive hsub ho hm, ho.names⟩
    | unlinking hmem hcur =>
      obtain ⟨hlive, ho, hm⟩ := unlinkTmp_onward fmt h.live h.own hmem hcur
      exact ⟨cur, draft, h.moved hi hname hlive h.sub ho hm, ho.names⟩
    | marked hmem claim =>
      exact ⟨cur, draft, h.moved hi hname h.live h.sub (.refl ..) (.marked hmem claim),
        fun _ hn => hn⟩
    | overtaken hmem =>
      exact ⟨cur, draft, h.moved hi hname h.live h.sub (.refl ..) (.overtaken hmem),
        fun _ hn => hn⟩

/-- In every run of marks on a live claim whose calls are all clear, the sidecar parses in every
state reached, and it keeps the names it had and gets the name of each call that has returned;
once all have returned every name is in it. -/
theorem marks_kept (fmt : ClaimFormat) {d : ClaimDir} {jti : Id} {claim : ClaimRecord}
    (hlive : d.Live jti claim) (names : List String) (calls : List Nat)
    (h : Runs.Guarded (ClaimRace.turn fmt) Clear (marks d jti names) calls) :
    let s := Runs.run (ClaimRace.turn fmt) (marks d jti names) calls
    ∃ cur, s.dir.get jti = some (some cur) ∧
      (∀ n ∈ claim.filesFetched, n ∈ cur.filesFetched) ∧
      (∀ (k : Nat) (n : String) (ph : ClaimPhase), names[k]? = some n → s.ops[k]? = some ph →
        ph.finished = true → n ∈ cur.filesFetched) ∧
      ((∀ ph ∈ s.ops, ph.finished = true) → ∀ n ∈ names, n ∈ cur.filesFetched) := by
  have hrun := h.invariant
    (I := fun s => ∃ cur draft, s.Marked jti names cur draft ∧
      ∀ n ∈ claim.filesFetched, n ∈ cur.filesFetched)
    (fun s i ⟨cur, draft, hs, hn⟩ hclear => by
      obtain ⟨cur', draft', hs', hn'⟩ := hs.turn fmt hclear
      exact ⟨cur', draft', hs', fun n hm => hn' n (hn n hm)⟩)
    ⟨claim, claim, marked_marks hlive, fun _ hn => hn⟩
  intro s
  obtain ⟨cur, draft, hs, hkept⟩ := hrun
  have hone : ∀ (k : Nat) (n : String) (ph : ClaimPhase), names[k]? = some n →
      s.ops[k]? = some ph → ph.finished = true → n ∈ cur.filesFetched :=
    fun k n ph hn hph hf => (hs.ops k n ph hn hph).mem_of_finished hf
  refine ⟨cur, hs.live.get, hkept, hone, fun hall n hn => ?_⟩
  obtain ⟨k, hk⟩ := List.mem_iff_getElem?.mp hn
  obtain ⟨hlt, -⟩ := List.getElem?_eq_some_iff.mp hk
  have hph : s.ops[k]? = some (s.ops.get ⟨k, hs.length ▸ hlt⟩) := List.getElem?_eq_getElem _
  exact hone k n _ hk hph (hall _ (List.mem_of_getElem? hph))

/-- The directory after one claim was issued. -/
def issuedDir : ClaimDir :=
  (Runs.run (step .sample) init (.issue (sampleClaim 1) :: fourCalls 0)).dir

private theorem issuedDir_live : issuedDir.Live 1 (sampleClaim 1) := ⟨by decide +kernel, rfl⟩

/-- Two downloads one after the other, and a third that repeats the name of the second. -/
theorem marks_kept_sample : ∃ cur,
    (Runs.run (ClaimRace.turn .sample) (marks issuedDir 1 ["a.txt", "b.txt", "b.txt"])
      [0, 0, 0, 0, 1, 2, 1, 1, 1, 2, 2, 2]).dir.get 1 = some (some cur) ∧
        "a.txt" ∈ cur.filesFetched := by
  obtain ⟨cur, hget, -, -, hall⟩ := marks_kept .sample issuedDir_live ["a.txt", "b.txt", "b.txt"]
    [0, 0, 0, 0, 1, 2, 1, 1, 1, 2, 2, 2] (by decide +kernel)
  exact ⟨cur, hget, hall (by decide +kernel) "a.txt" (.head _)⟩

/-- Two downloads read the record before either has put its own in place: both calls return and
the first name is lost. When one truncates the temporary file between the write and the replace
of the other, the sidecar does not parse. -/
theorem marks_lost :
    issuedDir.Live 1 (sampleClaim 1) ∧
    ((∀ ph ∈ (Runs.run (ClaimRace.turn .sample) (marks issuedDir 1 ["a.txt", "b.txt"])
        [0, 1, 0, 0, 0, 1, 1, 1]).ops, ph.finished = true) ∧
      (Runs.run (ClaimRace.turn .sample) (marks issuedDir 1 ["a.txt", "b.txt"])
        [0, 1, 0, 0, 0, 1, 1, 1]).dir.get 1 =
          some (some ((sampleClaim 1).withName "b.txt"))) ∧
    (Runs.run (ClaimRace.turn .sample) (marks issuedDir 1 ["a.txt", "b.txt"])
      [0, 1, 0, 0, 1, 0]).dir.get 1 = some none :=
  ⟨issuedDir_live, by decide +kernel, by decide +kernel⟩

end ClaimRace

end Cassetta
