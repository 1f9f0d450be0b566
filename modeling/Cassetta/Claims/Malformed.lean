import Cassetta.Claims.Sidecars
import Cassetta.Core.Percent

/-!
# One bad sidecar

A file that is no claim is passed over as long as `_parse` fails with a `ValueError` on it. It
fails otherwise when a field is missing, when `files_fetched` is no container, or when the file is
nested too deeply, and then nothing is listed and nothing is swept; and it does not fail where a
member is of another type, and then what is no claim is listed as one.
-/

namespace Cassetta

/-- The exceptions that `iter_all` catches. -/
def SidecarError.Caught (e : SidecarError) : Prop := e = .valueError ∨ e = .osError

namespace Sidecar

variable {σ : Type} (h : Host σ)

/-! ## Well-formed claims -/

/-- A JSON string of Unicode characters, without a surrogate on its own. -/
def stringOf : Json → Option PyStr
  | .str s => if s.all fun c => c.isValidChar then some s else none
  | _ => none

/-- The string at a key. -/
def stringAt (data : List (PyStr × Json)) (key : String) : Option PyStr :=
  (Json.getMember data key).bind stringOf

/-- The strings at `files_fetched`, which may be left out. -/
def namesAt (data : List (PyStr × Json)) : Option (List Json) :=
  match Json.getMember data "files_fetched" with
  | none => some []
  | some (.arr names) => if names.all fun v => (stringOf v).isSome then some names else none
  | some _ => none

/-- The version is the integer 1. -/
def versionOne (data : List (PyStr × Json)) : Bool :=
  match Json.getMember data "schema_version" with
  | some (.num (.int 1)) => true
  | _ => false

/-- The claim that the members of a JSON object are. -/
def ofMembers (data : List (PyStr × Json)) : Option Sidecar := do
  let jti ← stringAt data "jti"
  let bundlePath ← stringAt data "bundle_path"
  let bundleId ← stringAt data "bundle_id"
  let recipient ← stringAt data "recipient"
  let createdAt ← stringAt data "created_at"
  let filesFetched ← namesAt data
  return { jti, bundlePath, bundleId, recipient, createdAt, filesFetched }

/-- The claim that a file holds when it is a well-formed one of schema version 1. -/
def claimIn (body : Bytes) : Option Sidecar := do
  let decoded ← String.fromUTF8? body.toByteArray
  match Json.loads h.depth decoded with
  | .ok (.obj data) => if versionOne data then ofMembers data else none
  | _ => none

/-- The fields every claim has. -/
def requiredFields : List String := ["jti", "bundle_path", "bundle_id", "recipient", "created_at"]

/-- The members of a claim are there, each of its type. -/
structure WellTyped (data : List (PyStr × Json)) : Prop where
  version : versionOne data = true
  fields : ∀ key ∈ requiredFields, (stringAt data key).isSome
  names : (namesAt data).isSome

/-- A file on which `_parse` does not fail with an exception that is caught, although it is no
claim: JSON that is nested too deeply, or an object with a version that Python takes for 1 and
without the members of a claim. -/
def Strays (body : Bytes) : Prop :=
  ∃ decoded, String.fromUTF8? body.toByteArray = some decoded ∧
    (Json.loads h.depth decoded = .error .recursionError ∨
      ∃ data, Json.loads h.depth decoded = .ok (.obj data) ∧
        if versionOk data = true then ¬WellTyped data
        else h.repr ((Json.getMember data "schema_version").getD .null) = none)

/-! ## Parsing -/

variable {h}

/-- Whatever a step of `_parse` fails with is not caught. -/
def Uncaught {α : Type} (x : Except SidecarError α) : Prop := ∀ e, x = .error e → ¬e.Caught

/-- What neither of two steps fails with, both together do not. -/
theorem Uncaught.bind {α β : Type} {x : Except SidecarError α} {f : α → Except SidecarError β}
    (hx : Uncaught x) (hf : ∀ a, Uncaught (f a)) : Uncaught (x >>= f) := by
  cases x with
  | ok a => exact hf a
  | error e =>
    rintro _ ⟨⟩
    exact hx e rfl

private theorem uncaught_str (v : Json) : Uncaught (str h v) := by
  cases v with
  | str s => exact nofun
  | _ =>
    unfold str
    dsimp only
    split
    · exact nofun
    · rintro _ ⟨⟩
      simp [SidecarError.Caught]

private theorem uncaught_field (data : List (PyStr × Json)) (key : String) :
    Uncaught (field h data key) := by
  unfold field
  cases Json.getMember data key with
  | none =>
    rintro _ ⟨⟩
    simp [SidecarError.Caught]
  | some v => exact uncaught_str v

private theorem uncaught_filesOf (data : List (PyStr × Json)) : Uncaught (filesOf data) := by
  unfold filesOf
  cases Json.getMember data "files_fetched" with
  | none => exact nofun
  | some v =>
    cases v with
    | arr items => exact nofun
    | str s => exact nofun
    | obj members => exact nofun
    | _ =>
      rintro _ ⟨⟩
      simp [SidecarError.Caught]

/-- What an object of the right version fails with is not caught. -/
theorem uncaught_ofObject (data : List (PyStr × Json)) : Uncaught (ofObject h data) :=
  (uncaught_field data _).bind fun _ => (uncaught_field data _).bind fun _ =>
    (uncaught_field data _).bind fun _ => (uncaught_field data _).bind fun _ =>
      (uncaught_field data _).bind fun _ => (uncaught_filesOf data).bind fun _ => nofun

private theorem field_of_stringAt {data : List (PyStr × Json)} {key : String} {s : PyStr}
    (hs : stringAt data key = some s) : field h data key = .ok s := by
  obtain ⟨v, hv, hstring⟩ := Option.bind_eq_some_iff.mp hs
  rw [field, hv]
  cases v with
  | str s' =>
    rw [stringOf, Option.ite_none_right_eq_some] at hstring
    exact congrArg Except.ok (Option.some.inj hstring.2)
  | _ => cases hstring

private theorem filesOf_of_namesAt {data : List (PyStr × Json)} {names : List Json}
    (hn : namesAt data = some names) : filesOf data = .ok names := by
  unfold namesAt at hn
  unfold filesOf
  cases hv : Json.getMember data "files_fetched" with
  | none =>
    rw [hv] at hn
    exact congrArg Except.ok (Option.some.inj hn)
  | some v =>
    rw [hv] at hn
    cases v with
    | arr items =>
      dsimp only at hn
      split at hn
      · exact congrArg Except.ok (Option.some.inj hn)
      · cases hn
    | _ => cases hn

/-- The members of a claim are the claim that is parsed. -/
theorem WellTyped.exists_claim {data : List (PyStr × Json)} (hw : WellTyped data) :
    ∃ claim, ofMembers data = some claim ∧ ofObject h data = .ok claim := by
  have hfield : ∀ key ∈ requiredFields, ∃ s, stringAt data key = some s := fun key hkey =>
    Option.isSome_iff_exists.mp (hw.fields key hkey)
  obtain ⟨jti, hjti⟩ := hfield "jti" (by decide)
  obtain ⟨bundlePath, hbundlePath⟩ := hfield "bundle_path" (by decide)
  obtain ⟨bundleId, hbundleId⟩ := hfield "bundle_id" (by decide)
  obtain ⟨recipient, hrecipient⟩ := hfield "recipient" (by decide)
  obtain ⟨createdAt, hcreatedAt⟩ := hfield "created_at" (by decide)
  obtain ⟨filesFetched, hnames⟩ := Option.isSome_iff_exists.mp hw.names
  refine ⟨{ jti, bundlePath, bundleId, recipient, createdAt, filesFetched }, ?_, ?_⟩
  · rw [ofMembers, hjti, hbundlePath, hbundleId, hrecipient, hcreatedAt, hnames]
    rfl
  · rw [ofObject, field_of_stringAt hjti, field_of_stringAt hbundlePath,
      field_of_stringAt hbundleId, field_of_stringAt hrecipient, field_of_stringAt hcreatedAt,
      filesOf_of_namesAt hnames]
    rfl

/-- Members that are a claim have the types of one. -/
theorem wellTyped_of_ofMembers {data : List (PyStr × Json)} (hv : versionOne data = true)
    {claim : Sidecar} (hm : ofMembers data = some claim) : WellTyped data := by
  simp only [ofMembers, Option.bind_eq_bind, Option.bind_eq_some_iff] at hm
  obtain ⟨jti, hjti, bundlePath, hbundlePath, bundleId, hbundleId, recipient, hrecipient,
    createdAt, hcreatedAt, names, hnames, -⟩ := hm
  refine ⟨hv, ?_, by rw [hnames]; rfl⟩
  simp [requiredFields, hjti, hbundlePath, hbundleId, hrecipient, hcreatedAt]

private theorem versionOk_of_versionOne {data : List (PyStr × Json)} (hv : versionOne data = true) :
    versionOk data = true := by
  unfold versionOne at hv
  split at hv
  · next heq =>
    rw [versionOk, heq]
    rfl
  · cases hv

/-- A file holds a claim, or it is passed over, or it strays: `_parse` takes it for a claim, or
fails with an exception that is not caught. -/
theorem parse_cases (body : Bytes) :
    (∃ claim, parse h body = .ok claim ∧ claimIn h body = some claim ∧ ¬Strays h body) ∨
      (parse h body = .error .valueError ∧ claimIn h body = none ∧ ¬Strays h body) ∨
      claimIn h body = none ∧ Strays h body ∧
        ((∃ claim, parse h body = .ok claim) ∨ ∃ e, parse h body = .error e ∧ ¬e.Caught) := by
  unfold parse claimIn Strays
  cases String.fromUTF8? body.toByteArray with
  | none => exact .inr (.inl ⟨rfl, rfl, by simp⟩)
  | some decoded =>
    simp only [Option.some.injEq, exists_eq_left', Option.bind_eq_bind, Option.bind_some]
    cases Json.loads h.depth decoded with
    | error e =>
      cases e with
      | valueError => exact .inr (.inl ⟨rfl, rfl, by simp⟩)
      | recursionError =>
        exact .inr
          (.inr ⟨rfl, .inl rfl, .inr ⟨.recursionError, rfl, by simp [SidecarError.Caught]⟩⟩)
    | ok v =>
      cases v with
      | obj data =>
        simp only [reduceCtorEq, Except.ok.injEq, Json.obj.injEq, exists_eq_left', false_or]
        cases hok : versionOk data with
        | true =>
          simp only [if_true]
          by_cases hw : WellTyped data
          · obtain ⟨claim, hm, hp⟩ := hw.exists_claim (h := h)
            rw [if_pos hw.version]
            exact .inl ⟨claim, hp, hm, not_not.mpr hw⟩
          · refine .inr (.inr ⟨?_, hw, ?_⟩)
            · split
              · next hv =>
                cases hm : ofMembers data with
                | none => rfl
                | some claim => exact absurd (wellTyped_of_ofMembers hv hm) hw
              · rfl
            · cases hp : ofObject h data with
              | ok claim => exact .inl ⟨claim, rfl⟩
              | error e => exact .inr ⟨e, rfl, uncaught_ofObject data e hp⟩
        | false =>
          have hv : versionOne data = false := by
            rw [Bool.eq_false_iff]
            intro hv
            rw [versionOk_of_versionOne hv] at hok
            cases hok
          simp only [hv, Bool.false_eq_true, if_false]
          cases h.repr ((Json.getMember data "schema_version").getD .null) with
          | some s => exact .inr (.inl ⟨rfl, trivial, nofun⟩)
          | none =>
            exact .inr (.inr ⟨trivial, rfl,
              .inr ⟨.recursionError, rfl, by simp [SidecarError.Caught]⟩⟩)
      | _ => exact .inr (.inl ⟨rfl, rfl, by simp⟩)

/-! ## Listing -/

variable (h)

/-- The claim that an entry of the directory holds. -/
def claimAt (dir : Folder PyStr Bytes) (name : PyStr) : Option Sidecar :=
  if isSidecarName name then (dir.read name).bind (claimIn h) else none

/-- An entry that is named like a sidecar and holds no claim. -/
def malformed (dir : Folder PyStr Bytes) (name : PyStr) : Bool :=
  isSidecarName name && (dir.read name).any fun body => (claimIn h body).isNone

/-- The directory without the malformed files. -/
def withoutMalformed (dir : Folder PyStr Bytes) : Folder PyStr Bytes :=
  (dir.names.filter (malformed h dir)).foldl Folder.unlink dir

/-- An entry that is named like a sidecar is a file that strays. -/
def StraysAt (dir : Folder PyStr Bytes) (name : PyStr) : Prop :=
  isSidecarName name = true ∧ ∃ body, dir.read name = some body ∧ Strays h body

/-- No file strays. -/
def Contained (dir : Folder PyStr Bytes) : Prop := ∀ name ∈ dir.names, ¬StraysAt h dir name

variable {h} {dir : Folder PyStr Bytes}

variable (h dir) in
/-- An entry yields its claim, or is passed over, or strays: then something else is yielded, or
the listing ends. -/
theorem iterOver_cons (first : PyStr) (rest : List PyStr) :
    (∃ claim, claimAt h dir first = some claim ∧ ¬StraysAt h dir first ∧
        iterOver h dir (first :: rest) =
          (claim :: (iterOver h dir rest).1, (iterOver h dir rest).2)) ∨
      (claimAt h dir first = none ∧ ¬StraysAt h dir first ∧
        iterOver h dir (first :: rest) = iterOver h dir rest) ∨
      claimAt h dir first = none ∧ StraysAt h dir first ∧
        ((∃ claim, iterOver h dir (first :: rest) =
            (claim :: (iterOver h dir rest).1, (iterOver h dir rest).2)) ∨
          (iterOver h dir (first :: rest)).2 ≠ none) := by
  unfold claimAt StraysAt
  rw [iterOver]
  by_cases hname : isSidecarName first = true
  swap
  · exact .inr (.inl ⟨if_neg hname, fun hs => hname hs.1, if_neg hname⟩)
  rw [if_pos hname, if_pos hname, and_iff_right hname]
  cases hread : dir.read first with
  | none => exact .inr (.inl ⟨rfl, by simp, rfl⟩)
  | some body =>
    simp only [Option.bind_some, Option.some.injEq, exists_eq_left']
    rcases parse_cases (h := h) body with ⟨claim, hp, hc, hnot⟩ | ⟨hp, hc, hnot⟩ |
      ⟨hc, hs, ⟨claim, hp⟩ | ⟨e, hp, hcaught⟩⟩
    · rw [hp]
      exact .inl ⟨claim, hc, hnot, rfl⟩
    · rw [hp]
      exact .inr (.inl ⟨hc, hnot, rfl⟩)
    · rw [hp]
      exact .inr (.inr ⟨hc, hs, .inl ⟨claim, rfl⟩⟩)
    · rw [hp]
      refine .inr (.inr ⟨hc, hs, .inr ?_⟩)
      cases e with
      | valueError => exact absurd (.inl rfl) hcaught
      | osError => exact absurd (.inr rfl) hcaught
      | _ => simp

/-- A listing that comes to its end has at least the claims. -/
theorem length_le_iterOver {names : List PyStr} (hend : (iterOver h dir names).2 = none) :
    (names.filterMap (claimAt h dir)).length ≤ (iterOver h dir names).1.length := by
  induction names with
  | nil => exact le_refl _
  | cons first rest ih =>
    rcases iterOver_cons h dir first rest with ⟨claim, hc, -, heq⟩ |
      ⟨hc, -, heq⟩ | ⟨hc, -, ⟨claim, heq⟩ | hne⟩
    · rw [heq] at hend ⊢
      rw [List.filterMap_cons_some hc]
      exact Nat.succ_le_succ (ih hend)
    · rw [heq] at hend ⊢
      rw [List.filterMap_cons_none hc]
      exact ih hend
    · rw [heq] at hend ⊢
      rw [List.filterMap_cons_none hc]
      exact (ih hend).trans (Nat.le_succ _)
    · exact absurd hend hne

/-- What is yielded is the claims, exactly when no entry strays. -/
theorem iterOver_eq_iff {names : List PyStr} :
    iterOver h dir names = (names.filterMap (claimAt h dir), none) ↔
      ∀ name ∈ names, ¬StraysAt h dir name := by
  induction names with
  | nil => exact iff_of_true rfl (by simp)
  | cons first rest ih =>
    rw [List.forall_mem_cons]
    rcases iterOver_cons h dir first rest with ⟨claim, hc, hnot, heq⟩ |
      ⟨hc, hnot, heq⟩ | ⟨hc, hs, ⟨claim, heq⟩ | hne⟩
    · rw [heq, List.filterMap_cons_some hc, and_iff_right hnot, ← ih]
      simp [Prod.ext_iff]
    · rw [heq, List.filterMap_cons_none hc, and_iff_right hnot, ← ih]
    · refine iff_of_false (fun hall => ?_) fun hall => hall.1 hs
      rw [heq, List.filterMap_cons_none hc, Prod.mk.injEq] at hall
      have hlen := length_le_iterOver hall.2
      rw [← hall.1] at hlen
      exact absurd hlen (Nat.not_succ_le_self _)
    · refine iff_of_false (fun hall => hne ?_) fun hall => hall.1 hs
      rw [hall]

/-- `iter_all` yields the claims and nothing else, exactly when no file strays. -/
theorem iterAll_eq_iff :
    iterAll h dir = (dir.names.filterMap (claimAt h dir), none) ↔ Contained h dir :=
  iterOver_eq_iff

private theorem read_withoutMalformed (name : PyStr) : (withoutMalformed h dir).read name =
    if name ∈ dir.names.filter (malformed h dir) then none else dir.read name := by
  rw [withoutMalformed, Folder.read_foldl_unlink]
  by_cases hbad : name ∈ dir.names.filter (malformed h dir)
  · rw [if_pos hbad, if_pos hbad]
  · rw [if_neg hbad, if_neg hbad]

/-- Without the malformed files the same claims are listed. -/
theorem filterMap_withoutMalformed :
    (withoutMalformed h dir).names.filterMap (claimAt h (withoutMalformed h dir)) =
      dir.names.filterMap (claimAt h dir) := by
  rw [withoutMalformed, Folder.names_foldl_unlink, List.filterMap_filter, ← withoutMalformed]
  refine List.filterMap_congr fun name hmem => ?_
  rw [claimAt, read_withoutMalformed]
  by_cases hbad : name ∈ dir.names.filter (malformed h dir)
  · have hmal := (List.mem_filter.mp hbad).2
    rw [malformed, Bool.and_eq_true, Option.any_eq_true] at hmal
    obtain ⟨hname, body, hread, hnone⟩ := hmal
    rw [if_neg (by simp [hbad]), claimAt, if_pos hname, hread]
    exact (Option.isNone_iff_eq_none.mp hnone).symm
  · rw [if_pos (by simp [hbad]), if_neg hbad, claimAt]

/-- Where no file strays, none does without the malformed ones. -/
theorem Contained.without (hc : Contained h dir) :
    Contained h (withoutMalformed h dir) := by
  rintro name hmem ⟨hname, body, hread, hs⟩
  rw [withoutMalformed, Folder.names_foldl_unlink] at hmem
  rw [read_withoutMalformed] at hread
  split at hread
  · cases hread
  · exact hc name (List.mem_filter.mp hmem).1 ⟨hname, body, hread, hs⟩

/-- Without the malformed files the listing is the same. -/
theorem Contained.iterAll_withoutMalformed (hc : Contained h dir) :
    iterAll h (withoutMalformed h dir) = iterAll h dir := by
  rw [iterAll_eq_iff.mpr hc, iterAll_eq_iff.mpr hc.without, filterMap_withoutMalformed]

/-! ## Sweeping -/

variable (h)

/-- The second world lacks some files of the first, on all of which `_parse` fails with a
`ValueError`. -/
structure Lacks (bad : List PyStr) (w w' : ClaimsWorld σ) : Prop where
  rest : w'.rest = w.rest
  read : ∀ k, w'.dir.read k = if k ∈ bad then none else w.dir.read k
  skipped : ∀ k ∈ bad, ∀ body, w.dir.read k = some body → parse h body = .error .valueError

/-- The same outcome in two worlds of which one lacks some files of the other. -/
def Alike (bad : List PyStr) (r r' : Except SidecarError Unit × ClaimsWorld σ) : Prop :=
  r'.1 = r.1 ∧ Lacks h bad r.2 r'.2

variable {h} {bad : List PyStr} {w w' : ClaimsWorld σ}

/-- Nothing is done in either world. -/
theorem Lacks.alike (hw : Lacks h bad w w') (r : Except SidecarError Unit) :
    Alike h bad (r, w) (r, w') := ⟨rfl, hw⟩

/-- A removal in both worlds. -/
theorem Lacks.unlink (hw : Lacks h bad w w') (k : PyStr) :
    Lacks h bad { w with dir := w.dir.unlink k } { w' with dir := w'.dir.unlink k } where
  rest := hw.rest
  read l := by
    rw [Folder.read_unlink, Folder.read_unlink, hw.read]
    by_cases hl : l = k <;> simp [hl]
  skipped l hl body hbody := by
    rw [Folder.read_unlink] at hbody
    split at hbody
    · cases hbody
    · exact hw.skipped l hl body hbody

private theorem Lacks.setRest (hw : Lacks h bad w w') (rest : σ) :
    Lacks h bad { w with rest } { w' with rest } := ⟨rfl, hw.read, hw.skipped⟩

/-- `get` answers the same, or does not find what it could not parse. -/
theorem Lacks.get (hw : Lacks h bad w w') (jti : PyStr) :
    Sidecar.get h jti w' = Sidecar.get h jti w ∨
      Sidecar.get h jti w' = .ok none ∧ Sidecar.get h jti w = .error .valueError := by
  unfold Sidecar.get
  cases h.entry (path jti) with
  | none =>
    dsimp only
    rw [hw.rest]
    exact .inl rfl
  | some name =>
    dsimp only
    rw [hw.read]
    by_cases hbad : name ∈ bad
    · rw [if_pos hbad]
      cases hread : w.dir.read name with
      | none => exact .inl rfl
      | some body =>
        refine .inr ⟨rfl, ?_⟩
        dsimp only
        rw [hw.skipped name hbad body hread]
        rfl
    · rw [if_neg hbad]
      exact .inl rfl

private theorem Lacks.unlinkSidecar (hw : Lacks h bad w w') (jti : PyStr) :
    Alike h bad (Sidecar.unlink h jti w) (Sidecar.unlink h jti w') := by
  unfold Sidecar.unlink
  cases h.entry (path jti) with
  | some name => exact (hw.unlink name).alike _
  | none =>
    dsimp only
    rw [hw.rest]
    cases h.strayUnlink (path jti) w.rest with
    | ok rest => exact (hw.setRest rest).alike _
    | error e => exact hw.alike _

/-- A delete goes alike in both worlds. -/
theorem Lacks.delete (hw : Lacks h bad w w') (jti : PyStr) :
    Alike h bad (Sidecar.delete h jti w) (Sidecar.delete h jti w') := by
  unfold Sidecar.delete
  rcases hw.get jti with hget | ⟨hget', hget⟩
  · rw [hget]
    cases Sidecar.get h jti w with
    | error e =>
      cases e with
      | valueError => exact hw.unlinkSidecar jti
      | _ => exact hw.alike _
    | ok found =>
      cases found with
      | none => exact hw.unlinkSidecar jti
      | some claim =>
        dsimp only
        cases h.lockName claim.bundlePath with
        | none => exact hw.alike _
        | some lock => exact (hw.unlink lock).unlinkSidecar jti
  · rw [hget', hget]
    exact hw.unlinkSidecar jti

/-- The sweep of one claim goes alike in both worlds. -/
theorem Lacks.sweepOne (hw : Lacks h bad w w') (now : ℚ) (ttl : ℤ) (claim : Sidecar) :
    Alike h bad (Sidecar.sweepOne h now ttl claim w) (Sidecar.sweepOne h now ttl claim w') := by
  unfold Sidecar.sweepOne
  cases h.isoToEpoch claim.createdAt with
  | none => exact hw.delete _
  | some created =>
    dsimp only
    rw [hw.rest]
    split
    · exact hw.alike _
    · cases h.readBundleMeta claim.bundlePath w.rest with
      | error e => exact hw.alike _
      | ok found =>
        cases found with
        | none => exact hw.delete _
        | some names =>
          dsimp only
          split
          · exact hw.alike _
          · split
            · exact (hw.setRest _).delete _
            · obtain ⟨hsame, hlacks⟩ := hw.delete claim.jti
              rcases hd : Sidecar.delete h claim.jti w with ⟨r, v⟩
              rcases hd' : Sidecar.delete h claim.jti w' with ⟨r', v'⟩
              rw [hd, hd'] at hsame hlacks
              dsimp only at hsame hlacks
              subst hsame
              cases r' with
              | error e => exact hlacks.alike _
              | ok u =>
                dsimp only
                split
                · exact hlacks.alike _
                · exact hlacks.alike _

/-- The sweep of several claims goes alike in both worlds. -/
theorem Lacks.sweepEach (hw : Lacks h bad w w') (now : ℚ) (ttl : ℤ) (claims : List Sidecar) :
    Alike h bad (Sidecar.sweepEach h now ttl claims w) (Sidecar.sweepEach h now ttl claims w') := by
  induction claims generalizing w w' with
  | nil => exact hw.alike _
  | cons claim rest ih =>
    unfold Sidecar.sweepEach
    obtain ⟨hsame, hlacks⟩ := hw.sweepOne now ttl claim
    rcases hd : Sidecar.sweepOne h now ttl claim w with ⟨r, v⟩
    rcases hd' : Sidecar.sweepOne h now ttl claim w' with ⟨r', v'⟩
    rw [hd, hd'] at hsame hlacks
    dsimp only at hsame hlacks
    subst hsame
    cases r' with
    | error e => exact hlacks.alike _
    | ok u => exact ih hlacks

/-- A malformed file is skipped when no file strays. -/
theorem Contained.lacks (hc : Contained h w.dir) :
    Lacks h (w.dir.names.filter (malformed h w.dir)) w
      { w with dir := withoutMalformed h w.dir } where
  rest := rfl
  read := read_withoutMalformed
  skipped k hk body hread := by
    obtain ⟨hmem, hbad⟩ := List.mem_filter.mp hk
    rw [malformed, hread, Option.any_some, Bool.and_eq_true, Option.isNone_iff_eq_none] at hbad
    obtain ⟨hname, hnone⟩ := hbad
    rcases parse_cases (h := h) body with ⟨claim, -, hclaim, -⟩ | ⟨hp, -, -⟩ | ⟨-, hs, -⟩
    · rw [hnone] at hclaim
      cases hclaim
    · exact hp
    · exact absurd ⟨hname, body, hread, hs⟩ (hc k hmem)

/-! ## Tolerance -/

variable (h) (w)

/-- A sweep leaves the same behind, the malformed files apart. -/
structure SweptAlike (r r' : Except SidecarError Unit × ClaimsWorld σ) : Prop where
  outcome : r'.1 = r.1
  rest : r'.2.rest = r.2.rest
  read : ∀ k, r'.2.dir.read k = if malformed h w.dir k then none else r.2.dir.read k

/-- What holds no claim is skipped, and listing and sweeping do as if it were not there. -/
structure Tolerant : Prop where
  yields : iterAll h w.dir = (w.dir.names.filterMap (claimAt h w.dir), none)
  active : ∀ now ttl, iterActive h now ttl w.dir =
    iterActive h now ttl (withoutMalformed h w.dir)
  sweep : ∀ now ttl, SweptAlike h w (sweepClaims h now ttl w)
    (sweepClaims h now ttl { w with dir := withoutMalformed h w.dir })

variable {h} {w}

private theorem mem_filter_malformed {k : PyStr} :
    k ∈ dir.names.filter (malformed h dir) ↔ malformed h dir k = true := by
  rw [List.mem_filter, and_iff_right_iff_imp]
  intro hbad
  rw [malformed, Bool.and_eq_true, Option.any_eq_true] at hbad
  obtain ⟨-, body, hread, -⟩ := hbad
  by_contra hmem
  rw [Folder.read_eq_none.mpr (Folder.ino_eq_none.mpr hmem)] at hread
  cases hread

private theorem sweepClaims_of_iterAll {now : ℚ} {ttl : ℤ} {claims : List Sidecar}
    (hall : iterAll h w.dir = (claims, none)) :
    sweepClaims h now ttl w = sweepEach h now ttl claims w := by
  rw [sweepClaims, hall]

private theorem Contained.sweptAlike (hc : Contained h w.dir) (now : ℚ) (ttl : ℤ) :
    SweptAlike h w (sweepClaims h now ttl w)
      (sweepClaims h now ttl { w with dir := withoutMalformed h w.dir }) := by
  have hall := iterAll_eq_iff.mpr hc
  rw [sweepClaims_of_iterAll hall,
    sweepClaims_of_iterAll (hc.iterAll_withoutMalformed.trans hall)]
  obtain ⟨houtcome, hlacks⟩ := hc.lacks.sweepEach now ttl (w.dir.names.filterMap (claimAt h w.dir))
  refine ⟨houtcome, hlacks.rest, fun k => ?_⟩
  rw [hlacks.read]
  simp only [mem_filter_malformed]

variable (h) (w)

/-- A file that is no claim is passed over everywhere, and leaves the others alone, exactly when it
does not stray. -/
theorem tolerant_iff_contained : Tolerant h w ↔ Contained h w.dir := by
  constructor
  · intro ht
    exact iterAll_eq_iff.mp ht.yields
  · intro hc
    refine ⟨iterAll_eq_iff.mpr hc, fun now ttl => ?_, hc.sweptAlike⟩
    rw [iterActive, iterActive, hc.iterAll_withoutMalformed]

/-! ## A claim without fields -/

/-- A host on which every timestamp is the epoch, and every bundle is gone. -/
def bareHost : Host Unit where
  depth := 1000
  repr _ := some []
  isoToEpoch _ := some 0
  lockName bundlePath := some (bundlePath ++ PyStr.ofString ".lock")
  entry := some
  strayRead _ _ := .ok none
  strayUnlink _ := .ok
  readBundleMeta _ _ := .ok none
  deleteBundle _ := id

/-- A claim of bob's on a bundle. -/
def bobsClaim : Sidecar where
  jti := PyStr.ofString "b"
  bundlePath := PyStr.ofString "inbox/bob/x"
  bundleId := PyStr.ofString "x"
  recipient := PyStr.ofString "bob"
  createdAt := PyStr.ofString "1970-01-01"
  filesFetched := []

/-- The file of the claim. -/
def bobsFile : String :=
  "\x7b\"schema_version\": 1, \"jti\": \"b\", \"bundle_path\": \"inbox/bob/x\", " ++
  "\"bundle_id\": \"x\", \"recipient\": \"bob\", \"created_at\": \"1970-01-01\"\x7d"

/-- A file that is cut short. -/
def cutFile : String := "\x7b\"schema_version\": 1\x7d"

/-- A claims directory with two sidecars. -/
def twoFiles (first second : Bytes) : Folder PyStr Bytes :=
  (((Folder.empty [] []).openExcl (PyStr.ofString "a.json") first).2.openExcl
    (PyStr.ofString "b.json") second).2

/-- The claim next to the file that is cut short. -/
def cutShort : ClaimsWorld Unit := ⟨twoFiles (Percent.utf8 cutFile) (Percent.utf8 bobsFile), ()⟩

private theorem parse_cutFile : parse bareHost (Percent.utf8 cutFile) = .error .keyError := by
  rw [parse, Percent.fromUTF8_utf8]
  rfl

set_option maxRecDepth 10000 in
private theorem parse_bobsFile : parse bareHost (Percent.utf8 bobsFile) = .ok bobsClaim := by
  rw [parse, Percent.fromUTF8_utf8]
  rfl

set_option maxRecDepth 10000 in
private theorem claimIn_bobsFile : claimIn bareHost (Percent.utf8 bobsFile) = some bobsClaim := by
  rw [claimIn, Percent.fromUTF8_utf8]
  rfl

section TwoFiles

variable {first second : Bytes} {claim : Sidecar} {e : SidecarError}

private theorem read_second :
    (twoFiles first second).read (PyStr.ofString "b.json") = some second := rfl

private theorem read_second_alone : ((twoFiles first second).unlink (PyStr.ofString "a.json")).read
    (PyStr.ofString "b.json") = some second := rfl

private theorem iterAll_twoFiles (hfirst : parse bareHost first = .error .keyError) :
    iterAll bareHost (twoFiles first second) = ([], some .keyError) := by
  have hnames : (twoFiles first second).names =
      [PyStr.ofString "a.json", PyStr.ofString "b.json"] := rfl
  have hread : (twoFiles first second).read (PyStr.ofString "a.json") = some first := rfl
  rw [iterAll, hnames, iterOver, if_pos (by decide), hread]
  dsimp only
  rw [hfirst]

private theorem iterAll_second (hsecond : parse bareHost second = .ok claim) :
    iterAll bareHost ((twoFiles first second).unlink (PyStr.ofString "a.json")) =
      ([claim], none) := by
  have hnames : ((twoFiles first second).unlink (PyStr.ofString "a.json")).names =
      [PyStr.ofString "b.json"] := rfl
  rw [iterAll, hnames, iterOver, if_pos (by decide), read_second_alone]
  dsimp only
  rw [hsecond]
  rfl

/-- Of the two files the first is malformed. -/
theorem withoutMalformed_twoFiles (hfirst : parse bareHost first = .error .keyError)
    (hsecond : claimIn bareHost second = some claim) :
    withoutMalformed bareHost (twoFiles first second) =
      (twoFiles first second).unlink (PyStr.ofString "a.json") := by
  have hbad : malformed bareHost (twoFiles first second) (PyStr.ofString "a.json") = true := by
    show (claimIn bareHost first).isNone = true
    rcases parse_cases (h := bareHost) first with ⟨c, hp, -, -⟩ | ⟨-, hnone, -⟩ | ⟨hnone, -, -⟩
    · cases hp.symm.trans hfirst
    · rw [hnone]
      rfl
    · rw [hnone]
      rfl
  have hgood : malformed bareHost (twoFiles first second) (PyStr.ofString "b.json") = false := by
    show (claimIn bareHost second).isNone = false
    rw [hsecond]
    rfl
  have hnames : (twoFiles first second).names =
      [PyStr.ofString "a.json", PyStr.ofString "b.json"] := rfl
  rw [withoutMalformed, hnames, List.filter_cons_of_pos hbad,
    List.filter_cons_of_neg (by simp [hgood])]
  rfl

end TwoFiles

/-- The sweep of the claim alone removes it. -/
theorem sweepEach_bobsClaim {dir : Folder PyStr Bytes} {body : Bytes}
    (hread : dir.read (PyStr.ofString "b.json") = some body)
    (hbody : parse bareHost body = .ok bobsClaim) :
    (sweepEach bareHost 7200 3600 [bobsClaim] ⟨dir, ()⟩).2.dir.read (PyStr.ofString "b.json") =
      none := by
  have hget : get bareHost bobsClaim.jti ⟨dir, ()⟩ = .ok (some bobsClaim) := by
    have hentry : bareHost.entry (path bobsClaim.jti) = some (PyStr.ofString "b.json") := rfl
    rw [get, hentry]
    dsimp only
    rw [hread]
    dsimp only
    rw [hbody]
    rfl
  have hdelete : delete bareHost bobsClaim.jti ⟨dir, ()⟩ = (.ok (),
      ⟨(dir.unlink (bobsClaim.bundlePath ++ PyStr.ofString ".lock")).unlink
        (PyStr.ofString "b.json"), ()⟩) := by
    rw [delete, hget]
    rfl
  have hage : ¬(7200 : ℚ) - 0 < (3600 : ℤ) := by decide +kernel
  have hsweep : sweepOne bareHost 7200 3600 bobsClaim ⟨dir, ()⟩ =
      delete bareHost bobsClaim.jti ⟨dir, ()⟩ := if_neg hage
  rw [sweepEach, hsweep, hdelete]
  exact (Folder.read_unlink ..).trans (if_pos rfl)

/-- Nothing is listed and the expired claim stays; without the other file it is listed, and it is
swept. -/
theorem cut_short_stops : ¬Tolerant bareHost cutShort ∧
    iterActive bareHost 0 3600 cutShort.dir = .error .keyError ∧
    iterActive bareHost 0 3600 (withoutMalformed bareHost cutShort.dir) =
      .ok [(PyStr.ofString "inbox/bob/x", PyStr.ofString "b")] ∧
    (sweepClaims bareHost 7200 3600 cutShort).2.dir.read (PyStr.ofString "b.json") =
      some (Percent.utf8 bobsFile) ∧
    (sweepClaims bareHost 7200 3600 ⟨withoutMalformed bareHost cutShort.dir, ()⟩).2.dir.read
      (PyStr.ofString "b.json") = none := by
  have hboth : iterAll bareHost cutShort.dir = ([], some .keyError) :=
    iterAll_twoFiles parse_cutFile
  have hwithout : withoutMalformed bareHost cutShort.dir =
      cutShort.dir.unlink (PyStr.ofString "a.json") :=
    withoutMalformed_twoFiles parse_cutFile claimIn_bobsFile
  have halone : iterAll bareHost (cutShort.dir.unlink (PyStr.ofString "a.json")) =
      ([bobsClaim], none) := iterAll_second parse_bobsFile
  refine ⟨fun ht => ?_, ?_, ?_, ?_, ?_⟩
  · cases congrArg Prod.snd (hboth.symm.trans ht.yields)
  · rw [iterActive, hboth]
  · have hactive : activeOf bareHost 0 3600 [bobsClaim] =
        [(PyStr.ofString "inbox/bob/x", PyStr.ofString "b")] := by decide +kernel
    rw [hwithout, iterActive, halone]
    exact congrArg Except.ok hactive
  · rw [sweepClaims, hboth]
    exact read_second
  · have hsweep : sweepClaims bareHost 7200 3600
        ⟨cutShort.dir.unlink (PyStr.ofString "a.json"), ()⟩ = sweepEach bareHost 7200 3600
          [bobsClaim] ⟨cutShort.dir.unlink (PyStr.ofString "a.json"), ()⟩ :=
      sweepClaims_of_iterAll halone
    have hread : (cutShort.dir.unlink (PyStr.ofString "a.json")).read (PyStr.ofString "b.json") =
        some (Percent.utf8 bobsFile) := read_second_alone
    rw [hwithout, hsweep]
    exact sweepEach_bobsClaim hread parse_bobsFile

end Sidecar

end Cassetta
