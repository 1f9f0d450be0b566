import Cassetta.Guarantee.TwoPhase

/-!
# The recipient of a directed send

An alias may stand for several inboxes, and a sender who is among them is passed over. The code
tells the sender's own inbox by a suffix of the target, so it also passes over every agent whose
target ends in the sender's label.
-/

namespace Cassetta

open Prog

/-! ## Targets -/

/-- The name of an inbox as a target spells it: not empty, and the slash after it not its own. -/
@[ext] structure Label where
  name : String
  ends : name.toList.getLast?.any (· ≠ '/') = true
  deriving DecidableEq

/-- The target `inbox/<label>/`. -/
def Label.target (l : Label) : String := "inbox/" ++ l.name ++ "/"

/-- Trailing slashes are gone once something else stands last. -/
theorem rstripSlash_append_slash {s : String} (h : s.toList.getLast?.any (· ≠ '/') = true) :
    rstripSlash (s ++ "/") = s ∧ rstripSlash s = s := by
  obtain ⟨front, c, hs⟩ : ∃ front c, s.toList = front ++ [c] := by
    cases hrev : s.toList.reverse with
    | nil =>
      rw [List.reverse_eq_nil_iff.mp hrev] at h
      cases h
    | cons c front => exact ⟨front.reverse, c, by simpa using congrArg List.reverse hrev⟩
  have hc : c ≠ '/' := by simpa [hs] using h
  have hback : String.ofList (front ++ [c]) = s := by rw [← hs, String.ofList_toList]
  have hslash : ("/" : String).toList = ['/'] := rfl
  constructor
  · rw [rstripSlash, String.toList_append, hs, hslash]
    simpa [hc] using hback
  · rw [rstripSlash, hs]
    simpa [hc] using hback

namespace Label

/-- The target of a label, without its slash. -/
theorem rstripSlash_target (l : Label) : rstripSlash l.target = "inbox/" ++ l.name := by
  apply (rstripSlash_append_slash _).1
  rw [String.toList_append, List.getLast?_append]
  have h := l.ends
  cases hl : l.name.toList.getLast? with
  | none =>
    rw [hl] at h
    cases h
  | some c =>
    rw [hl] at h
    exact h

/-- The recipient taken out of a target is its label. -/
theorem recipientOf_target (l : Label) : recipientOf l.target = l.name := by
  rw [recipientOf, rstripSlash_target, removePrefix_append]
  exact (rstripSlash_append_slash l.ends).2

end Label

/-! ## Whom the send is for -/

/-- The recipient an alias stands for: the only one, or the first who is not the sender. -/
def intended (sender : Option String) : List Label → Option Label
  | [only] => some only
  | labels => labels.find? fun l => sender ≠ some l.name

/-- The test a target has to pass where there are several. -/
def passes (sender : Option String) (l : Label) : Bool :=
  sender.all fun σ => !endsWith ("inbox/" ++ l.name) σ

/-- The recipient `resolveRecipient` takes. -/
def taken (sender : Option String) : List Label → Option Label
  | [only] => some only
  | labels => labels.find? (passes sender)

/-- The suffix of a target tells the recipient from the sender. -/
def Discerned (sender : Option String) (labels : List Label) : Prop :=
  labels.length = 1 ∨ ∃ l, intended sender labels = some l ∧ passes sender l = true

instance (sender : Option String) (labels : List Label) : Decidable (Discerned sender labels) :=
  match h : intended sender labels with
  | some l =>
    decidable_of_iff (labels.length = 1 ∨ passes sender l = true) (by simp [Discerned, h])
  | none => decidable_of_iff (labels.length = 1) (by simp [Discerned, h])

/-- The sender's own target has the sender's label as a suffix. -/
theorem endsWith_self (σ : String) : endsWith ("inbox/" ++ σ) σ = true := by
  rw [endsWith, String.toList_append, List.isSuffixOf_iff_suffix]
  exact List.suffix_append _ _

private theorem ne_of_passes {sender : Option String} {l : Label} (h : passes sender l = true) :
    sender ≠ some l.name := by
  rintro rfl
  simp [passes, endsWith_self] at h

/-- The first label with a stronger test is the first with the weaker one, if that passes. -/
theorem find?_of_implies {p q : Label → Bool} (hpq : ∀ l, p l = true → q l = true) {l : Label}
    {labels : List Label} (hq : labels.find? q = some l) (hp : p l = true) :
    labels.find? p = some l := by
  obtain ⟨-, before, after, rfl, hbefore⟩ := List.find?_eq_some_iff_append.mp hq
  apply List.find?_eq_some_iff_append.mpr
  refine ⟨hp, before, after, rfl, fun a ha => ?_⟩
  have hnot : q a = false := by simpa using hbefore a ha
  cases hpa : p a with
  | false => rfl
  | true => rw [hpq a hpa] at hnot; cases hnot

/-- A recipient is taken, and it is the intended one, exactly where the intended one passes. -/
theorem taken_intended_iff {sender : Option String} {labels : List Label} :
    (∃ l, taken sender labels = some l ∧ ∀ i, intended sender labels = some i → l = i) ↔
      Discerned sender labels := by
  have hpasses : ∀ l : Label, passes sender l = true → decide (sender ≠ some l.name) = true :=
    fun l hl => decide_eq_true (ne_of_passes hl)
  match labels with
  | [] => simp [taken, intended, Discerned]
  | [only] => simp [taken, intended, Discerned]
  | first :: second :: rest =>
    constructor
    · rintro ⟨l, htaken, heq⟩
      have hl : passes sender l = true := List.find?_some htaken
      cases hint : intended sender (first :: second :: rest) with
      | none =>
        have hnone := List.find?_eq_none.mp hint l (List.mem_of_find?_eq_some htaken)
        exact absurd (hpasses l hl) hnone
      | some i =>
        obtain rfl := heq i hint
        exact .inr ⟨l, hint, hl⟩
    · rintro (hone | ⟨l, hint, hl⟩)
      · cases hone
      · refine ⟨l, find?_of_implies hpasses hint hl, fun i hi => ?_⟩
        exact Option.some.inj (hint.symm.trans hi)

/-- The targets `resolveRecipient` keeps start with the one that is taken. -/
theorem head?_targets (sender : Option String) (labels : List Label) :
    (match sender with
      | some σ =>
        if 1 < (labels.map Label.target).length then
          (labels.map Label.target).filter fun t => !endsWith (rstripSlash t) σ
        else labels.map Label.target
      | none => labels.map Label.target).head? = (taken sender labels).map Label.target := by
  match labels, sender with
  | [], none => rfl
  | [], some _ => rfl
  | [_], none => rfl
  | [_], some _ => rfl
  | _ :: _ :: _, none => rfl
  | first :: second :: rest, some σ =>
    have hlen : 1 < ((first :: second :: rest).map Label.target).length := by simp
    have hpasses : ((fun t => !endsWith (rstripSlash t) σ) ∘ Label.target) = passes (some σ) := by
      funext l
      simp [passes, l.rstripSlash_target]
    simp only [if_pos hlen, List.filter_map, List.head?_map, List.head?_filter, hpasses]
    rfl

/-! ## The send -/

/-- A send is for a recipient: the policy is asked about no other inbox, and a session is bound
to a path in that inbox. -/
structure Addresses (recipient path : String) (s : Server)
    (outcome : Except Exc SendInitResult × Server) : Prop where
  asked : outcome.2.asked = s.asked ∨ outcome.2.asked = .inbox recipient :: s.asked
  session : ∀ r, outcome.1 = .ok r → outcome.2.asked = .inbox recipient :: s.asked ∧
    ∃ claims key, r.token = .signed claims key ∧ claims.recipient = some recipient ∧
      claims.bundlePath = some (inboxPath recipient path)

/-- The send goes to the intended recipient, and the list of targets is never read past its
end. -/
structure Selects (path : String) (sender : Option String) (labels : List Label) (s : Server)
    (outcome : Except Exc SendInitResult × Server) : Prop where
  addresses : ∀ l, intended sender labels = some l → Addresses l.name path s outcome
  indexed : outcome.1 ≠ .error .lookup

/-- The manifest or the path is refused, before anyone asks for a recipient. -/
def Precluded (cfg : Config) (raw : SendManifest) (path : String) : Prop :=
  (∃ e, parseManifest raw = .error e) ∨ validatePath cfg.allowedPathChars path ≠ .ok ()

section Send

variable {cfg : Config} {env : Environment} {s : Server} {to_ path : String} {raw : SendManifest}
  {identity : Identity} {sender : Option String} {allowInline : Bool} {labels : List Label}
  {display : Option String}

private theorem runE_resolveRecipient
    (hresolve : env.resolve s.keys to_ sender = .ok (some ⟨labels.map Label.target, display⟩)) :
    runE (exec cfg env) (resolveRecipient to_ sender) s =
      (match taken sender labels with
        | some l => .ok l.name
        | none => .error .lookup, s) := by
  have hask : runE (exec cfg env) (resolveAlias to_ sender) s =
      (.ok (.ok (some ⟨labels.map Label.target, display⟩)), s) := by
    rw [← hresolve]
    rfl
  have hor : ∀ resolved : Option ResolvedRecipient,
      runE (exec cfg env) (orCollaborator (.ok resolved)) s = (.ok resolved, s) := fun _ => rfl
  have hhead := head?_targets sender labels
  rw [resolveRecipient, runE_bind_ok hask, runE_bind_ok (hor _)]
  dsimp only
  split
  · rename_i hnil
    have hnone : none = (taken sender labels).map Label.target :=
      (congrArg List.head? hnil).symm.trans hhead
    rw [Option.map_eq_none_iff.mp hnone.symm]
    rfl
  · rename_i target others hcons
    have hsome : some target = (taken sender labels).map Label.target :=
      (congrArg List.head? hcons).symm.trans hhead
    obtain ⟨l, htaken, rfl⟩ := Option.map_eq_some_iff.mp hsome.symm
    rw [htaken, l.recipientOf_target]
    rfl

/-- Past the recipient the policy is asked about it, and nothing is looked up. -/
theorem prepareSendInit_asks {manifest : UploadManifest} (hparse : parseManifest raw = .ok manifest)
    (hpath : validatePath cfg.allowedPathChars path = .ok ()) {recipient : String}
    (hto : runE (exec cfg env) (resolveRecipient to_ sender) s = (.ok recipient, s))
    {outcome : Except Exc SendInitResult × Server}
    (hrun : runE (exec cfg env)
      (prepareSendInit cfg to_ path raw identity sender allowInline) s = outcome) :
    outcome.2.asked = .inbox recipient :: s.asked ∧ outcome.1 ≠ .error .lookup ∧
      ∀ r, outcome.1 = .ok r → ∃ claims key, r.token = .signed claims key ∧
        claims.recipient = some recipient ∧
        claims.bundlePath = some (inboxPath recipient path) := by
  have hwp : wpE (exec cfg env) (fun _ _ => True)
      (prepareSendInit cfg to_ path raw identity sender allowInline)
      (fun r s' => s'.asked = .inbox recipient :: s.asked ∧
        ∃ claims key, r.token = .signed claims key ∧ claims.recipient = some recipient ∧
          claims.bundlePath = some (inboxPath recipient path))
      (fun e s' => s'.asked = .inbox recipient :: s.asked ∧ e ≠ .lookup) s := by
    simp only [prepareSendInit, hparse, validateOr, hpath, wpE_bind, wpE_pure]
    rw [wpE_iff_run]
    refine ⟨wpE_trivial _, ?_⟩
    rw [hto]
    simp only [enforce, wpE_bind, wpE_check, wpE_orCollaborator, true_and]
    split
    · split
      · split
        · exact ⟨rfl, by simp⟩
        · simp only [wpE_bind, wpE_newId, wpE_now, true_and, wpE_pure]
          exact ⟨rfl, _, _, rfl, rfl, rfl⟩
      · exact ⟨rfl, by simp⟩
    · simp
  have hafter := ((wpE_iff_run _).mp hwp).2
  rw [hrun] at hafter
  rcases outcome with ⟨e | r, s'⟩
  · exact ⟨hafter.1, fun h => hafter.2 (Except.error.inj h), by simp⟩
  · refine ⟨hafter.1, by simp, fun r' hr' => ?_⟩
    obtain rfl := Except.ok.inj hr'
    exact hafter.2

/-- Where nothing precludes it, the recipient that is taken decides the send. -/
theorem selects_iff_taken {manifest : UploadManifest} (hparse : parseManifest raw = .ok manifest)
    (hpath : validatePath cfg.allowedPathChars path = .ok ())
    (hresolve : env.resolve s.keys to_ sender = .ok (some ⟨labels.map Label.target, display⟩)) :
    Selects path sender labels s (runE (exec cfg env)
        (prepareSendInit cfg to_ path raw identity sender allowInline) s) ↔
      ∃ l, taken sender labels = some l ∧ ∀ i, intended sender labels = some i → l = i := by
  have hto := @runE_resolveRecipient cfg env s to_ sender labels display hresolve
  cases htaken : taken sender labels with
  | none =>
    rw [htaken] at hto
    have hrun : runE (exec cfg env)
        (prepareSendInit cfg to_ path raw identity sender allowInline) s = (.error .lookup, s) := by
      simp only [prepareSendInit, hparse]
      rw [runE_bind_ok (runE_validateOr hpath _ s), runE_bind, hto]
    rw [hrun]
    apply iff_of_false
    · exact fun h => h.indexed rfl
    · rintro ⟨l, hl, -⟩
      cases hl
  | some l =>
    rw [htaken] at hto
    obtain ⟨hasked, hlookup, hsession⟩ := prepareSendInit_asks hparse hpath hto
      (rfl : runE (exec cfg env)
        (prepareSendInit cfg to_ path raw identity sender allowInline) s = _)
    constructor
    · intro h
      refine ⟨l, rfl, fun i hi => ?_⟩
      rcases (h.addresses i hi).asked with hnone | hsome
      · rw [hasked] at hnone
        exact absurd hnone (List.cons_ne_self _ _)
      · rw [hasked] at hsome
        have hname : l.name = i.name := Resource.inbox.inj (List.cons.inj hsome).1
        exact Label.ext hname
    · rintro ⟨l', hl', heq⟩
      obtain rfl := Option.some.inj hl'
      refine ⟨fun i hi => ?_, hlookup⟩
      obtain rfl := heq i hi
      exact ⟨.inr hasked, fun r hr => ⟨hasked, hsession r hr⟩⟩

/-- A send that is refused before it comes to a recipient asks for none. -/
theorem selects_of_precluded (h : Precluded cfg raw path) :
    Selects path sender labels s (runE (exec cfg env)
      (prepareSendInit cfg to_ path raw identity sender allowInline) s) := by
  suffices hrun : ∃ e, runE (exec cfg env)
      (prepareSendInit cfg to_ path raw identity sender allowInline) s = (.error e, s) ∧
        e ≠ .lookup by
    obtain ⟨e, hrun, he⟩ := hrun
    rw [hrun]
    exact ⟨fun _ _ => ⟨.inl rfl, by simp⟩, fun h => he (Except.error.inj h)⟩
  cases hparse : parseManifest raw with
  | error e =>
    refine ⟨e, by simp only [prepareSendInit, hparse, runE_throw], ?_⟩
    rintro rfl
    unfold parseManifest at hparse
    split at hparse
    · cases hparse
    · split at hparse <;> cases hparse
  | ok manifest =>
    have hrefused : validatePath cfg.allowedPathChars path ≠ .ok () :=
      h.resolve_left fun ⟨e, he⟩ => by rw [hparse] at he; cases he
    cases hpath : validatePath cfg.allowedPathChars path with
    | ok _ => exact absurd hpath hrefused
    | error e =>
      refine ⟨.manifest "invalid_char" path, ?_, by simp⟩
      simp only [prepareSendInit, hparse, validateOr, hpath]
      rfl

end Send

/-- A send goes to the right recipient, and is no index error, exactly where the manifest or the
path is refused or the suffix of a target tells the intended recipient from the sender. -/
theorem selects_iff_discerned (cfg : Config) (env : Environment) (s : Server)
    (to_ path : String) (raw : SendManifest) (identity : Identity) (sender : Option String)
    (allowInline : Bool) (labels : List Label) (display : Option String)
    (hresolve : env.resolve s.keys to_ sender = .ok (some ⟨labels.map Label.target, display⟩)) :
    Selects path sender labels s (runE (exec cfg env)
        (prepareSendInit cfg to_ path raw identity sender allowInline) s) ↔
      Precluded cfg raw path ∨ Discerned sender labels := by
  by_cases hpre : Precluded cfg raw path
  · exact iff_of_true (selects_of_precluded hpre) (.inl hpre)
  · obtain ⟨manifest, hparse⟩ : ∃ manifest, parseManifest raw = .ok manifest := by
      cases hparse : parseManifest raw with
      | error e => exact absurd (.inl ⟨e, hparse⟩) hpre
      | ok manifest => exact ⟨manifest, rfl⟩
    have hpath : validatePath cfg.allowedPathChars path = .ok () := by
      by_contra hpath
      exact hpre (.inr hpath)
    rw [selects_iff_taken hparse hpath hresolve, taken_intended_iff, or_iff_right hpre]

/-! ## A small team -/

def aliceLabel : Label := ⟨"alice:a", by simp⟩

def maliceLabel : Label := ⟨"malice:a", by simp⟩

def bobLabel : Label := ⟨"bob:b", by simp⟩

/-- A deployment in which every name stands for these agents. -/
def teamEnvironment (labels : List Label) : Environment :=
  { Environment.core with
    resolve := fun _ _ _ => .ok (some ⟨labels.map Label.target, none⟩) }

/-- `alice` sends a file to a team. -/
def teamSend (labels : List Label) : Except Exc SendInitResult × Server :=
  runE (exec srvConfig (teamEnvironment labels))
    (prepareSendInit srvConfig "team" "p" (smallManifest ["a"]) alice (some "alice:a") true)
    srvSystem.server

/-- A team of two labels. -/
theorem selects_iff_discerned_team :
    Selects "p" (some "alice:a") [aliceLabel, bobLabel] srvSystem.server
      (teamSend [aliceLabel, bobLabel]) := by
  have hdiscerned : Discerned (some "alice:a") [aliceLabel, bobLabel] := by decide +kernel
  exact (selects_iff_discerned srvConfig (teamEnvironment _) srvSystem.server "team" "p" _ alice
    _ true _ none rfl).mpr (.inr hdiscerned)

/-- The team of `alice:a` and `malice:a` has no target left, and where `bob:b` is a member too,
`bob` gets what was for `malice`. -/
theorem malice_passed_over :
    ¬Selects "p" (some "alice:a") [aliceLabel, maliceLabel] srvSystem.server
        (teamSend [aliceLabel, maliceLabel]) ∧
      ¬Selects "p" (some "alice:a") [aliceLabel, maliceLabel, bobLabel] srvSystem.server
        (teamSend [aliceLabel, maliceLabel, bobLabel]) := by
  constructor
  · intro h
    exact h.indexed (by decide +kernel)
  · intro h
    have hasked : (teamSend [aliceLabel, maliceLabel, bobLabel]).2.asked = [.inbox "bob:b"] := by
      decide +kernel
    have haddressed := (h.addresses maliceLabel (by decide +kernel)).asked
    rw [hasked] at haddressed
    exact absurd haddressed (by decide)

end Cassetta
