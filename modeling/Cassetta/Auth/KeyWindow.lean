import Cassetta.Auth.HotReload

/-!
# Which keys are accepted when

The slots are changed by rotations and, lazily, by the reads that find an overlap over. Here
the keys accepted after a history are read off the history alone: the key rotated in last, the
boot secondary as long as nothing was rotated in, and the key rotated out last until the
overlap is over. The slots of every run agree with it.
-/

namespace Cassetta

open Runs

/-! ## The history -/

/-- The keys rotated in so far, the latest first, each with its moment; and the time. -/
structure KeyHistory where
  rotated : List (SigningKey × Nat)
  mono : Nat
  deriving DecidableEq, Repr

/-- The primary key after some rotations. -/
def primaryAfter (cfg : Config) : List (SigningKey × Nat) → SigningKey
  | [] => cfg.jwtPrimaryKey
  | (key, _) :: _ => key

/-- A rotation counts when the key file holds a key other than the primary. -/
def KeyHistory.rotatesTo (cfg : Config) (h : KeyHistory) : KeyFile → Option SigningKey
  | .content raw => (decodeKeyMaterial raw).filter (· ≠ primaryAfter cfg h.rotated)
  | _ => none

def KeyHistory.step (cfg : Config) (h : KeyHistory) : KeyEvent → KeyHistory
  | .rotate file =>
    match h.rotatesTo cfg file with
    | some key => { h with rotated := (key, h.mono) :: h.rotated }
    | none => h
  | .resolve => h
  | .advance micros => { h with mono := h.mono + micros }

/-- The keys accepted after a history. -/
def KeyHistory.Accepts (cfg : Config) (h : KeyHistory) (key : SigningKey) : Prop :=
  key = primaryAfter cfg h.rotated ∨
    (h.rotated = [] ∧ cfg.jwtSecondaryKey = some key) ∨
    ∃ latest at_ earlier, h.rotated = (latest, at_) :: earlier ∧
      key = primaryAfter cfg earlier ∧ h.mono < at_ + secondsToMicros cfg.jwtKeyOverlapTtl

/-! ## The slots follow the history -/

/-- What the secondary slot may hold after a history; once the overlap is over it may have
been emptied by a read. -/
def SecondaryFollows (cfg : Config) (h : KeyHistory) (secondary : Option SigningKey) : Prop :=
  match h.rotated with
  | [] => secondary = cfg.jwtSecondaryKey
  | (_, at_) :: earlier => secondary = some (primaryAfter cfg earlier) ∨
      secondary = none ∧ at_ + secondsToMicros cfg.jwtKeyOverlapTtl ≤ h.mono

/-- The slots hold what the history says. -/
structure Follows (cfg : Config) (st : KeyState) (h : KeyHistory) : Prop where
  mono : st.mono = h.mono
  primary : st.slots.primary = primaryAfter cfg h.rotated
  lastRotation : st.slots.lastRotation = h.rotated.head?.map Prod.snd
  overlapTtl : st.slots.overlapTtl = cfg.jwtKeyOverlapTtl
  secondary : SecondaryFollows cfg h st.slots.secondary

private theorem follows_boot (cfg : Config) (wall mono : Nat) :
    Follows cfg (.boot cfg wall mono) ⟨[], mono⟩ := ⟨rfl, rfl, rfl, rfl, rfl⟩

/-- Either both sides take the rotation or neither does. -/
theorem Follows.rotate {cfg : Config} {st : KeyState} {h : KeyHistory} (hf : Follows cfg st h)
    (file : KeyFile) :
    (h.rotatesTo cfg file = none ∧ handleRotation cfg file st.mono st.slots =
        ((handleRotation cfg file st.mono st.slots).1, st.slots)) ∨
      ∃ key, h.rotatesTo cfg file = some key ∧ handleRotation cfg file st.mono st.slots =
        (.rotated, ⟨key, some st.slots.primary, some st.mono, cfg.jwtKeyOverlapTtl⟩) := by
  cases file with
  | content raw =>
    cases hd : decodeKeyMaterial raw with
    | none => exact .inl (by simp [KeyHistory.rotatesTo, handleRotation, hd])
    | some key =>
      by_cases hk : key = st.slots.primary
      · left
        have hk' : key = primaryAfter cfg h.rotated := hk.trans hf.primary
        exact ⟨by simp [KeyHistory.rotatesTo, hd, hk', Option.filter],
          by simp [handleRotation, hd, hk]⟩
      · right
        have hk' : key ≠ primaryAfter cfg h.rotated := fun he => hk (he.trans hf.primary.symm)
        exact ⟨key, by simp [KeyHistory.rotatesTo, hd, hk', Option.filter],
          by simp [handleRotation, hd, hk]⟩
  | _ => exact .inl ⟨rfl, rfl⟩

/-- A read empties the secondary slot only when the overlap is over. -/
theorem Follows.resolve {cfg : Config} {st : KeyState} {h : KeyHistory} (hf : Follows cfg st h) :
    SecondaryFollows cfg h (resolveSecondary st.slots st.mono).2.secondary := by
  have hsec := hf.secondary
  unfold resolveSecondary
  rw [hf.lastRotation]
  cases hr : h.rotated with
  | nil => exact hsec
  | cons latest earlier =>
    simp only [List.head?_cons, Option.map_some]
    split
    · rename_i hover
      rw [hf.overlapTtl, hf.mono] at hover
      unfold SecondaryFollows
      rw [hr]
      exact .inr ⟨rfl, hover⟩
    · exact hsec

/-- The secondary follows the history as time passes. -/
theorem SecondaryFollows.advance {cfg : Config} {h : KeyHistory} {secondary : Option SigningKey}
    (hs : SecondaryFollows cfg h secondary) (micros : Nat) :
    SecondaryFollows cfg { h with mono := h.mono + micros } secondary := by
  unfold SecondaryFollows at hs ⊢
  cases hr : h.rotated with
  | nil => simpa [hr] using hs
  | cons latest earlier =>
    rw [hr] at hs
    exact hs.imp_right fun hnone => ⟨hnone.1, hnone.2.trans (Nat.le_add_right _ _)⟩

/-- The slots follow the history through one event. -/
theorem Follows.step {cfg : Config} (st : KeyState) (h : KeyHistory) (e : KeyEvent)
    (hf : Follows cfg st h) : Follows cfg (keyStep cfg st e) (h.step cfg e) := by
  cases e with
  | rotate file =>
    rcases hf.rotate file with ⟨hnone, heq⟩ | ⟨key, hsome, heq⟩
    · rw [keyStep, heq, KeyHistory.step, hnone]
      exact hf
    · rw [keyStep, heq, KeyHistory.step, hsome]
      refine ⟨hf.mono, rfl, by simp [hf.mono], rfl, .inl ?_⟩
      simp [hf.primary]
  | resolve =>
    obtain ⟨hp, hl, ho, -⟩ := resolveSecondary_snd st.slots st.mono
    refine ⟨hf.mono, hp.trans hf.primary, hl.trans hf.lastRotation, ho.trans hf.overlapTtl, ?_⟩
    exact hf.resolve
  | advance micros =>
    refine ⟨congrArg (· + micros) hf.mono, hf.primary, hf.lastRotation, hf.overlapTtl, ?_⟩
    exact hf.secondary.advance micros

/-! ## Acceptance -/

/-- The slots take the keys the history says. -/
theorem Follows.inForce_iff {cfg : Config} {st : KeyState} {h : KeyHistory}
    (hf : Follows cfg st h) (key : SigningKey) :
    st.slots.InForce st.mono key ↔ h.Accepts cfg key := by
  have hsec := hf.secondary
  unfold JWTKeySlots.InForce KeyHistory.Accepts
  unfold SecondaryFollows at hsec
  rw [hf.primary, hf.lastRotation, hf.overlapTtl, hf.mono]
  cases hr : h.rotated with
  | nil =>
    rw [hr] at hsec
    simp only [hsec, List.head?_nil, Option.map_none, reduceCtorEq, false_implies, implies_true,
      and_true, true_and, false_and, exists_false, or_false]
    rw [eq_comm]
  | cons latest earlier =>
    obtain ⟨k, at_⟩ := latest
    rw [hr] at hsec
    simp only [List.head?_cons, Option.map_some, Option.some.injEq, forall_eq', reduceCtorEq,
      false_and, false_or, List.cons.injEq, Prod.mk.injEq]
    rw [eq_comm]
    refine or_congr_right ⟨?_, ?_⟩
    · rintro ⟨hs, hin⟩
      rcases hsec with hd | ⟨hnone, -⟩
      · exact ⟨k, at_, earlier, ⟨⟨rfl, rfl⟩, rfl⟩, Option.some.inj (hs.symm.trans hd), hin⟩
      · rw [hnone] at hs
        cases hs
    · rintro ⟨k', at', earlier', ⟨⟨rfl, rfl⟩, rfl⟩, rfl, hin⟩
      rcases hsec with hd | ⟨-, hover⟩
      · exact ⟨hd, hin⟩
      · omega

/-- After every history of rotations, reads and time from boot on, a token is accepted exactly
when its times are in order and the history accepts its key; and a rotation that fails or
changes nothing leaves the slots as they are. -/
theorem verify_iff_history (cfg : Config) (wall mono : Nat) (events : List KeyEvent) (now : Nat)
    (claims : Claims) (key : SigningKey) :
    (verify now (.signed claims key) (run (keyStep cfg) (.boot cfg wall mono) events).slots.primary
        (resolveSecondary (run (keyStep cfg) (.boot cfg wall mono) events).slots
          (run (keyStep cfg) (.boot cfg wall mono) events).mono).1 = .ok claims ↔
      claims.Timely now ∧ (run (KeyHistory.step cfg) ⟨[], mono⟩ events).Accepts cfg key) ∧
    ∀ file, (handleRotation cfg file (run (keyStep cfg) (.boot cfg wall mono) events).mono
        (run (keyStep cfg) (.boot cfg wall mono) events).slots).1 ≠ .rotated →
      (handleRotation cfg file (run (keyStep cfg) (.boot cfg wall mono) events).mono
        (run (keyStep cfg) (.boot cfg wall mono) events).slots).2 =
        (run (keyStep cfg) (.boot cfg wall mono) events).slots := by
  have hf : Follows cfg (run (keyStep cfg) (.boot cfg wall mono) events)
      (run (KeyHistory.step cfg) ⟨[], mono⟩ events) :=
    run_related Follows.step (follows_boot cfg wall mono) events
  generalize run (keyStep cfg) (.boot cfg wall mono) events = st at hf ⊢
  refine ⟨?_, fun file hnot => ?_⟩
  · rw [← hf.inForce_iff, verify_ok_iff]
    unfold JWTKeySlots.InForce
    rw [← resolveSecondary_eq_some_iff]
    constructor
    · rintro ⟨k, htok, ht, hk⟩
      obtain ⟨-, rfl⟩ := Token.signed.inj htok
      exact ⟨ht, hk.imp_left Eq.symm⟩
    · rintro ⟨ht, hk⟩
      exact ⟨key, rfl, ht, hk.imp_left Eq.symm⟩
  · rcases handleRotation_cases cfg file st.mono st.slots with ⟨-, hsame⟩ | ⟨k, -, heq⟩
    · exact hsame
    · rw [heq] at hnot
      exact absurd rfl hnot

end Cassetta
