import Cassetta.Auth.Tokens
import Cassetta.Core.Base64
import Cassetta.Core.Runs
import Cassetta.Storage.Effects

/-!
# Signing keys at run time

The verifying endpoints read their keys from mutable slots, which a rotation changes; the
minting functions sign with the key of the boot configuration. A rotation demotes the primary
key for the length of the overlap, measured on the monotonic clock; the token times are read
from the wall clock. Both clocks advance together.
-/

namespace Cassetta

/-! ## The slots -/

/-- `JWTKeySlots`. -/
structure JWTKeySlots where
  primary : SigningKey
  secondary : Option SigningKey
  lastRotation : Option Nat
  overlapTtl : Nat
  deriving DecidableEq, Repr

/-- `init_jwt_key_slots`. -/
def initJwtKeySlots (cfg : Config) : JWTKeySlots :=
  ⟨cfg.jwtPrimaryKey, cfg.jwtSecondaryKey, none, cfg.jwtKeyOverlapTtl⟩

/-- `_resolve_secondary`: the secondary key in force; it is dropped once its time is over. -/
def resolveSecondary (slots : JWTKeySlots) (mono : Nat) :
    Option SigningKey × JWTKeySlots :=
  match slots.lastRotation with
  | none => (slots.secondary, slots)
  | some last =>
    if last + secondsToMicros slots.overlapTtl ≤ mono then
      (none, { slots with secondary := none })
    else (slots.secondary, slots)

/-! ## Rotation -/

/-- What a rotation finds when it goes for the key file. -/
inductive KeyFile where
  | unset
  | notFound
  | permissionDenied
  | readError
  | content (raw : Bytes)
  deriving DecidableEq, Repr

/-- The reason of a `jwt.key_rotation_failed` event. -/
inductive RotationFailure where
  | missingFile
  | permissionDenied
  | readError
  | invalidKeyMaterial
  deriving DecidableEq, Repr

inductive RotationOutcome where
  | failed (reason : RotationFailure)
  | unchanged
  | rotated
  deriving DecidableEq, Repr

/-- `bytes.strip()`. -/
def stripBytes (raw : Bytes) : Bytes :=
  let isSpace (c : UInt8) : Bool := c = 32 ∨ (9 ≤ c ∧ c ≤ 13)
  ((raw.dropWhile isSpace).reverse.dropWhile isSpace).reverse

/-- `_MIN_HS256_KEY_BYTES`. -/
def minHs256KeyBytes : Nat := 32

/-- `_decode_key_material`. -/
def decodeKeyMaterial (raw : Bytes) : Option SigningKey :=
  let stripped := stripBytes raw
  if stripped = [] then none
  else match Base64.decode stripped with
    | none => none
    | some key => if key.length < minHs256KeyBytes then none else some key

/-- `_handle_rotation`. -/
def handleRotation (cfg : Config) (file : KeyFile) (mono : Nat) (slots : JWTKeySlots) :
    RotationOutcome × JWTKeySlots :=
  match file with
  | .unset => (.failed .missingFile, slots)
  | .notFound => (.failed .missingFile, slots)
  | .permissionDenied => (.failed .permissionDenied, slots)
  | .readError => (.failed .readError, slots)
  | .content raw =>
    match decodeKeyMaterial raw with
    | none => (.failed .invalidKeyMaterial, slots)
    | some newKey =>
      if newKey = slots.primary then (.unchanged, slots)
      else (.rotated, ⟨newKey, some slots.primary, some mono, cfg.jwtKeyOverlapTtl⟩)

/-- A rotation leaves the slots alone, or puts a new key in the primary's place. -/
theorem handleRotation_cases (cfg : Config) (file : KeyFile) (mono : Nat)
    (slots : JWTKeySlots) :
    ((handleRotation cfg file mono slots).1 ≠ .rotated ∧
        (handleRotation cfg file mono slots).2 = slots) ∨
      ∃ key, key ≠ slots.primary ∧ handleRotation cfg file mono slots =
        (.rotated, ⟨key, some slots.primary, some mono, cfg.jwtKeyOverlapTtl⟩) := by
  cases file with
  | content raw =>
    cases hd : decodeKeyMaterial raw with
    | none => exact .inl (by simp [handleRotation, hd])
    | some key =>
      by_cases hk : key = slots.primary
      · exact .inl (by simp [handleRotation, hd, hk])
      · exact .inr ⟨key, hk, by simp [handleRotation, hd, hk]⟩
  | _ => exact .inl (by simp [handleRotation])

/-! ## Runs -/

/-- The slots with the two clocks. -/
structure KeyState where
  slots : JWTKeySlots
  wall : Nat
  mono : Nat
  deriving DecidableEq, Repr

/-- What happens to the keys: a signal with what the key file holds then, a verification that
may drop the secondary, or time. -/
inductive KeyEvent where
  | rotate (file : KeyFile)
  | resolve
  | advance (micros : Nat)
  deriving DecidableEq, Repr

def KeyState.boot (cfg : Config) (wall mono : Nat) : KeyState :=
  ⟨initJwtKeySlots cfg, wall, mono⟩

def keyStep (cfg : Config) (st : KeyState) : KeyEvent → KeyState
  | .rotate file => { st with slots := (handleRotation cfg file st.mono st.slots).2 }
  | .resolve => { st with slots := (resolveSecondary st.slots st.mono).2 }
  | .advance micros => { st with wall := st.wall + micros, mono := st.mono + micros }

/-- How many rotations of a run succeed. -/
def rotations (cfg : Config) : KeyState → List KeyEvent → Nat
  | _, [] => 0
  | st, e :: rest =>
    (match e with
      | .rotate file => if (handleRotation cfg file st.mono st.slots).1 = .rotated then 1 else 0
      | _ => 0) + rotations cfg (keyStep cfg st e) rest

/-- What the verifying endpoints say of a token now: `verify` with `slots.primary` and
`_resolve_secondary(slots)`. -/
def KeyState.verifyNow (st : KeyState) (token : Token) : Except TokenError Claims :=
  verify st.wall token st.slots.primary (resolveSecondary st.slots st.mono).1

/-! ## Minting -/

/-- A token as the server mints it now, with its lifetime: for an upload in
`prepare_send_init`, for a download in the two reference payload builders. All of them sign
with the key of the boot configuration. -/
inductive MintedAt (cfg : Config) (st : KeyState) : Token → Nat → Prop where
  | upload (bundlePath : String) (bundleId : Id) (sender recipient : String) (mode : UploadMode)
      (manifest : List FileRecord) (fresh : Id) :
      MintedAt cfg st (sign (uploadClaims bundlePath bundleId sender recipient mode manifest
        cfg.limits.uploadTokenTtl (wholeSeconds st.wall)) cfg.jwtPrimaryKey fresh)
        cfg.limits.uploadTokenTtl
  | download (bundlePath : String) (m : BundleMeta) (recipient : String) (fresh : Id) :
      MintedAt cfg st (sign (buildClaims bundlePath m recipient
        cfg.limits.downloadClaimTtl (wholeSeconds st.wall)) cfg.jwtPrimaryKey fresh)
        cfg.limits.downloadClaimTtl

/-- A minted token is signed with the boot key, is valid from the current second on, and
expires after its lifetime. -/
theorem MintedAt.shape {cfg : Config} {st : KeyState} {token : Token} {ttl : Nat}
    (h : MintedAt cfg st token ttl) :
    0 < ttl ∧ ∃ c jti, token = .signed c cfg.jwtPrimaryKey ∧ c.jti = some jti ∧
      c.iat = some (wholeSeconds st.wall) ∧ c.nbf = some (wholeSeconds st.wall) ∧
      c.exp = some (wholeSeconds st.wall + ttl) := by
  cases h with
  | upload p i s r m ms fresh =>
    exact ⟨cfg.limits.uploadTokenTtl_pos, _, fresh, rfl, rfl, rfl, rfl, rfl⟩
  | download p m r fresh =>
    exact ⟨cfg.limits.downloadClaimTtl_pos, _, fresh, rfl, rfl, rfl, rfl, rfl⟩

/-- A key is in force: it is the primary, or the secondary before its overlap is over. -/
def JWTKeySlots.InForce (slots : JWTKeySlots) (mono : Nat) (key : SigningKey) : Prop :=
  slots.primary = key ∨ slots.secondary = some key ∧
    ∀ last, slots.lastRotation = some last → mono < last + secondsToMicros slots.overlapTtl

/-- The secondary is in force until its overlap is over. -/
theorem resolveSecondary_eq_some_iff {slots : JWTKeySlots} {mono : Nat} {key : SigningKey} :
    (resolveSecondary slots mono).1 = some key ↔ slots.secondary = some key ∧
      ∀ last, slots.lastRotation = some last → mono < last + secondsToMicros slots.overlapTtl := by
  unfold resolveSecondary
  cases slots.lastRotation with
  | none => simp
  | some last =>
    simp only [Option.some.injEq, forall_eq']
    split
    · rename_i h
      simp only [reduceCtorEq, false_iff, not_and]
      omega
    · rename_i h
      simp only [iff_self_and]
      omega

/-- Before its end a minted token is accepted exactly when the boot key is in force. -/
theorem MintedAt.accepted_iff {cfg : Config} {st : KeyState} {token : Token} {ttl : Nat}
    (h : MintedAt cfg st token ttl) {st' : KeyState} (hge : st.wall ≤ st'.wall)
    (hlt : st'.wall < secondsToMicros (wholeSeconds st.wall + ttl)) :
    (∃ c, st'.verifyNow token = .ok c) ↔ st'.slots.InForce st'.mono cfg.jwtPrimaryKey := by
  obtain ⟨-, c, jti, rfl, hjti, hiat, hnbf, hexp⟩ := h.shape
  have htimely : c.Timely st'.wall := by
    refine ⟨_, _, _, _, hexp, hnbf, hiat, hjti, ?_⟩
    rw [reached_iff, not_reached_iff]
    simp only [secondsToMicros, wholeSeconds] at hlt ⊢
    omega
  simp only [KeyState.verifyNow, verify_ok_iff, JWTKeySlots.InForce, ← resolveSecondary_eq_some_iff,
    Token.signed.injEq]
  constructor
  · rintro ⟨c', key, ⟨rfl, rfl⟩, -, hk | hk⟩
    · exact .inl hk.symm
    · exact .inr hk
  · rintro (hk | hk)
    · exact ⟨c, _, ⟨rfl, rfl⟩, htimely, .inl hk.symm⟩
    · exact ⟨c, _, ⟨rfl, rfl⟩, htimely, .inr hk⟩

/-! ## Keys over a run -/

section Runs

open Runs

variable {cfg : Config}

/-- Resolving the secondary changes nothing else, and drops it only when it is over. -/
theorem resolveSecondary_snd (slots : JWTKeySlots) (mono : Nat) :
    (resolveSecondary slots mono).2.primary = slots.primary ∧
      (resolveSecondary slots mono).2.lastRotation = slots.lastRotation ∧
      (resolveSecondary slots mono).2.overlapTtl = slots.overlapTtl ∧
      ((resolveSecondary slots mono).2.secondary = slots.secondary ∨
        ∃ last, slots.lastRotation = some last ∧
          last + secondsToMicros slots.overlapTtl ≤ mono) := by
  unfold resolveSecondary
  cases h : slots.lastRotation with
  | none => simp [h]
  | some last =>
    simp only
    split
    · simp [*]
    · simp [h]

/-- The two clocks of a run advance together. -/
theorem clocks_run (cfg : Config) (st : KeyState) (es : List KeyEvent) :
    st.wall ≤ (run (keyStep cfg) st es).wall ∧ st.mono ≤ (run (keyStep cfg) st es).mono ∧
      (run (keyStep cfg) st es).wall + st.mono = (run (keyStep cfg) st es).mono + st.wall := by
  induction es generalizing st with
  | nil => exact ⟨le_rfl, le_rfl, Nat.add_comm _ _⟩
  | cons e es ih =>
    have h := ih (keyStep cfg st e)
    rw [run_cons]
    cases e with
    | rotate file => exact h
    | resolve => exact h
    | advance micros =>
      simp only [keyStep] at h ⊢
      omega

/-- A key was demoted at a moment and is the secondary until its overlap is over. -/
def DemotedAt (cfg : Config) (st : KeyState) (key : SigningKey) (r : Nat) : Prop :=
  st.slots.lastRotation = some r ∧ st.slots.overlapTtl = cfg.jwtKeyOverlapTtl ∧
    (st.slots.secondary = some key ∨ r + secondsToMicros cfg.jwtKeyOverlapTtl ≤ st.mono)

/-- Without another rotation a demoted key stays as it is. -/
theorem DemotedAt.run {st : KeyState} {key : SigningKey} {r : Nat} (h : DemotedAt cfg st key r)
    {es : List KeyEvent} (hrot : rotations cfg st es = 0) :
    DemotedAt cfg (run (keyStep cfg) st es) key r := by
  induction es generalizing st with
  | nil => exact h
  | cons e es ih =>
    obtain ⟨hlast, hov, hsec⟩ := h
    simp only [rotations, Nat.add_eq_zero_iff] at hrot
    refine ih ?_ hrot.2
    cases e with
    | rotate file =>
      rcases handleRotation_cases cfg file st.mono st.slots with ⟨-, hsame⟩ | ⟨k, -, heq⟩
      · exact ⟨by simpa [keyStep, hsame] using hlast, by simpa [keyStep, hsame] using hov,
          by simpa [keyStep, hsame] using hsec⟩
      · simp [heq] at hrot
    | resolve =>
      obtain ⟨-, hl, ho, hs⟩ := resolveSecondary_snd st.slots st.mono
      refine ⟨hl.trans hlast, ho.trans hov, ?_⟩
      rcases hs with hs | ⟨last, hl', hend⟩
      · exact hsec.imp (hs.trans ·) id
      · obtain rfl := Option.some.inj (hl'.symm.trans hlast)
        exact .inr (hov ▸ hend)
    | advance micros =>
      refine ⟨hlast, hov, hsec.imp id fun hend => ?_⟩
      simp only [keyStep]
      omega

/-- With at most one rotation the primary key stays, or is demoted once. -/
theorem primary_run {st : KeyState} {es : List KeyEvent} (hrot : rotations cfg st es ≤ 1) :
    (run (keyStep cfg) st es).slots.primary = st.slots.primary ∨
      ∃ r, st.mono ≤ r ∧ DemotedAt cfg (run (keyStep cfg) st es) st.slots.primary r := by
  induction es generalizing st with
  | nil => exact .inl rfl
  | cons e es ih =>
    simp only [rotations] at hrot
    cases e with
    | rotate file =>
      rcases handleRotation_cases cfg file st.mono st.slots with ⟨hout, hsame⟩ | ⟨k, -, heq⟩
      · have hst : keyStep cfg st (.rotate file) = st := by simp [keyStep, hsame]
        rw [run_cons, hst]
        rw [hst] at hrot
        exact ih (by omega)
      · right
        refine ⟨st.mono, le_rfl, ?_⟩
        rw [run_cons]
        refine DemotedAt.run ?_ (by simp [heq] at hrot; omega)
        simp [DemotedAt, keyStep, heq]
    | resolve =>
      have hp := (resolveSecondary_snd st.slots st.mono).1
      have hrest : rotations cfg (keyStep cfg st .resolve) es ≤ 1 := by omega
      rcases ih hrest with h | ⟨r, hr, h⟩
      · exact .inl (h.trans hp)
      · exact .inr ⟨r, hr, hp ▸ h⟩
    | advance micros =>
      have hrest : rotations cfg (keyStep cfg st (.advance micros)) es ≤ 1 := by omega
      rcases ih hrest with h | ⟨r, hr, h⟩
      · exact .inl h
      · exact .inr ⟨r, by simp only [keyStep] at hr; omega, h⟩

/-- Some key file holds a key other than two given ones. -/
theorem exists_fresh_key (k₁ k₂ : SigningKey) :
    ∃ raw key, decodeKeyMaterial raw = some key ∧ key ≠ k₁ ∧ key ≠ k₂ := by
  have ha : decodeKeyMaterial (List.replicate 44 65) = some (List.replicate 33 0) := by decide
  have hb : decodeKeyMaterial (List.replicate 44 47) = some (List.replicate 33 255) := by decide
  have hc : decodeKeyMaterial (List.replicate 48 65) = some (List.replicate 36 0) := by decide
  have hab : List.replicate 33 (0 : UInt8) ≠ List.replicate 33 255 := by decide
  have hac : List.replicate 33 (0 : UInt8) ≠ List.replicate 36 0 := by decide
  have hbc : List.replicate 33 (255 : UInt8) ≠ List.replicate 36 0 := by decide
  generalize List.replicate 33 (0 : UInt8) = a at *
  generalize List.replicate 33 (255 : UInt8) = b at *
  generalize List.replicate 36 (0 : UInt8) = c at *
  by_cases h1 : a ≠ k₁ ∧ a ≠ k₂
  · exact ⟨_, a, ha, h1⟩
  by_cases h2 : b ≠ k₁ ∧ b ≠ k₂
  · exact ⟨_, b, hb, h2⟩
  · exact ⟨_, c, hc, by grind⟩

/-- A token minted at any point of a run is accepted at that moment, and up to its end over
at most one rotation when the overlap covers its lifetime, exactly when the boot key is in
force, and is still the primary key if the second half is to hold. -/
theorem minted_verifies_iff (cfg : Config) (wall mono : Nat) (before : List KeyEvent)
    {token : Token} {ttl : Nat}
    (h : MintedAt cfg (run (keyStep cfg) (.boot cfg wall mono) before) token ttl) :
    ((∃ c, (run (keyStep cfg) (.boot cfg wall mono) before).verifyNow token = .ok c) ∧
        (ttl ≤ cfg.jwtKeyOverlapTtl → ∀ after : List KeyEvent,
          rotations cfg (run (keyStep cfg) (.boot cfg wall mono) before) after ≤ 1 →
          (run (keyStep cfg) (.boot cfg wall mono) (before ++ after)).wall <
            secondsToMicros
              (wholeSeconds (run (keyStep cfg) (.boot cfg wall mono) before).wall + ttl) →
          ∃ c, (run (keyStep cfg) (.boot cfg wall mono) (before ++ after)).verifyNow token =
            .ok c)) ↔
      (run (keyStep cfg) (.boot cfg wall mono) before).slots.InForce
          (run (keyStep cfg) (.boot cfg wall mono) before).mono cfg.jwtPrimaryKey ∧
        (ttl ≤ cfg.jwtKeyOverlapTtl →
          (run (keyStep cfg) (.boot cfg wall mono) before).slots.primary = cfg.jwtPrimaryKey) := by
  simp only [run_append]
  generalize run (keyStep cfg) (.boot cfg wall mono) before = st at *
  have hpos := h.shape.1
  have hnow : st.wall < secondsToMicros (wholeSeconds st.wall + ttl) := by
    simp only [secondsToMicros, wholeSeconds]
    omega
  rw [h.accepted_iff le_rfl hnow]
  refine and_congr_right fun _ => forall_congr' fun hov => ?_
  constructor
  · intro hstays
    by_contra hne
    obtain ⟨raw, key, hraw, hk1, hk2⟩ := exists_fresh_key st.slots.primary cfg.jwtPrimaryKey
    have hrot : handleRotation cfg (.content raw) st.mono st.slots =
        (.rotated, ⟨key, some st.slots.primary, some st.mono, cfg.jwtKeyOverlapTtl⟩) := by
      simp [handleRotation, hraw, hk1]
    have hacc := hstays [.rotate (.content raw)] (by simp [rotations, hrot])
      (by simpa [keyStep] using hnow)
    rw [h.accepted_iff (by simp [keyStep]) (by simpa [keyStep] using hnow)] at hacc
    rcases hacc with hp | ⟨hs, -⟩
    · exact hk2 (by simpa [keyStep, hrot] using hp)
    · exact hne (by simpa [keyStep, hrot] using hs)
  · intro hprim after hrot hlt
    obtain ⟨hw, hm, hclock⟩ := clocks_run cfg st after
    rw [h.accepted_iff hw hlt]
    rcases primary_run hrot with hp | ⟨r, hr, hlast, hov', hsec⟩
    · exact .inl (hp.trans hprim)
    · have hin : (run (keyStep cfg) st after).mono < r + secondsToMicros cfg.jwtKeyOverlapTtl := by
        simp only [secondsToMicros, wholeSeconds] at hlt ⊢
        omega
      refine .inr ⟨?_, fun last hl => ?_⟩
      · rcases hsec with hs | hend
        · rw [hs, hprim]
        · omega
      · obtain rfl := Option.some.inj (hl.symm.trans hlast)
        rw [hov']
        exact hin

/-- A token minted right after the start is accepted then, and up to its end over at most one
rotation. -/
theorem minted_verifies_at_boot :
    (∃ c, (KeyState.boot srvConfig 5000000 0).verifyNow
        (sign (buildClaims "inbox/a:b/p" (smallMeta ["f"]) "a:b" 300 5) srvConfig.jwtPrimaryKey 9) =
          .ok c) ∧
      (300 ≤ srvConfig.jwtKeyOverlapTtl → ∀ after : List KeyEvent,
        rotations srvConfig (.boot srvConfig 5000000 0) after ≤ 1 →
        (run (keyStep srvConfig) (.boot srvConfig 5000000 0) after).wall < 305000000 →
        ∃ c, (run (keyStep srvConfig) (.boot srvConfig 5000000 0) after).verifyNow
          (sign (buildClaims "inbox/a:b/p" (smallMeta ["f"]) "a:b" 300 5)
            srvConfig.jwtPrimaryKey 9) = .ok c) :=
  (minted_verifies_iff srvConfig 5000000 0 []
    (.download "inbox/a:b/p" (smallMeta ["f"]) "a:b" 9)).mpr ⟨.inl rfl, fun _ => rfl⟩

/-- Once a rotation's overlap is over, a token is refused at the moment it is minted. -/
theorem minted_refused_after_rotation :
    ∃ st token, st = run (keyStep srvConfig) (.boot srvConfig 0 0)
        [.rotate (.content (List.replicate 44 65)), .advance 600000000] ∧
      MintedAt srvConfig st token 300 ∧ st.verifyNow token = .error .invalidSignature :=
  ⟨_, _, rfl, .download "inbox/a:b/p" (smallMeta ["f"]) "a:b" 9, by decide⟩

end Runs

end Cassetta
