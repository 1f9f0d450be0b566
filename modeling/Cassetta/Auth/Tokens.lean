import Cassetta.Policy.Limits

/-!
# Signed tokens

A token is a record of claims together with the key it was signed with; a signature verifies
under that key and under no other. `verify` tries the primary key, then the secondary, and
checks the required claims and the three times as `pyjwt` does without leeway.
-/

namespace Cassetta

/-- A UUID. -/
abbrev Id := Nat

/-- The claims the server puts into a token; any of them may be missing from one it reads. -/
structure Claims where
  bundlePath : Option String := none
  bundleId : Option Id := none
  sender : Option String := none
  recipient : Option String := none
  mode : Option UploadMode := none
  manifest : Option (List FileRecord) := none
  fileNames : Option (List String) := none
  iat : Option Nat := none
  nbf : Option Nat := none
  exp : Option Nat := none
  jti : Option Id := none
  deriving DecidableEq, Repr

/-- What a bearer header may carry. -/
inductive Token where
  | signed (claims : Claims) (key : SigningKey)
  | malformed
  deriving DecidableEq, Repr

inductive RequiredClaim where
  | exp
  | nbf
  | iat
  | jti
  deriving DecidableEq, Repr

/-- The `TokenError` classes. -/
inductive TokenError where
  | expired
  | notYetValid
  | invalidSignature
  | missingClaim (claim : RequiredClaim)
  | decode
  | revoked (jti : Id)
  deriving DecidableEq, Repr

/-- `sign`: a fresh `jti` goes in unless the caller supplied one. -/
def sign (claims : Claims) (key : SigningKey) (fresh : Id) : Token :=
  .signed { claims with jti := some (claims.jti.getD fresh) } key

/-- Whether a moment lies at or after a whole second. -/
def reached (now : Nat) (second : Nat) : Bool := secondsToMicros second ≤ now

/-- A second is reached when the clock shows it. -/
theorem reached_iff {now second : Nat} : reached now second = true ↔ second * 1000000 ≤ now := by
  unfold reached secondsToMicros
  exact decide_eq_true_iff

/-- A second is not reached before the clock shows it. -/
theorem not_reached_iff {now second : Nat} :
    reached now second = false ↔ now < second * 1000000 := by
  rw [← not_iff_not, Bool.not_eq_false, reached_iff, not_lt]

/-- The checks `pyjwt` makes on the claims of a token whose signature is right. -/
def checkClaims (now : Nat) (c : Claims) : Except TokenError Unit :=
  match c.exp, c.nbf, c.iat, c.jti with
  | none, _, _, _ => .error (.missingClaim .exp)
  | some _, none, _, _ => .error (.missingClaim .nbf)
  | some _, some _, none, _ => .error (.missingClaim .iat)
  | some _, some _, some _, none => .error (.missingClaim .jti)
  | some exp, some nbf, some iat, some _ =>
    if ¬reached now iat then .error .notYetValid
    else if ¬reached now nbf then .error .notYetValid
    else if reached now exp then .error .expired
    else .ok ()

/-- `_decode_with`. -/
def decodeWith (now : Nat) (token : Token) (key : SigningKey) : Except TokenError Claims :=
  match token with
  | .malformed => .error .decode
  | .signed claims k =>
    if k ≠ key then .error .invalidSignature
    else match checkClaims now claims with
      | .error e => .error e
      | .ok () => .ok claims

/-- Decode with the primary key, and with the secondary when the signature is not the
primary's. -/
def decodeEither (now : Nat) (token : Token) (primary : SigningKey)
    (secondary : Option SigningKey) : Except TokenError Claims :=
  match decodeWith now token primary with
  | .error .invalidSignature =>
    match secondary with
    | none => .error .invalidSignature
    | some key => decodeWith now token key
  | r => r

/-- `_noop_revocation_check`. -/
def noopRevocationCheck (_ : Id) : Option TokenError := none

/-- `verify`, with the revocation hook. -/
def verifyWith (revocationCheck : Id → Option TokenError) (now : Nat) (token : Token)
    (primary : SigningKey) (secondary : Option SigningKey) : Except TokenError Claims :=
  match decodeEither now token primary secondary with
  | .error e => .error e
  | .ok claims =>
    match revocationCheck (claims.jti.getD 0) with
    | some e => .error e
    | none => .ok claims

/-- `verify` as the server runs it. -/
def verify (now : Nat) (token : Token) (primary : SigningKey)
    (secondary : Option SigningKey) : Except TokenError Claims :=
  verifyWith noopRevocationCheck now token primary secondary

/-! ## The two kinds of token the server mints -/

/-- The claims of `_build_claims`, for a download. -/
def buildClaims (bundlePath : String) (m : BundleMeta) (recipient : String) (ttl : Nat)
    (iat : Nat) : Claims where
  bundlePath := some bundlePath
  bundleId := some m.bundleId
  recipient := some recipient
  fileNames := some m.names
  iat := some iat
  nbf := some iat
  exp := some (iat + ttl)

/-- The claims `prepare_send_init` signs, for an upload. -/
def uploadClaims (bundlePath : String) (bundleId : Id) (sender recipient : String)
    (mode : UploadMode) (manifest : List FileRecord) (ttl : Nat) (iat : Nat) : Claims where
  bundlePath := some bundlePath
  bundleId := some bundleId
  sender := some sender
  recipient := some recipient
  mode := some mode
  manifest := some manifest
  iat := some iat
  nbf := some iat
  exp := some (iat + ttl)

/-! ## What verification accepts -/

/-- The three times of a token are in order at a moment. -/
def Claims.Timely (c : Claims) (now : Nat) : Prop :=
  ∃ exp nbf iat jti, c.exp = some exp ∧ c.nbf = some nbf ∧ c.iat = some iat ∧ c.jti = some jti ∧
    reached now iat = true ∧ reached now nbf = true ∧ reached now exp = false

private theorem checkClaims_ok_iff {now : Nat} {c : Claims} :
    checkClaims now c = .ok () ↔ c.Timely now := by
  unfold checkClaims Claims.Timely
  cases hexp : c.exp <;> cases hnbf : c.nbf <;> cases hiat : c.iat <;> cases hjti : c.jti <;> simp
  rename_i exp nbf iat jti
  cases reached now iat <;> cases reached now nbf <;> cases reached now exp <;> simp

private theorem checkClaims_ne_invalidSignature (now : Nat) (c : Claims) :
    checkClaims now c ≠ .error .invalidSignature := by
  unfold checkClaims
  split
  iterate 4 simp
  split
  · simp
  · split
    · simp
    · split <;> simp

/-- A signature made with the primary key is the end of the search for a key. -/
theorem decodeEither_primary (now : Nat) (c : Claims) (key : SigningKey)
    (secondary : Option SigningKey) :
    decodeEither now (.signed c key) key secondary = decodeWith now (.signed c key) key := by
  have hne := checkClaims_ne_invalidSignature now c
  unfold decodeEither decodeWith
  simp only [ne_eq, not_true_eq_false, if_false]
  cases h : checkClaims now c with
  | ok u => rfl
  | error e => cases e <;> first | rfl | exact absurd h hne

private theorem decodeWith_ok_iff {now : Nat} {token : Token} {key : SigningKey} {c : Claims} :
    decodeWith now token key = .ok c ↔ token = .signed c key ∧ c.Timely now := by
  cases token with
  | malformed => simp [decodeWith]
  | signed claims k =>
    unfold decodeWith
    by_cases hk : k = key
    · subst hk
      rw [← checkClaims_ok_iff]
      cases h : checkClaims now claims with
      | error e =>
        simp only [ne_eq, not_true_eq_false, if_false, h, reduceCtorEq, Token.signed.injEq,
          and_true,
          false_iff, not_and]
        rintro rfl
        simp [h]
      | ok u =>
        simp only [ne_eq, not_true_eq_false, if_false, h, Except.ok.injEq, Token.signed.injEq,
          and_true]
        constructor
        · rintro rfl
          exact ⟨rfl, h⟩
        · exact And.left
    · simp [hk]

/-- A token is accepted when it is signed with one of the two keys and its times are in
order. -/
theorem verify_ok_iff {now : Nat} {token : Token} {primary : SigningKey}
    {secondary : Option SigningKey} {c : Claims} :
    verify now token primary secondary = .ok c ↔
      ∃ key, token = .signed c key ∧ c.Timely now ∧ (key = primary ∨ secondary = some key) := by
  have hverify : verify now token primary secondary = decodeEither now token primary secondary := by
    unfold verify verifyWith
    cases decodeEither now token primary secondary <;> simp [noopRevocationCheck]
  rw [hverify]
  cases token with
  | malformed => simp [decodeEither, decodeWith]
  | signed claims k =>
    by_cases hk : k = primary
    · subst hk
      rw [decodeEither_primary, decodeWith_ok_iff]
      constructor
      · rintro ⟨heq, ht⟩
        exact ⟨k, heq, ht, .inl rfl⟩
      · rintro ⟨k', heq, ht, -⟩
        obtain ⟨rfl, rfl⟩ := Token.signed.inj heq
        exact ⟨rfl, ht⟩
    · have hbad : decodeWith now (.signed claims k) primary = .error .invalidSignature := by
        simp [decodeWith, hk]
      unfold decodeEither
      rw [hbad]
      cases secondary with
      | none => simp [hk]
      | some key =>
        simp only [decodeWith_ok_iff, Token.signed.injEq]
        constructor
        · rintro ⟨⟨rfl, rfl⟩, ht⟩
          exact ⟨k, ⟨rfl, rfl⟩, ht, .inr rfl⟩
        · rintro ⟨k', ⟨rfl, rfl⟩, ht, rfl | hs⟩
          · exact absurd rfl hk
          · exact ⟨⟨rfl, (Option.some.inj hs).symm⟩, ht⟩

end Cassetta
