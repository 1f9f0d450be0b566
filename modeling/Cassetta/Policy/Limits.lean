import Cassetta.Storage.Backend

/-!
# Configuration and size limits

`CoreLimitsPolicy` over a `LimitsConfig`: the checks every write surface makes on a manifest,
and the choice between inline and reference mode on a read. The rest of the settings are in
`Config`.
-/

namespace Cassetta

abbrev SigningKey := Bytes

/-- One declared file. -/
structure ManifestFile where
  name : String
  size : Int
  mime : Option String
  deriving DecidableEq, Repr

/-- `UploadManifest`. -/
structure UploadManifest where
  fileCount : Int
  files : List ManifestFile
  deriving DecidableEq, Repr

/-- `LimitsConfig`; an absent cap is no limit, and no lifetime is zero. -/
structure LimitsConfig where
  perFileMax : Option Int := none
  perBundleTotalMax : Option Int := none
  perBundleFileCountMax : Option Int := some 25
  maxInlineSize : Option Int := some (100 * 1024)
  uploadTokenTtl : Nat := 300
  downloadClaimTtl : Nat := 300
  passiveGcMinAge : Nat := 3600
  passiveGcInterval : Nat := 600
  uploadTokenTtl_pos : 0 < uploadTokenTtl := by decide
  downloadClaimTtl_pos : 0 < downloadClaimTtl := by decide

inductive LimitsErrorKind where
  | capExceeded
  | batchRequired
  deriving DecidableEq, Repr

inductive LimitsConstraint where
  | perFileMax
  | perBundleTotalMax
  | perBundleFileCountMax
  | maxInlineSize
  deriving DecidableEq, Repr

/-- `LimitsRejection`, without its text for humans. -/
structure LimitsRejection where
  error : LimitsErrorKind
  constraint : LimitsConstraint
  limit : Option Int
  observed : Int
  deriving DecidableEq, Repr

inductive UploadMode where
  | inline
  | batch
  deriving DecidableEq, Repr

inductive DownloadMode where
  | inline
  | reference
  deriving DecidableEq, Repr

/-- Whether a value is over a cap that is set. -/
def overCap (cap : Option Int) (value : Int) : Bool :=
  match cap with
  | none => false
  | some c => c < value

/-- The sum of the declared sizes. -/
def UploadManifest.totalSize (m : UploadManifest) : Int := (m.files.map (·.size)).sum

/-- `check_manifest_against_limits`. -/
def checkManifestAgainstLimits (m : UploadManifest) (limits : LimitsConfig) :
    Except LimitsRejection UploadMode :=
  if overCap limits.perBundleFileCountMax m.fileCount then
    .error ⟨.capExceeded, .perBundleFileCountMax, limits.perBundleFileCountMax, m.fileCount⟩
  else match m.files.find? (fun f => overCap limits.perFileMax f.size) with
    | some f => .error ⟨.capExceeded, .perFileMax, limits.perFileMax, f.size⟩
    | none =>
      if overCap limits.perBundleTotalMax m.totalSize then
        .error ⟨.capExceeded, .perBundleTotalMax, limits.perBundleTotalMax, m.totalSize⟩
      else if overCap limits.maxInlineSize m.totalSize then .ok .batch
      else .ok .inline

/-- `evaluate_download`. -/
def evaluateDownload (limits : LimitsConfig) (totalSize : Int) : DownloadMode :=
  if overCap limits.maxInlineSize totalSize then .reference else .inline

/-- `CapabilitiesDocument`; its limits and lifetimes are the settings of the policy. -/
structure CapabilitiesDocument where
  schemaVersion : Nat
  serverVersion : String
  supportedModes : List String
  limits : LimitsConfig
  features : List String

/-- `build_capabilities_document`, with `CoreLimitsPolicy`. -/
def buildCapabilitiesDocument (limits : LimitsConfig) : CapabilitiesDocument where
  schemaVersion := 1
  serverVersion := "0.30.1"
  supportedModes := ["inline", "batch", "reference"]
  limits := limits
  features := ["peek", "batch_upload", "reference_download", "rest_send_init"]

/-- The settings the model reads. `guessType` is the `mimetypes` table of the host. -/
structure Config where
  backend : Backend
  limits : LimitsConfig
  defaultTtl : Nat
  allowedPathChars : Char → Bool
  jwtPrimaryKey : SigningKey
  jwtSecondaryKey : Option SigningKey
  jwtKeyOverlapTtl : Nat
  publicBaseUrl : String
  devMode : Bool
  broadcastMaxTargets : Nat
  guessType : String → Option String

/-- `pick_mime`: an explicit type that is not empty, or the guess, or the default. -/
def Config.pickMime (cfg : Config) (name : String) (explicit : Option String) : String :=
  match explicit with
  | some mime => if mime = "" then (cfg.guessType name).getD "application/octet-stream" else mime
  | none => (cfg.guessType name).getD "application/octet-stream"

/-- The settings of a small server that serves every file by reference. -/
def srvConfig : Config where
  backend := srvBackend
  limits := { maxInlineSize := some 0 }
  defaultTtl := 0
  allowedPathChars := defaultAllowedChars
  jwtPrimaryKey := List.replicate 32 1
  jwtSecondaryKey := none
  jwtKeyOverlapTtl := 600
  publicBaseUrl := "http://localhost:16001"
  devMode := false
  broadcastMaxTargets := 1000
  guessType := fun _ => none

/-- A server that serves files of up to one byte inline. -/
def oneByteConfig : Config := { srvConfig with limits := { maxInlineSize := some 1 } }

/-- A server that delivers everything inline. -/
def inlineConfig : Config := { srvConfig with limits := {} }

end Cassetta
