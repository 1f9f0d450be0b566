import Cassetta.Guarantee.Urls

/-!
# The send command

`cassetta send` on the sender's machine: the arguments are normalised into names, a session is
made for a manifest of their sizes, and a tar of the files goes to its URL. The server is taken as
it is when each of the two requests arrives, and the network does to a request and its answer
what it likes. Resolving the configuration is left out.
-/

namespace Cassetta.Cli

open Prog

/-! ## Local files -/

/-- `_normalise_arg`; none where it raises `typer.BadParameter`. -/
def normaliseArg (arg : String) : Option String :=
  let arg := removePrefix arg "./"
  if arg = "" then none
  else if isAbsolute arg then none
  else match validatePath defaultAllowedChars arg with
    | .ok () => some arg
    | .error _ => none

/-- What `tarfile` finds at a path: a regular file, with its inode and whether that has further
links, or anything else. -/
inductive Found where
  | regular (inode : Nat) (linked : Bool) (data : Bytes)
  | other
  deriving DecidableEq, Repr

/-- The sender's files: what `os.path.getsize` says when the manifest is built, and what is there
when the tar is. An `OSError` is none. -/
structure Machine where
  sizeOf : String → Option Nat
  found : String → Option Found

/-- The manifest of `_send_async`. -/
def sendManifest (m : Machine) (files : List String) : Option SendManifest :=
  (files.mapM fun f => (m.sizeOf f).map fun (size : Nat) => (⟨f, size, none⟩ : ManifestFile)).map
    fun entries => ⟨entries, some files.length⟩

/-- `_tar_chunks`: the entries, and how the stream ends. A further name of an inode that is in the
archive is a hard link, and `_strip_owner` drops it like everything that is not a regular file. -/
def tarEntries (m : Machine) :
    List (Nat × String) → List String → List Upload.TarEntry × Upload.TarEnd
  | _, [] => ([], .complete)
  | inodes, path :: rest =>
    match m.found path with
    | none => ([], .broken)
    | some .other => tarEntries m inodes rest
    | some (.regular inode linked data) =>
      if linked ∧ (inodes.lookup inode).any (· ≠ path) then tarEntries m inodes rest
      else
        let (infos, end_) := tarEntries m ((inode, path) :: inodes) rest
        (⟨path, true, data.length, data⟩ :: infos, end_)

/-! ## Requests -/

/-- How the command ends early: with a code, with the `OSError` of a local file, or with the
`ValueError` of an answer that is no JSON. -/
inductive SendStop where
  | exit (code : Nat)
  | osError
  | unreadable
  deriving DecidableEq, Repr

/-- The status of an answer that is an error: that of the exception, or the one its handler in
`create_app` gives, or 500. -/
def errorStatus : Exc → Nat
  | .http status _ => status
  | .download status _ _ _ => status
  | .upload status _ _ _ => status
  | .storage (.bundlePathConflict _ _) => 409
  | .limits r => if r.error = .capExceeded then 413 else 422
  | .rateLimitExceeded => 429
  | .fanoutCapExceeded _ => 429
  | _ => 500

/-- `_raise_for_send`, on an error. -/
def raiseForSend (e : Exc) : SendStop :=
  if 400 ≤ errorStatus e ∧ errorStatus e < 500 then .exit 2 else .exit 3

/-- What becomes of a request on its way. It is answered, and the answer comes as it is, not at
all, or with a body that cannot be read; or the connection breaks before the request or some
entries into its tar. Without an answer `httpx` raises an `HTTPError`. -/
inductive Passage where
  | answered
  | lost
  | unreadable
  | unsent
  | cut (entries : Nat)
  deriving DecidableEq, Repr

/-- What the command makes of the answer to a request. -/
def Passage.received {α : Type} (passage : Passage) (answer : Except Exc α) : Except SendStop α :=
  match passage, answer with
  | .answered, .ok a => .ok a
  | .answered, .error e => .error (raiseForSend e)
  | .unreadable, .ok _ => .error .unreadable
  | .unreadable, .error e => .error (raiseForSend e)
  | _, _ => .error (.exit 1)

/-- `POST` to a path, which the server decodes and routes to `upload_bundle`. -/
def postUpload (cfg : Config) (token : Token) (uploadPath : String)
    (infos : List Upload.TarEntry) (end_ : Upload.TarEnd) : Handler Unit :=
  routed (routeParam "/upload/" uploadPath) fun param =>
    Upload.uploadBundle cfg (some token) param infos end_

section Send

variable (answer : (c : Call) → Server → c.Answer × Server) (cfg : Config) (identity : Identity)
  (m : Machine) (to_ path : String)

/-- The second request of `_send_async`. The answer of the server repeats the bundle's id. -/
def sendTar (files : List String) (r : SendInitResult) (passage : Passage) (s : Server) :
    Except SendStop Id × Server :=
  match tarEntries m [] files, passage with
  | _, .unsent => (.error (.exit 1), s)
  | (infos, _), .cut n =>
    (.error (.exit 1), (runE answer
      (postUpload cfg r.token (rawPath (r.uploadUrl.getD "")) (infos.take n) .broken) s).2)
  | (infos, end_), passage =>
    match runE answer (postUpload cfg r.token (rawPath (r.uploadUrl.getD "")) infos end_) s,
      end_ with
    | (result, s'), .complete => ((passage.received result).map fun () => r.bundleId, s')
    | (_, s'), _ => (.error .osError, s')

/-- `_send_async`, with the server as it is when the first request arrives, and as it is later. -/
def sendAsync (files : List String) (first second : Passage) (s later : Server) :
    Except SendStop Id × Server :=
  match sendManifest m files with
  | none => (.error .osError, later)
  | some raw =>
    match first.received (runE answer (createUploadSession cfg identity to_ path raw) s).1 with
    | .error stop => (.error stop, later)
    | .ok r => sendTar answer cfg m files r second later

/-- `send`. -/
def send (args : List String) (first second : Passage) (s later : Server) :
    Except SendStop Id × Server :=
  match args.mapM normaliseArg with
  | none => (.error (.exit 2), later)
  | some files => sendAsync answer cfg identity m to_ path files first second s later

end Send

end Cassetta.Cli
