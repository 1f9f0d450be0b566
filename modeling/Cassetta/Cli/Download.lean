import Cassetta.Core.FileOps
import Cassetta.Core.Json

/-!
# The download command

`cassetta download` on the recipient's machine: a reference envelope names files and where to
fetch them, and each is streamed to `--out/<name>`. The names are those of the envelope. Paths
are what pathlib makes of them, and components become bytes as `os.fsencode` has it.
-/

namespace Cassetta.Cli

open FileTree

/-! ## Paths -/

/-- A code point in a file name: UTF-8, with a lone surrogate from `U+DC80` to `U+DCFF` as the
byte it stands for. The others, and NUL, are a `ValueError`. -/
def fsencodePoint (c : Nat) : Option (List UInt8) :=
  if c = 0 then none
  else if 0xDC80 ≤ c ∧ c ≤ 0xDCFF then some [UInt8.ofNat (c - 0xDC00)]
  else if 0xD800 ≤ c ∧ c ≤ 0xDFFF then none
  else some (String.utf8EncodeChar (Char.ofNat c))

/-- `os.fsencode` of a component. -/
def fsencode (s : PyStr) : Option (List UInt8) := (s.mapM fsencodePoint).map List.flatten

/-- A component of a path, or one that cannot be handed to the system. -/
abbrev Part := Option (Step (List UInt8))

def Part.ofText (component : PyStr) : Part :=
  if component = PyStr.ofString ".." then some .up else (fsencode component).map .into

/-- The components pathlib keeps of a text. -/
def parts (s : PyStr) : List Part :=
  ((s.splitOn '/'.toNat).filter fun c => c ≠ [] ∧ c ≠ PyStr.ofString ".").map Part.ofText

/-- `out / name`: an absolute name starts over. -/
def dest (out : List (Step (List UInt8))) (name : PyStr) : List Part :=
  if name.head? = some '/'.toNat then parts name else out.map some ++ parts name

/-- A path as the system takes it. -/
def encoded (path : List Part) : Option (List (Step (List UInt8))) := path.mapM id

/-- A path is encoded if each of its parts is. -/
theorem encoded_eq_some_iff {path : List Part} {steps : List (Step (List UInt8))} :
    encoded path = some steps ↔ path = steps.map some := by
  unfold encoded
  induction path generalizing steps with
  | nil => cases steps <;> simp
  | cons p path ih =>
    cases steps with
    | nil => cases p <;> simp [Option.bind_eq_some_iff]
    | cons s steps => cases p <;> simp [Option.bind_eq_some_iff, ih, and_comm]

/-- A path that can be handed over has a parent that can. -/
theorem encoded_dropLast {path : List Part} {steps : List (Step (List UInt8))}
    (h : encoded path = some steps) : encoded path.dropLast = some steps.dropLast := by
  rw [encoded_eq_some_iff] at h ⊢
  rw [h, List.map_dropLast]

/-! ## Downloading -/

/-- How the command ends early. -/
inductive Stop where
  | exit (code : Nat)
  | httpStatusError
  | httpError
  | osError (errno : Errno)
  | valueError
  deriving DecidableEq, Repr

/-- What comes of a request: it fails, or its status is no success, or chunks are streamed and
possibly broken off. -/
inductive Response where
  | fails (why : Stop)
  | stream (chunks : List (List UInt8)) (broken : Option Stop)
  deriving DecidableEq, Repr

/-- The recipient's files, and the names that were opened for writing with where they lay. -/
structure Local where
  tree : Tree (List UInt8) (List UInt8)
  opened : List (PyStr × List (List UInt8)) := []

/-- `_write_file_streaming`. -/
def writeFileStreaming (response : Response) (name : PyStr) (path : List Part) (s : Local) :
    Except Stop Unit × Local :=
  match encoded path.dropLast with
  | none => (.error .valueError, s)
  | some parent =>
    match s.tree.mkdirParents parent with
    | (.error e, t) => (.error (.osError e), { s with tree := t })
    | (.ok (), t) =>
      match response with
      | .fails why => (.error why, { s with tree := t })
      | .stream chunks broken =>
        match encoded path with
        | none => (.error .valueError, { s with tree := t })
        | some steps =>
          match t.write steps chunks.flatten with
          | .error e => (.error (.osError e), { s with tree := t })
          | .ok t' =>
            (match broken with
              | some why => .error why
              | none => .ok (),
              ⟨t', s.opened ++ [(name, normalize steps)]⟩)

/-- `str(entry.get(key, ""))`; `str` of anything but a string is given. -/
def textOf (str : Json → PyStr) (members : List (PyStr × Json)) (key : String) : PyStr :=
  match Json.getMember members key with
  | none => []
  | some (.str s) => s
  | some v => str v

/-- `_download_all`, the responses to come given. -/
def downloadAll (str : Json → PyStr) (out : List (Step (List UInt8))) :
    (Nat → Response) → List Json → Local → Except Stop Unit × Local
  | _, [], s => (.ok (), s)
  | server, .obj members :: rest, s =>
    let name := textOf str members "name"
    if name = [] ∨ textOf str members "url" = [] then (.error (.exit 2), s)
    else
      match writeFileStreaming (server 0) name (dest out name) s with
      | (.error why, s') => (.error why, s')
      | (.ok (), s') => downloadAll str out (fun n => server (n + 1)) rest s'
  | _, _ :: _, s => (.error (.exit 2), s)

/-- The files of a reference envelope; none where the command refuses it. -/
def referenceFiles : Json → Option (List Json)
  | .obj members =>
    match Json.getMember members "mode", Json.getMember members "download_token",
      Json.getMember members "files" with
    | some (.str mode), some (.str token), some (.arr files) =>
      if mode = PyStr.ofString "reference" ∧ token ≠ [] ∧ files ≠ [] then some files else none
    | _, _, _ => none
  | _ => none

/-- `download` from a parsed manifest on. -/
def download (str : Json → PyStr) (out : List (Step (List UInt8))) (server : Nat → Response)
    (envelope : Json) (tree : Tree (List UInt8) (List UInt8)) : Except Stop Unit × Local :=
  match referenceFiles envelope with
  | none => (.error (.exit 2), ⟨tree, []⟩)
  | some files =>
    match tree.mkdirParents out with
    | (.error e, t) => (.error (.osError e), ⟨t, []⟩)
    | (.ok (), t) =>
      match downloadAll str out server files ⟨t, []⟩ with
      | (.error .httpStatusError, s) => (.error (.exit 2), s)
      | (.error .httpError, s) => (.error (.exit 1), s)
      | done => done

end Cassetta.Cli
