import Cassetta.Cli.Download
import Cassetta.Guarantee.Urls
import Cassetta.Server.System

/-!
# The download command and the server

What `cassetta download` is given and what it sends: the reference envelope as JSON, and one GET for
each of its files. What comes back depends on what happens on the server while the stream is
open, and on how much of it gets through.
-/

namespace Cassetta

/-- A file of a reference envelope, as the recipient gets it. -/
def ReferenceFile.members (f : ReferenceFile) : List (PyStr × Json) :=
  [(PyStr.ofString "name", .str (PyStr.ofString f.name)),
    (PyStr.ofString "size", .num (.int f.size)),
    (PyStr.ofString "mime", .str (PyStr.ofString f.mime)),
    (PyStr.ofString "url", .str (PyStr.ofString f.url))]

def ReferenceFile.json (f : ReferenceFile) : Json := .obj f.members

/-- A reference envelope as the recipient gets it. How a token is written is given, and so are the
members that the command does not read. -/
def ReferenceEnvelope.json (encode : Token → PyStr) (bundle expiresAt : Json)
    (e : ReferenceEnvelope) : Json :=
  .obj [(PyStr.ofString "mode", .str (PyStr.ofString "reference")),
    (PyStr.ofString "bundle", bundle),
    (PyStr.ofString "files", .arr (e.files.map ReferenceFile.json)),
    (PyStr.ofString "download_token", .str (encode e.downloadToken)),
    (PyStr.ofString "expires_at", expiresAt)]

namespace Cli

/-- `_decode_recipient`. -/
def decodeRecipient : Token → Option String
  | .signed claims _ => claims.recipient.filter (· ≠ "")
  | .malformed => none

/-- The GET of one file: the token, and its recipient in `X-Sender`. -/
def getFile (token : Token) (url : String) : Download.Request where
  bearer := some token
  rawPath := rawPath url
  sender := decodeRecipient token

/-- A text that the client can put in the head of a request. -/
def sendable (s : String) : Bool := fieldValue s && s.toList.all fun c => c.toNat < 128

/-- Everything of a file came. -/
def Response.Whole : Response → Prop
  | .stream _ none => True
  | _ => False

instance : ∀ r : Response, Decidable r.Whole
  | .stream _ none => inferInstanceAs (Decidable True)
  | .stream _ (some _) => inferInstanceAs (Decidable False)
  | .fails _ => inferInstanceAs (Decidable False)

end Cli

/-- What goes out on a stream with an event. -/
def System.yields (sys : System) (k : Nat) : Event → Bytes
  | .chunk j =>
    if j = k then (sys.openStream k).elim [] fun o => o.stream.unread.take Download.chunkSize
    else []
  | _ => []

section Answers

variable (cfg : Config) (env : Environment)

/-- What goes out on a stream in a run, event by event. -/
def System.sends (k : Nat) : System → List Event → List Bytes
  | _, [] => []
  | sys, e :: rest => sys.yields k e :: (sys.step cfg env e).sends k rest

/-- What may come back on a GET while events happen: that it is refused; some of what has gone
out on its stream; or all of that, where it is as long as announced. -/
inductive System.Answers (sys : System) (req : Download.Request) (during : List Event) :
    Cli.Response → Prop
  | refused {e : Exc} {s : Server}
      (h : Prog.runE (exec cfg env) (Download.getDownload cfg req) sys.server = (.error e, s)) :
      Answers sys req during (.fails .httpStatusError)
  | broken {st : Download.Stream} {s : Server} {chunks : List Bytes}
      (h : Prog.runE (exec cfg env) (Download.getDownload cfg req) sys.server = (.ok st, s))
      (hsome : chunks.flatten <+: (System.sends cfg env sys.streams.length
        (sys.step cfg env (.download req)) during).flatten) :
      Answers sys req during (.stream chunks (some .httpError))
  | whole {st : Download.Stream} {s : Server} {chunks : List Bytes}
      (h : Prog.runE (exec cfg env) (Download.getDownload cfg req) sys.server = (.ok st, s))
      (hall : chunks.flatten = (System.sends cfg env sys.streams.length
        (sys.step cfg env (.download req)) during).flatten)
      (hlength : (chunks.flatten.length : Int) = st.contentLength) :
      Answers sys req during (.stream chunks none)

/-- A response a client gets to a GET in a run: one of those that may come back while its
stream is open, or none because there was no connection. -/
def System.Gets (start : System) (events : List Event) (req : Download.Request)
    (response : Cli.Response) : Prop :=
  response = .fails .httpError ∨ ∃ before during after,
    events = before ++ .download req :: (during ++ after) ∧
      (start.run cfg env before).Answers cfg env req during response

end Answers

end Cassetta
