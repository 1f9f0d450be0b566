import Cassetta.Server.State
import Cassetta.Surface.Background
import Cassetta.Surface.Download
import Cassetta.Surface.Files
import Cassetta.Surface.Mcp

/-!
# Runs of the whole server

A run is a list of events: requests on any surface, background passes, the passing of time,
a key rotation. Downloads and tar uploads last: their chunks and entries are events of their
own, in any order with everything else. Beside the server the system keeps what an observer
would note down: the tokens handed out, and the files streamed to their last byte, each with
the manifest file that was in place then.
-/

namespace Cassetta

/-! ## Requests -/

/-- Requests and background passes that have no claim store and hand out no download token. -/
inductive PlainRequest where
  | putFile (identity : Identity) (path : String) (body : Body)
  | listFiles (identity : Identity) (pre : String)
  | peekFile (identity : Identity) (path : String)
  | deleteFile (identity : Identity) (path : String)
  | peekInbox (identity : Identity) (agent path : String)
  | deleteInbox (identity : Identity) (agent path : String)
  | broadcast (identity : Identity) (path : String) (body : Body)
  | uploads (identity : Identity) (to_ path : String) (manifest : SendManifest)
  | mcpSendInit (caller : Mcp.Caller) (to_ path : String) (manifest : SendManifest)
  | mcpSendInline (token : Token) (files : List SendInlineFile)
  | mcpPut (caller : Mcp.Caller) (path content : String) (files : FilesArg)
  | mcpDelete (caller : Mcp.Caller) (path : String)
  | mcpList (caller : Mcp.Caller) (pre : String)
  | mcpPeek (caller : Mcp.Caller) (path : String)
  | mcpBroadcast (caller : Mcp.Caller) (overHttp : Bool) (path content : String) (files : FilesArg)
  | sweep
  | ttlCleanup

/-- Listings of an inbox. -/
inductive ListRequest where
  | rest (identity : Identity) (agent pre : String)
  | mcp (caller : Mcp.Caller) (agent pre : String)

/-- Reads that leave the bundle where it is. -/
inductive ReadRequest where
  | file (identity : Identity) (path : String)
  | mcpGet (caller : Mcp.Caller) (path : String)
  | inbox (identity : Identity) (agent path : String)

/-- Reads that consume. -/
inductive PickRequest where
  | rest (identity : Identity) (agent path : String)
  | mcp (caller : Mcp.Caller) (path : String)

/-- Run for the effect. -/
def discard {α : Type} (x : Handler α) : Handler Unit := do
  let _ ← x
  pure ()

section Handlers

variable (cfg : Config)

def PlainRequest.handler : PlainRequest → Handler Unit
  | .putFile identity path body => discard (Files.uploadFile cfg identity path body)
  | .listFiles identity pre => discard (Files.listFiles cfg identity pre)
  | .peekFile identity path => discard (Files.peekStoreFile cfg identity path)
  | .deleteFile identity path => Files.deleteFile identity path
  | .peekInbox identity agent path => discard (Inbox.peekInboxFile cfg identity agent path)
  | .deleteInbox identity agent path => Inbox.deleteInboxFile identity agent path
  | .broadcast identity path body => discard (Agents.broadcast cfg identity path body)
  | .uploads identity to_ path manifest =>
    discard (createUploadSession cfg identity to_ path manifest)
  | .mcpSendInit caller to_ path manifest =>
    discard (Mcp.cassettaSendInit cfg caller to_ path manifest)
  | .mcpSendInline token files => discard (cassettaSendInline token files)
  | .mcpPut caller path content files => discard (Mcp.cassettaPut cfg caller path content files)
  | .mcpDelete caller path => Mcp.cassettaDelete cfg caller path
  | .mcpList caller pre => discard (Mcp.cassettaList cfg caller pre)
  | .mcpPeek caller path => discard (Mcp.cassettaPeek cfg caller path)
  | .mcpBroadcast caller overHttp path content files =>
    discard (Mcp.cassettaBroadcast cfg caller overHttp path content files)
  | .sweep => Background.sweep cfg
  | .ttlCleanup => Background.ttlCleanup cfg

def ListRequest.handler : ListRequest → ClaimHandler (List ListingEntry)
  | .rest identity agent pre => Inbox.listInbox cfg identity agent pre
  | .mcp caller agent pre => Mcp.cassettaInbox cfg caller agent pre

def ReadRequest.handler : ReadRequest → ClaimHandler Envelope
  | .file identity path => plain (Files.downloadFile cfg identity path)
  | .mcpGet caller path => plain (Mcp.cassettaGet cfg caller path)
  | .inbox identity agent path => Inbox.getInboxFile cfg identity agent path

def PickRequest.handler : PickRequest → ClaimHandler Envelope
  | .rest identity agent path => do
    let (env, _) ← Inbox.pickInboxFile cfg identity agent path
    pure env
  | .mcp caller path => Mcp.cassettaPick cfg caller path

end Handlers

/-! ## The system -/

/-- A download token that was handed out, and the manifest file in place then. -/
structure Handed where
  claims : Claims
  found : Option Blob
  picked : Bool

/-- A download under way, and the manifest file in place when it was answered. -/
structure OpenStream where
  stream : Download.Stream
  found : Option Blob

/-- A file that was streamed to its last byte. -/
structure Streamed where
  jti : Id
  name : String
  found : Option Blob

structure System where
  server : Server
  streams : List (Option OpenStream) := []
  uploads : List (Option Upload.Task) := []
  handed : List Handed := []
  streamed : List Streamed := []

/-- The manifest file of a bundle path. -/
def Backend.manifestBlob (b : Backend) (d : Disk) (path : String) : Option Blob :=
  d.tree.fileAt (b.location path ++ [bundleManifest])

/-- One thing that happens. -/
inductive Event where
  | plain (r : PlainRequest)
  | list (r : ListRequest)
  | read (r : ReadRequest)
  | pick (r : PickRequest)
  | download (req : Download.Request)
  | chunk (k : Nat)
  | disconnect (k : Nat)
  | uploadBegin (token : Option Token) (bundlePath : String)
  | uploadEntry (k : Nat) (info : Upload.TarEntry)
  | uploadEnd (k : Nat) (end_ : Upload.TarEnd)
  | sweepClaims
  | rotate (file : KeyFile)
  | setKeys (keys : List KeyInfo)
  | tick (micros : Nat)

/-- What an event's program comes back with. -/
inductive Reply where
  | done
  | envelope (env : Envelope)
  | stream (st : Download.Stream)
  | upload (task : Upload.Task)

/-- The download behind a number, while it is under way. -/
def System.openStream (sys : System) (k : Nat) : Option OpenStream := (sys.streams[k]?).join

/-- The upload behind a number, while it is under way. -/
def System.openUpload (sys : System) (k : Nat) : Option Upload.Task := (sys.uploads[k]?).join

section Step

variable (cfg : Config) (env : Environment)

/-- The program an event runs. -/
def Event.program (sys : System) : Event → ClaimHandler Reply
  | .plain r => do
    Cassetta.plain (r.handler cfg)
    pure .done
  | .list r => do
    let _ ← r.handler cfg
    pure .done
  | .read r => do
    let envelope ← r.handler cfg
    pure (.envelope envelope)
  | .pick r => do
    let envelope ← r.handler cfg
    pure (.envelope envelope)
  | .download req => do
    let st ← Cassetta.plain (Download.downloadFile cfg req)
    pure (.stream st)
  | .chunk k =>
    match sys.openStream k with
    | none => pure .done
    | some o =>
      if o.stream.unread = [] then do
        o.stream.finish
        pure .done
      else pure .done
  | .uploadBegin token bundlePath => do
    let task ← Cassetta.plain (Upload.begin token bundlePath)
    pure (.upload task)
  | .uploadEntry k info =>
    match sys.openUpload k with
    | none => pure .done
    | some task => do
      let task' ← Cassetta.plain (Upload.entry cfg task info)
      pure (.upload task')
  | .uploadEnd k end_ =>
    match sys.openUpload k with
    | none => pure .done
    | some task => do
      Cassetta.plain (Upload.finish task end_)
      pure .done
  | .sweepClaims => do
    Background.sweepClaims cfg
    pure .done
  | .disconnect _ => pure .done
  | .rotate _ => pure .done
  | .setKeys _ => pure .done
  | .tick _ => pure .done

/-- The token of an envelope. -/
def Envelope.token : Envelope → Option Token
  | .inline .. => none
  | .reference r => some r.downloadToken

/-- What is noted down of an answer that may carry a token. -/
def handedBy (d : Disk) (picked : Bool) : Except Exc Reply → List Handed
  | .ok (.envelope envelope) =>
    match envelope.token with
    | some (.signed claims _) =>
      [⟨claims, cfg.backend.manifestBlob d (claims.bundlePath.getD ""), picked⟩]
    | _ => []
  | _ => []

/-- What is noted down of a generator that reads the end of its file. -/
def System.streamedBy (sys : System) : Event → List Streamed
  | .chunk k =>
    match sys.openStream k with
    | none => []
    | some o => if o.stream.unread = [] then [⟨o.stream.jti, o.stream.name, o.found⟩] else []
  | _ => []

/-- The downloads after an event. -/
def System.streamsAfter (sys : System) (d : Disk) : Event → Except Exc Reply →
    List (Option OpenStream)
  | .download _, .ok (.stream st) =>
    sys.streams ++ [some ⟨st, cfg.backend.manifestBlob d st.bundlePath⟩]
  | .chunk k, _ =>
    match sys.openStream k with
    | none => sys.streams
    | some o =>
      sys.streams.set k
        (if o.stream.unread = [] then none else some { o with stream := o.stream.advance })
  | .disconnect k, _ => sys.streams.set k none
  | _, _ => sys.streams

/-- The uploads after an event. -/
def System.uploadsAfter (sys : System) : Event → Except Exc Reply → List (Option Upload.Task)
  | .uploadBegin .., .ok (.upload task) => sys.uploads ++ [some task]
  | .uploadEntry k _, .ok (.upload task) => sys.uploads.set k (some task)
  | .uploadEntry k _, .error _ => sys.uploads.set k none
  | .uploadEnd k _, _ => sys.uploads.set k none
  | _, _ => sys.uploads

/-- The tokens an event hands out. -/
def Event.hands (d : Disk) : Event → Except Exc Reply → List Handed
  | .read _, r => handedBy cfg d false r
  | .pick _, r => handedBy cfg d true r
  | _, _ => []

/-- What an event does to the server outside of any handler. -/
def Event.outside (s : Server) : Event → Server
  | .rotate file => { s with slots := (handleRotation cfg file s.mono s.slots).2 }
  | .setKeys keys => { s with keys := keys }
  | .tick micros => s.tick micros
  | _ => s

/-- The system after an event. -/
def System.step (sys : System) (e : Event) : System :=
  let (r, s) := Prog.runE (execAny cfg env) (e.program cfg sys) sys.server
  { server := e.outside cfg s
    streams := sys.streamsAfter cfg s.disk e r
    uploads := sys.uploadsAfter e r
    handed := sys.handed ++ e.hands cfg s.disk r
    streamed := sys.streamed ++ sys.streamedBy e }

/-- The system after a run. -/
def System.run (sys : System) (events : List Event) : System :=
  Runs.run (System.step cfg env) sys events

/-- Every call an event makes meets a condition in the state it is made from. -/
def System.Calls (guard : Server → AnyCall → Prop) (sys : System) (e : Event) : Prop :=
  Prog.wpE (execAny cfg env) guard (e.program cfg sys) (fun _ _ => True) (fun _ _ => True)
    sys.server

instance (guard : Server → AnyCall → Prop) [∀ s c, Decidable (guard s c)] (sys : System)
    (e : Event) : Decidable (sys.Calls cfg env guard e) :=
  inferInstanceAs (Decidable (Prog.wpE ..))

/-- Nobody but the server signs with the server's keys: a download token that the current
keys accept is one that was handed out. -/
def System.Vouches (sys : System) : Option Token → Prop
  | some (.signed claims key) =>
    (key = sys.server.slots.primary ∨ sys.server.slots.secondary = some key) →
      claims.fileNames.isSome → claims ∈ sys.handed.map (·.claims)
  | _ => True

instance (sys : System) : ∀ token, Decidable (sys.Vouches token)
  | some (.signed _ _) => inferInstanceAs (Decidable (_ → _ → _))
  | some .malformed => .isTrue trivial
  | none => .isTrue trivial

/-- A download presents no forged token. -/
def System.Genuine (sys : System) : Event → Prop
  | .download req => sys.Vouches req.bearer
  | _ => True

instance (sys : System) : ∀ e, Decidable (sys.Genuine e)
  | .download req => inferInstanceAs (Decidable (sys.Vouches req.bearer))
  | .plain _ | .list _ | .read _ | .pick _ | .chunk _ | .disconnect _ | .uploadBegin .. |
    .uploadEntry .. | .uploadEnd .. | .sweepClaims | .rotate _ | .setKeys _ | .tick _ =>
    .isTrue trivial

end Step

/-! ## A small server -/

/-- Two agents with a key each. -/
def srvKeys : List KeyInfo :=
  [⟨⟨"alice", by decide⟩, ⟨"a", by decide⟩, true⟩, ⟨⟨"bob", by decide⟩, ⟨"b", by decide⟩, true⟩]

/-- A server that has just started. -/
def srvSystem : System where
  server :=
    { disk := Disk.init srvTree
      slots := initJwtKeySlots srvConfig
      keys := srvKeys
      wall := 5000000
      mono := 0 }

def alice : Identity := { label := "alice:a" }

def bob : Identity := { label := "bob:b" }

/-- The claims of the first download token, for the file `p` that `alice` broadcasts at the
start. -/
def firstClaims : Claims :=
  { buildClaims "inbox/bob:b/p" ⟨1, 0, some "alice:a", 5000000, "application/octet-stream", 1,
      [⟨"p", 1, "application/octet-stream"⟩]⟩ "bob:b" 300 5 with jti := some 1 }

/-- The download of that file under that token. -/
def firstDownload : Download.Request where
  bearer := some (.signed firstClaims srvConfig.jwtPrimaryKey)
  rawPath := "/download/inbox%2Fbob%3Ab%2Fp/p"
  sender := some "bob:b"

end Cassetta
