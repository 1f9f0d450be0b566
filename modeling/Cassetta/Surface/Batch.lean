import Cassetta.Core.BoundedQueue
import Cassetta.Core.Runs
import Cassetta.Surface.Send

/-!
# The tar upload, as its threads run it

`upload_bundle` parses the archive in a worker thread and copies the request body to it through
a bounded queue. The copying, every write of a file and the request itself run on the event
loop, one at a time, and a put into a full queue blocks the loop. What `tarfile` makes of the
bytes it reads is a parameter.
-/

namespace Cassetta.Upload

/-! ## The reader -/

/-- What goes through the queue of a `SyncStreamReader`: a chunk, or the end. -/
abbrev Item := Option Bytes

/-- The consumer's side of a `SyncStreamReader`. -/
structure SyncStreamReader where
  pending : Bytes := []
  eofSeen : Bool := false
  deriving DecidableEq, Repr

/-- `read`, as far as it goes without the queue. -/
def SyncStreamReader.read (r : SyncStreamReader) (n : Int) : Option (Bytes × SyncStreamReader) :=
  if n = 0 then some ([], r)
  else if 0 < n ∧ n ≤ r.pending.length then
    some (r.pending.take n.toNat, { r with pending := r.pending.drop n.toNat })
  else if r.eofSeen then some (r.pending, { r with pending := [] })
  else none

/-- What `read` does with an item it gets from the queue. -/
def SyncStreamReader.take (r : SyncStreamReader) : Item → SyncStreamReader
  | none => { r with eofSeen := true }
  | some chunk => { r with pending := r.pending ++ chunk }

/-! ## The worker -/

/-- The header of a tar entry. -/
structure TarInfo where
  name : String
  isReg : Bool
  size : Int
  deriving DecidableEq, Repr

/-- What `tarfile` does next: it reads from the stream under it, comes back with a result, or
raises. -/
inductive TarStep (σ β : Type) where
  | read (n : Int) (k : Bytes → σ)
  | yields (b : β) (st : σ)
  | raised (e : Exc)

/-- An open `tarfile` in pipe mode. -/
structure Tarfile (σ : Type) where
  start : σ
  /-- The iterator: the next member, or none at the end of the archive. -/
  next : σ → TarStep σ (Option TarInfo)
  /-- `extractfile(info).read()`. -/
  contents : σ → TarStep σ Bytes

/-- The checks of `_stream_tar_into_writer` on a member before it is read. -/
def checkMember (cfg : Config) (files : List FileRecord) (info : TarInfo) :
    Except Exc FileRecord :=
  if ¬info.isReg then .error (violation "non_regular_entry" info.name)
  else match byName files info.name with
    | none => .error (violation "extra_file" info.name)
    | some f =>
      if info.size ≠ f.size then .error (violation "wrong_size" info.name)
      else if cfg.limits.perFileMax.getD defaultPerFileMax < info.size then
        .error (.limits ⟨.capExceeded, .perFileMax,
          some (cfg.limits.perFileMax.getD defaultPerFileMax), info.size⟩)
      else .ok f

/-- The check for missing files after the last member. -/
def checkMissing (task : Task) : Except Exc Nat :=
  match ((task.manifestFiles.map (·.name)).filter (· ∉ task.seen)).insertionSort (· ≤ ·) with
  | first :: _ => .error (violation "missing_file" first)
  | [] => .ok task.bytesTotal

/-- Where `_stream_tar_into_writer` is. -/
inductive Worker (σ : Type) where
  /-- In the iterator. -/
  | iterating (reader : SyncStreamReader) (task : Task) (st : σ)
  /-- Reading the contents of a member. -/
  | extracting (reader : SyncStreamReader) (task : Task) (name : String) (f : FileRecord) (st : σ)
  /-- In `fut.result()`: `write_file` is scheduled on the event loop. -/
  | waiting (reader : SyncStreamReader) (task : Task) (name : String) (data : Bytes) (st : σ)
  | ended (r : Except Exc Nat)

/-- What a worker does next: it goes on by itself, it gets an item from the queue, or it rests. -/
inductive Move (σ : Type) where
  | goes (w : Worker σ)
  | takes (f : Item → Worker σ)
  | rests

namespace Worker

variable {σ : Type}

/-- One turn of the loop of `SyncStreamReader.read`. -/
def reading (reader : SyncStreamReader) (n : Int) (back : SyncStreamReader → Bytes → Worker σ)
    (again : SyncStreamReader → Worker σ) : Move σ :=
  match reader.read n with
  | some (bytes, reader') => .goes (back reader' bytes)
  | none => .takes fun item => again (reader.take item)

/-- `_stream_tar_into_writer`, step by step. -/
def move (cfg : Config) (tar : Tarfile σ) : Worker σ → Move σ
  | .iterating reader task st =>
    match tar.next st with
    | .read n k => reading reader n (fun r bytes => .iterating r task (k bytes))
        fun r => .iterating r task st
    | .yields none _ => .goes (.ended (checkMissing task))
    | .yields (some info) st' =>
      match checkMember cfg task.manifestFiles info with
      | .ok f => .goes (.extracting reader task info.name f st')
      | .error e => .goes (.ended (.error e))
    | .raised e => .goes (.ended (.error e))
  | .extracting reader task name f st =>
    match tar.contents st with
    | .read n k => reading reader n (fun r bytes => .extracting r task name f (k bytes))
        fun r => .extracting r task name f st
    | .yields data st' =>
      if (data.length : Int) ≠ f.size then .goes (.ended (.error (violation "wrong_size" name)))
      else .goes (.waiting reader task name data st')
    | .raised e => .goes (.ended (.error e))
  | .waiting .. => .rests
  | .ended _ => .rests

/-- The worker waits for a future of the event loop, or is at its end. -/
def Stopped : Worker σ → Prop
  | .waiting .. => True
  | .ended _ => True
  | _ => False

instance : ∀ w : Worker σ, Decidable w.Stopped
  | .waiting .. => .isTrue trivial
  | .ended _ => .isTrue trivial
  | .iterating .. => .isFalse id
  | .extracting .. => .isFalse id

/-- `fut.result()` comes back. -/
def resume (outcome : Except Exc Unit) : Worker σ → Worker σ
  | .waiting reader task name data st =>
    match outcome with
    | .ok () => .iterating reader { task with
        seen := task.seen ++ [name]
        bytesTotal := task.bytesTotal + data.length } st
    | .error e => .ended (.error e)
  | w => w

end Worker

/-! ## The event loop -/

/-- Where `_pump_stream` is. In a put the event loop runs nothing else. -/
inductive Pump where
  /-- The task is not yet started. -/
  | created (chunks : List Bytes)
  /-- At the `await` of `request.stream()`, with the chunks that are still to come. -/
  | streaming (chunks : List Bytes)
  /-- In `reader.feed(chunk)`. -/
  | feeding (chunk : Bytes) (rest : List Bytes)
  /-- `cancel()` was called: the `await` is going to raise. -/
  | cancelled
  /-- In `reader.close()`. -/
  | closing
  | done
  deriving DecidableEq, Repr

/-- The event loop is in a put. -/
def Pump.Putting : Pump → Prop
  | .feeding .. => True
  | .closing => True
  | _ => False

instance : ∀ p : Pump, Decidable p.Putting
  | .feeding .. => .isTrue trivial
  | .closing => .isTrue trivial
  | .created _ => .isFalse id
  | .streaming _ => .isFalse id
  | .cancelled => .isFalse id
  | .done => .isFalse id

/-- `pump_task.cancel()`. A task that was not started never runs its `finally`. -/
def Pump.cancel : Pump → Pump
  | .created _ => .done
  | .streaming _ => .cancelled
  | p => p

/-- Where the coroutine of the request is. -/
inductive Phase where
  | awaitingWorker
  | awaitingPump
  /-- After an exception of the worker: the pump is cancelled. -/
  | cancelling
  | finished
  deriving DecidableEq, Repr

/-- A batch upload with its threads, and a queue of some size between them. -/
structure Batch (σ : Type) (size : Nat) where
  queue : BoundedQueue Item size
  worker : Worker σ
  pump : Pump
  request : Phase

/-- Who is next. -/
inductive Turn where
  | worker
  | pump
  /-- The client goes away: `request.stream()` raises. -/
  | disconnect
  /-- The loop runs the scheduled `write_file`. -/
  | write (outcome : Except Exc Unit)
  | request

namespace Batch

variable {σ : Type} {size : Nat}

/-- `upload_bundle` after it has opened the writer. -/
def init (tar : Tarfile σ) (task : Task) (chunks : List Bytes) : Batch σ size where
  queue := .empty
  worker := .iterating {} task tar.start
  pump := .created chunks
  request := .awaitingWorker

/-- The worker takes a turn; with an empty queue it waits. -/
def stepWorker (cfg : Config) (tar : Tarfile σ) (b : Batch σ size) : Batch σ size :=
  match b.worker.move cfg tar with
  | .goes w => { b with worker := w }
  | .takes f =>
    match b.queue.get with
    | some (item, q) => { b with queue := q, worker := f item }
    | none => b
  | .rests => b

/-- `_pump_stream` takes a turn; a put into a full queue blocks. -/
def stepPump (b : Batch σ size) : Batch σ size :=
  match b.pump with
  | .created chunks => { b with pump := .streaming chunks }
  | .streaming [] => { b with pump := .closing }
  | .streaming (chunk :: rest) =>
    if chunk = [] then { b with pump := .streaming rest }
    else { b with pump := .feeding chunk rest }
  | .feeding chunk rest =>
    match b.queue.put (some chunk) with
    | some q => { b with queue := q, pump := .streaming rest }
    | none => b
  | .cancelled => { b with pump := .closing }
  | .closing =>
    match b.queue.put none with
    | some q => { b with queue := q, pump := .done }
    | none => b
  | .done => b

/-- The coroutine of the request takes a turn. -/
def stepRequest (b : Batch σ size) : Batch σ size :=
  match b.request, b.worker with
  | .awaitingWorker, .ended (.ok _) => { b with request := .awaitingPump }
  | .awaitingWorker, .ended (.error _) => { b with request := .cancelling, pump := b.pump.cancel }
  | .awaitingPump, _ => if b.pump = .done then { b with request := .finished } else b
  | .cancelling, _ => if b.pump = .done then { b with request := .finished } else b
  | _, _ => b

/-- One step. While the loop is in a put, only the put itself goes on there. -/
def step (cfg : Config) (tar : Tarfile σ) (b : Batch σ size) : Turn → Batch σ size
  | .worker => b.stepWorker cfg tar
  | .pump => b.stepPump
  | .disconnect =>
    match b.pump with
    | .streaming _ => { b with pump := .closing }
    | _ => b
  | .write outcome => if b.pump.Putting then b else { b with worker := b.worker.resume outcome }
  | .request => if b.pump.Putting then b else b.stepRequest

def run (cfg : Config) (tar : Tarfile σ) (b : Batch σ size) (turns : List Turn) : Batch σ size :=
  Runs.run (step cfg tar) b turns

/-- The loop is blocked in a put into a full queue, and the worker waits for the loop or is at
its end: nobody will ever make room. -/
def Deadlocked (b : Batch σ size) : Prop := b.pump.Putting ∧ b.queue.Full ∧ b.worker.Stopped

end Batch

end Cassetta.Upload
