import Cassetta.Policy.Limits
import Cassetta.Surface.Batch

/-!
# When a batch upload stops the server

The put of a chunk blocks the event loop while the queue is full. As long as the worker goes on
taking chunks this passes; but a worker that waits for the loop to write a file, or has come to
its end, takes no more. So everything rests on how many chunks are left at such a point.
-/

namespace Cassetta.Upload

variable {σ : Type} {size : Nat} {cfg : Config} {tar : Tarfile σ} {task : Task}
  {chunks : List Bytes}

/-! ## What goes through the queue -/

/-- The chunks of a body that are fed: the empty ones are left out. -/
def fed (chunks : List Bytes) : List Item := (chunks.filter (· ≠ [])).map some

/-- Everything that is put for a body that comes in whole. -/
def items (chunks : List Bytes) : List Item := fed chunks ++ [none]

private theorem fed_cons_nil (rest : List Bytes) : fed ([] :: rest) = fed rest := by simp [fed]

private theorem fed_cons {chunk : Bytes} (h : chunk ≠ []) (rest : List Bytes) :
    fed (chunk :: rest) = some chunk :: fed rest := by
  simp [fed, h]

/-- The worker on its own: where it can be after it has taken some items. -/
inductive Reads (cfg : Config) (tar : Tarfile σ) (task : Task) : List Item → Worker σ → Prop
  | start : Reads cfg tar task [] (.iterating {} task tar.start)
  | goes {taken w w'} (h : Reads cfg tar task taken w) (hmove : w.move cfg tar = .goes w') :
    Reads cfg tar task taken w'
  | takes {taken w f} (h : Reads cfg tar task taken w) (hmove : w.move cfg tar = .takes f)
    (item : Item) : Reads cfg tar task (taken ++ [item]) (f item)
  | written {taken w} (h : Reads cfg tar task taken w) (outcome : Except Exc Unit) :
    Reads cfg tar task taken (w.resume outcome)

/-- Wherever the worker stops in a body, what it has not taken fits into the queue. -/
def FitsAtStops (cfg : Config) (tar : Tarfile σ) (task : Task) (chunks : List Bytes) (size : Nat) :
    Prop :=
  ∀ taken w, Reads cfg tar task taken w → w.Stopped → taken <+: items chunks →
    (items chunks).length ≤ taken.length + size

/-! ## What holds in every run -/

/-- What the pump has put so far. -/
def Pump.HasPut (chunks : List Bytes) (put : List Item) : Pump → Prop
  | .created rest => put ++ fed rest = fed chunks
  | .streaming rest => put ++ fed rest = fed chunks
  | .feeding chunk rest => put ++ some chunk :: fed rest = fed chunks
  | .cancelled => put <+: fed chunks
  | .closing => put <+: fed chunks
  | .done => True

/-- The worker has taken what was put, but for what is in the queue. -/
def Batch.InOrder (cfg : Config) (tar : Tarfile σ) (task : Task) (chunks : List Bytes)
    (b : Batch σ size) : Prop :=
  ∃ taken, Reads cfg tar task taken b.worker ∧ b.pump.HasPut chunks (taken ++ b.queue.items)

namespace Batch.InOrder

variable {b : Batch σ size}

/-- A batch begins in order. -/
theorem init : (Batch.init tar task chunks : Batch σ size).InOrder cfg tar task chunks :=
  ⟨[], .start, rfl⟩

/-- A step of the worker keeps a batch in order. -/
theorem stepWorker (h : b.InOrder cfg tar task chunks) :
    (b.stepWorker cfg tar).InOrder cfg tar task chunks := by
  obtain ⟨taken, hreads, hput⟩ := h
  unfold Batch.stepWorker
  split
  · rename_i w hmove
    exact ⟨taken, hreads.goes hmove, hput⟩
  · rename_i f hmove
    split
    · rename_i item q hget
      refine ⟨taken ++ [item], hreads.takes hmove item, ?_⟩
      rw [List.append_assoc, List.singleton_append, ← BoundedQueue.items_of_get hget]
      exact hput
    · exact ⟨taken, hreads, hput⟩
  · exact ⟨taken, hreads, hput⟩

/-- A step of the pump keeps a batch in order. -/
theorem stepPump (h : b.InOrder cfg tar task chunks) :
    b.stepPump.InOrder cfg tar task chunks := by
  obtain ⟨taken, hreads, hput⟩ := h
  unfold Batch.stepPump
  split
  · rename_i rest hpump
    rw [hpump] at hput
    exact ⟨taken, hreads, hput⟩
  · rename_i hpump
    rw [hpump] at hput
    exact ⟨taken, hreads, ⟨fed [], hput⟩⟩
  · rename_i chunk rest hpump
    rw [hpump] at hput
    split
    · rename_i hempty
      subst hempty
      exact ⟨taken, hreads, by simpa only [Pump.HasPut, fed_cons_nil] using hput⟩
    · rename_i hchunk
      exact ⟨taken, hreads, by simpa only [Pump.HasPut, fed_cons hchunk] using hput⟩
  · rename_i chunk rest hpump
    split
    · rename_i q hq
      rw [hpump] at hput
      refine ⟨taken, hreads, ?_⟩
      simpa [Pump.HasPut, BoundedQueue.items_of_put hq] using hput
    · exact ⟨taken, hreads, hput⟩
  · rename_i hpump
    rw [hpump] at hput
    exact ⟨taken, hreads, hput⟩
  · split
    · exact ⟨taken, hreads, trivial⟩
    · exact ⟨taken, hreads, hput⟩
  · exact ⟨taken, hreads, hput⟩

/-- A step of the request keeps a batch in order. -/
theorem stepRequest (h : b.InOrder cfg tar task chunks) :
    b.stepRequest.InOrder cfg tar task chunks := by
  obtain ⟨taken, hreads, hput⟩ := h
  have hcancel : b.pump.cancel.HasPut chunks (taken ++ b.queue.items) := by
    cases hpump : b.pump with
    | created rest => trivial
    | streaming rest =>
      rw [hpump] at hput
      exact ⟨fed rest, hput⟩
    | _ =>
      rw [hpump] at hput
      exact hput
  unfold Batch.stepRequest
  split
  · exact ⟨taken, hreads, hput⟩
  · exact ⟨taken, hreads, hcancel⟩
  · split <;> exact ⟨taken, hreads, hput⟩
  · split <;> exact ⟨taken, hreads, hput⟩
  · exact ⟨taken, hreads, hput⟩

/-- A step keeps a batch in order. -/
theorem step (h : b.InOrder cfg tar task chunks) (turn : Turn) :
    (b.step cfg tar turn).InOrder cfg tar task chunks := by
  cases turn with
  | worker => exact h.stepWorker
  | pump => exact h.stepPump
  | disconnect =>
    unfold Batch.step
    dsimp only
    split
    · rename_i rest hpump
      obtain ⟨taken, hreads, hput⟩ := h
      rw [hpump] at hput
      exact ⟨taken, hreads, ⟨fed rest, hput⟩⟩
    · exact h
  | write outcome =>
    unfold Batch.step
    dsimp only
    split
    · exact h
    · obtain ⟨taken, hreads, hput⟩ := h
      exact ⟨taken, hreads.written outcome, hput⟩
  | request =>
    unfold Batch.step
    dsimp only
    split
    · exact h
    · exact h.stepRequest

/-- A run keeps a batch in order. -/
theorem run (h : b.InOrder cfg tar task chunks) (turns : List Turn) :
    (b.run cfg tar turns).InOrder cfg tar task chunks :=
  Runs.run_invariant (I := fun b : Batch σ size => b.InOrder cfg tar task chunks)
    (fun _ turn hb => hb.step turn) h turns

/-- In a deadlock more is left than the queue holds. -/
theorem not_fits (h : b.InOrder cfg tar task chunks) (hdead : b.Deadlocked) :
    ∃ taken, Reads cfg tar task taken b.worker ∧ taken <+: items chunks ∧
      taken.length + size < (items chunks).length := by
  obtain ⟨taken, hreads, hput⟩ := h
  obtain ⟨hputting, hfull, -⟩ := hdead
  have hlen : (taken ++ b.queue.items).length = taken.length + size := by
    rw [List.length_append, hfull]
  have hpre : taken ++ b.queue.items <+: fed chunks := by
    cases hpump : b.pump with
    | feeding chunk rest =>
      rw [hpump] at hput
      exact ⟨_, hput⟩
    | closing =>
      rw [hpump] at hput
      exact hput
    | _ =>
      rw [hpump] at hputting
      exact hputting.elim
  refine ⟨taken, hreads, ?_, ?_⟩
  · exact (List.prefix_append _ _).trans (hpre.trans (List.prefix_append _ _))
  · have hle := hpre.length_le
    rw [items, List.length_append, List.length_singleton]
    omega

end Batch.InOrder

/-! ## How it comes to a deadlock -/

namespace Batch

variable {b : Batch σ size}

/-- One run after the other. -/
theorem run_append (b : Batch σ size) (turns more : List Turn) :
    b.run cfg tar (turns ++ more) = (b.run cfg tar turns).run cfg tar more :=
  Runs.run_append _ b turns more

/-- The pump goes on to its next put. -/
theorem pump_to_put (cfg : Config) (tar : Tarfile σ) {rest : List Bytes}
    (hpump : b.pump = .streaming rest) :
    (fed rest = [] ∧ ∃ turns, b.run cfg tar turns = { b with pump := .closing }) ∨
      ∃ chunk rest' turns, fed rest = some chunk :: fed rest' ∧
        b.run cfg tar turns = { b with pump := .feeding chunk rest' } := by
  induction rest generalizing b with
  | nil =>
    refine .inl ⟨rfl, [.pump], ?_⟩
    show b.stepPump = _
    rw [Batch.stepPump, hpump]
  | cons chunk rest ih =>
    by_cases hchunk : chunk = []
    · subst hchunk
      have hstep : b.step cfg tar .pump = { b with pump := .streaming rest } := by
        show b.stepPump = _
        rw [Batch.stepPump, hpump]
        exact if_pos rfl
      rw [fed_cons_nil]
      rcases ih (b := b.step cfg tar .pump) (by rw [hstep]) with
        ⟨hfed, turns, hrun⟩ | ⟨chunk', rest', turns, hfed, hrun⟩
      · refine .inl ⟨hfed, .pump :: turns, hrun.trans ?_⟩
        rw [hstep]
      · refine .inr ⟨chunk', rest', .pump :: turns, hfed, hrun.trans ?_⟩
        rw [hstep]
    · refine .inr ⟨chunk, rest, [.pump], fed_cons hchunk rest, ?_⟩
      show b.stepPump = _
      rw [Batch.stepPump, hpump]
      exact if_neg hchunk

/-- The pump feeds the next chunk when there is room. -/
theorem pump_feeds (cfg : Config) (tar : Tarfile σ) {rest : List Bytes}
    (hpump : b.pump = .streaming rest) (hroom : b.queue.items.length < size) {item : Item}
    {more : List Item} (hfed : fed rest = item :: more) :
    ∃ turns q rest', b.run cfg tar turns = { b with queue := q, pump := .streaming rest' } ∧
      q.items = b.queue.items ++ [item] ∧ fed rest' = more := by
  rcases pump_to_put cfg tar hpump with ⟨hnil, -⟩ | ⟨chunk, rest', turns, hcons, hrun⟩
  · rw [hnil] at hfed
    cases hfed
  · rw [hcons] at hfed
    obtain ⟨rfl, rfl⟩ := List.cons.inj hfed
    obtain ⟨q, hq, hitems⟩ := BoundedQueue.put_of_lt hroom (some chunk)
    have hstep : Batch.stepPump { b with pump := .feeding chunk rest' } =
        { b with queue := q, pump := .streaming rest' } := by
      unfold Batch.stepPump
      dsimp only
      rw [hq]
    refine ⟨turns ++ [.pump], q, rest', ?_, hitems, rfl⟩
    rw [run_append, hrun]
    exact hstep

/-- Wherever the worker can be after some of the chunks, a run brings it there with the queue
empty and the rest of the chunks still to come. -/
theorem reaches (hsize : 0 < size) {taken : List Item} {w : Worker σ}
    (h : Reads cfg tar task taken w) (hpre : taken <+: fed chunks) :
    ∃ turns rest, (Batch.run cfg tar (Batch.init tar task chunks : Batch σ size) turns).worker = w ∧
      (Batch.run cfg tar (Batch.init tar task chunks : Batch σ size) turns).queue.items = [] ∧
      (Batch.run cfg tar (Batch.init tar task chunks : Batch σ size) turns).pump =
        .streaming rest ∧ taken ++ fed rest = fed chunks := by
  induction h with
  | start => exact ⟨[.pump], chunks, rfl, rfl, rfl, rfl⟩
  | @goes taken w w' h hmove ih =>
    obtain ⟨turns, rest, hw, hq, hp, hfed⟩ := ih hpre
    generalize hb : Batch.run cfg tar (Batch.init tar task chunks : Batch σ size) turns = b
      at hw hq hp
    refine ⟨turns ++ [.worker], rest, ?_⟩
    have hstep : b.stepWorker cfg tar = { b with worker := w' } := by
      rw [Batch.stepWorker, hw, hmove]
    rw [run_append, hb]
    show (b.stepWorker cfg tar).worker = _ ∧ (b.stepWorker cfg tar).queue.items = _ ∧
      (b.stepWorker cfg tar).pump = _ ∧ _
    rw [hstep]
    exact ⟨rfl, hq, hp, hfed⟩
  | @takes taken w f h hmove item ih =>
    obtain ⟨turns, rest, hw, hq, hp, hfed⟩ := ih ((List.prefix_append _ _).trans hpre)
    generalize hb : Batch.run cfg tar (Batch.init tar task chunks : Batch σ size) turns = b
      at hw hq hp
    obtain ⟨more, hmore⟩ := hpre
    have hnext : fed rest = item :: more := by
      rw [← hfed, List.append_assoc] at hmore
      exact (List.append_cancel_left hmore).symm
    have hroom : b.queue.items.length < size := by
      rw [hq]
      exact hsize
    obtain ⟨feed, q, rest', hrun, hitems, hrest⟩ := pump_feeds cfg tar hp hroom hnext
    rw [hq, List.nil_append] at hitems
    obtain ⟨q', hget, hempty⟩ := BoundedQueue.get_of_items hitems
    refine ⟨turns ++ (feed ++ [.worker]), rest', ?_⟩
    have hstep : Batch.stepWorker cfg tar { b with queue := q, pump := .streaming rest' } =
        { b with queue := q', worker := f item, pump := .streaming rest' } := by
      unfold Batch.stepWorker
      dsimp only
      rw [hw, hmove, hget]
    rw [run_append, run_append, hb, hrun]
    show (Batch.stepWorker cfg tar _).worker = _ ∧ (Batch.stepWorker cfg tar _).queue.items = _ ∧
      (Batch.stepWorker cfg tar _).pump = _ ∧ _
    rw [hstep]
    refine ⟨rfl, hempty, rfl, ?_⟩
    rw [hrest, hmore]
  | @written taken w h outcome ih =>
    obtain ⟨turns, rest, hw, hq, hp, hfed⟩ := ih hpre
    generalize hb : Batch.run cfg tar (Batch.init tar task chunks : Batch σ size) turns = b
      at hw hq hp
    refine ⟨turns ++ [.write outcome], rest, ?_⟩
    have hfree : ¬b.pump.Putting := by
      rw [hp]
      exact id
    have hstep : b.step cfg tar (.write outcome) = { b with worker := b.worker.resume outcome } :=
      if_neg hfree
    rw [run_append, hb]
    show (b.step cfg tar (.write outcome)).worker = _ ∧
      (b.step cfg tar (.write outcome)).queue.items = _ ∧
      (b.step cfg tar (.write outcome)).pump = _ ∧ _
    rw [hstep, hw]
    exact ⟨rfl, hq, hp, hfed⟩

/-- With the worker at rest, a pump that has more to put than there is room for blocks. -/
theorem blocks (cfg : Config) (tar : Tarfile σ) {rest : List Bytes}
    (hpump : b.pump = .streaming rest) (hstopped : b.worker.Stopped)
    (hmore : size < b.queue.items.length + (fed rest).length + 1) :
    ∃ turns, (b.run cfg tar turns).Deadlocked := by
  generalize hn : size - b.queue.items.length = room
  induction room generalizing b rest with
  | zero =>
    have hfull : b.queue.Full := by
      have hle := b.queue.bounded
      unfold BoundedQueue.Full
      omega
    rcases pump_to_put cfg tar hpump with ⟨-, turns, hrun⟩ | ⟨chunk, rest', turns, -, hrun⟩
    · exact ⟨turns, by rw [hrun]; exact ⟨trivial, hfull, hstopped⟩⟩
    · exact ⟨turns, by rw [hrun]; exact ⟨trivial, hfull, hstopped⟩⟩
  | succ room ih =>
    have hroom : b.queue.items.length < size := by omega
    cases hfed : fed rest with
    | nil =>
      rw [hfed, List.length_nil] at hmore
      omega
    | cons item more =>
      obtain ⟨turns, q, rest', hrun, hitems, hrest⟩ := pump_feeds cfg tar hpump hroom hfed
      have hlen : q.items.length = b.queue.items.length + 1 := by rw [hitems]; simp
      rw [hfed, List.length_cons] at hmore
      obtain ⟨later, hdead⟩ :=
        ih (b := { b with queue := q, pump := .streaming rest' }) rfl hstopped
        (by rw [hrest]; show _ < q.items.length + _ + 1; omega)
        (by show size - q.items.length = room; omega)
      exact ⟨turns ++ later, by rw [run_append, hrun]; exact hdead⟩

/-- Where the worker stops with more left than the queue holds, there is a deadlock. -/
theorem deadlocks (hsize : 0 < size) {taken : List Item} {w : Worker σ}
    (h : Reads cfg tar task taken w) (hstopped : w.Stopped) (hpre : taken <+: items chunks)
    (hmore : taken.length + size < (items chunks).length) :
    ∃ turns, (Batch.run cfg tar (Batch.init tar task chunks : Batch σ size) turns).Deadlocked := by
  have hlen : (items chunks).length = (fed chunks).length + 1 := by simp [items]
  have hfed : taken <+: fed chunks :=
    List.prefix_of_prefix_length_le hpre (List.prefix_append _ _) (by omega)
  obtain ⟨turns, rest, hw, hq, hp, hrest⟩ := reaches hsize h hfed
  have hleft := congrArg List.length hrest
  rw [List.length_append] at hleft
  obtain ⟨more, hdead⟩ := blocks cfg tar hp (by rw [hw]; exact hstopped)
    (by rw [hq, List.length_nil]; omega)
  exact ⟨turns ++ more, by rw [run_append]; exact hdead⟩

end Batch

/-- No schedule of a batch upload comes to a deadlock if and only if, wherever the worker stops
in the body, what it has not taken of the chunks and the end fits into the queue. -/
theorem batch_never_deadlocks_iff (cfg : Config) (tar : Tarfile σ) (task : Task)
    (chunks : List Bytes) (hsize : 0 < size) :
    (∀ turns, ¬(Batch.run cfg tar (Batch.init tar task chunks : Batch σ size) turns).Deadlocked) ↔
      FitsAtStops cfg tar task chunks size := by
  constructor
  · intro hnever taken w hreads hstopped hpre
    by_contra hmore
    obtain ⟨turns, hdead⟩ := Batch.deadlocks hsize hreads hstopped hpre (not_le.mp hmore)
    exact hnever turns hdead
  · intro hfits turns hdead
    obtain ⟨taken, hreads, hpre, hmore⟩ := (Batch.InOrder.init.run turns).not_fits hdead
    exact absurd (hfits taken _ hreads hdead.2.2 hpre) (not_le.mpr hmore)

/-! ## An archive without members -/

/-- A record of zeros: the mark at the end of an archive, and its padding. -/
def zeroRecord : Bytes := List.replicate 10240 0

/-- What `tarfile` does with an archive that begins with its end: it reads one record, and takes
a first block of zeros for the end. Of other archives this is not a model. -/
def zeroTarfile : Tarfile (Option Bytes) where
  start := none
  next
    | none => .read 10240 some
    | some bytes =>
      if bytes.take 512 = List.replicate 512 0 then .yields none (some bytes)
      else .raised (.upload 400 "tar_parse_error" "tar_parse_error" none)
  contents _ := .raised (.upload 400 "tar_parse_error" "tar_parse_error" none)

/-- An upload of one file. -/
def oneFileTask : Task where
  handle := 0
  manifestFiles := [⟨"a", 1, "application/octet-stream"⟩]
  bundleId := 0
  sender := none

private theorem next_zeroTarfile {bytes : Bytes} (h : bytes.take 512 = List.replicate 512 0) :
    zeroTarfile.next (some bytes) = .yields none (some bytes) := if_pos h

private theorem length_zeroRecord : zeroRecord.length = 10240 := List.length_replicate

private theorem zeroRecord_ne_nil : zeroRecord ≠ [] :=
  List.ne_nil_of_length_pos (by rw [length_zeroRecord]; decide)

private theorem read_zeroRecord :
    SyncStreamReader.read ⟨zeroRecord, false⟩ 10240 = some (zeroRecord, ⟨[], false⟩) := by
  have hlen := length_zeroRecord
  have hle : zeroRecord.length ≤ (10240 : Int).toNat := hlen.le
  have hhave : (0 : Int) < 10240 ∧ (10240 : Int) ≤ zeroRecord.length := by omega
  unfold SyncStreamReader.read
  rw [if_neg (by decide), if_pos hhave]
  dsimp only
  rw [List.take_of_length_le hle, List.drop_of_length_le hle]

private theorem reads_zeroRecord :
    Reads srvConfig zeroTarfile oneFileTask [some zeroRecord]
      (.ended (checkMissing oneFileTask)) := by
  have htake : Reads srvConfig zeroTarfile oneFileTask [some zeroRecord]
      (.iterating ⟨zeroRecord, false⟩ oneFileTask none) :=
    Reads.takes (f := fun item => .iterating (SyncStreamReader.take {} item) oneFileTask none)
      Reads.start rfl (some zeroRecord)
  have hback : Reads srvConfig zeroTarfile oneFileTask [some zeroRecord]
      (.iterating ⟨[], false⟩ oneFileTask (some zeroRecord)) := by
    have hnext : zeroTarfile.next none = .read 10240 some := rfl
    refine htake.goes ?_
    rw [Worker.move, hnext]
    dsimp only
    rw [Worker.reading, read_zeroRecord]
  have hblock : zeroRecord.take 512 = List.replicate 512 0 := by
    rw [zeroRecord, List.take_replicate, Nat.min_eq_left (by decide)]
  refine hback.goes ?_
  rw [Worker.move, next_zeroTarfile hblock]

/-- A body of one record is taken whole before the worker ends. -/
theorem batch_never_deadlocks_one :
    ¬∃ turns, (Batch.run srvConfig zeroTarfile
      (Batch.init zeroTarfile oneFileTask [zeroRecord] : Batch (Option Bytes) 8)
      turns).Deadlocked := by
  rintro ⟨turns, hdead⟩
  refine (batch_never_deadlocks_iff srvConfig zeroTarfile oneFileTask [zeroRecord]
    (by decide)).mpr ?_ turns hdead
  intro taken w _ _ _
  have hlen : (items [zeroRecord]).length = 2 := by
    rw [items, fed_cons zeroRecord_ne_nil]
    rfl
  omega

/-- A record of zeros and eight more bytes, a chunk each: the worker ends after the record, and
the put of the end blocks the loop for good. -/
theorem batch_deadlocks :
    ∃ turns, (Batch.run srvConfig zeroTarfile
      (Batch.init zeroTarfile oneFileTask (zeroRecord :: List.replicate 8 [0]) :
        Batch (Option Bytes) 8) turns).Deadlocked := by
  refine Batch.deadlocks (by decide) reads_zeroRecord trivial ?_ ?_
  · rw [items, fed_cons zeroRecord_ne_nil]
    exact List.prefix_append [some zeroRecord] _
  · rw [items, fed_cons zeroRecord_ne_nil]
    show 1 + 8 < List.length (some zeroRecord :: (fed (List.replicate 8 [0]) ++ [none]))
    rw [List.length_cons]
    decide

end Cassetta.Upload
