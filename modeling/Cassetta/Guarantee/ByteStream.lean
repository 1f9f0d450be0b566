import Cassetta.Surface.Batch

/-!
# The byte stream of a reader

One producer feeds chunks into the bounded queue of a `SyncStreamReader` and then closes it,
while one consumer makes its reads. However the two are interleaved, the reads answer what they
would answer on the concatenated chunks, and they all come back.
-/

namespace Cassetta.Upload

/-! ## The two sides -/

/-- A producer, the queue and a consumer. -/
structure ByteStream (size : Nat) where
  /-- The chunks that are still to be fed. -/
  unfed : List Bytes
  /-- The one call of `close` is still to come. -/
  toClose : Bool := true
  queue : BoundedQueue Item size := .empty
  reader : SyncStreamReader := {}
  /-- The arguments of the reads that are still to be answered. -/
  requests : List Int
  results : List Bytes := []

/-- Whose turn it is. -/
inductive Side where
  | producer
  | consumer
  deriving DecidableEq, Repr

namespace ByteStream

variable {size : Nat}

/-- `feed`, which skips an empty chunk and waits while the queue is full. -/
def feed (s : ByteStream size) (chunk : Bytes) (rest : List Bytes) : ByteStream size :=
  if chunk = [] then { s with unfed := rest }
  else match s.queue.put (some chunk) with
    | some queue => { s with unfed := rest, queue }
    | none => s

/-- `close`. -/
def close (s : ByteStream size) : ByteStream size :=
  match s.queue.put none with
  | some queue => { s with toClose := false, queue }
  | none => s

/-- One turn of the loop of `read`, which waits while the queue is empty. -/
def read (s : ByteStream size) (n : Int) (later : List Int) : ByteStream size :=
  match s.reader.read n with
  | some (bytes, reader) =>
    { s with reader, requests := later, results := s.results ++ [bytes] }
  | none => match s.queue.get with
    | some (item, queue) => { s with reader := s.reader.take item, queue }
    | none => s

/-- One turn. Whoever has to wait, or has nothing left to do, leaves everything as it is. -/
def step (s : ByteStream size) : Side → ByteStream size
  | .producer => match s.unfed with
    | chunk :: rest => s.feed chunk rest
    | [] => if s.toClose then s.close else s
  | .consumer => match s.requests with
    | n :: later => s.read n later
    | [] => s

/-- Everything is still to come. -/
def start (size : Nat) (chunks : List Bytes) (ns : List Int) : ByteStream size :=
  { unfed := chunks, requests := ns }

/-- The stream after a schedule. -/
def after (size : Nat) (chunks : List Bytes) (ns : List Int) (turns : List Side) :
    ByteStream size :=
  Runs.run step (start size chunks ns) turns

end ByteStream

/-! ## Reads on plain bytes -/

/-- What `read(n)` answers when these bytes remain. -/
def answer (n : Int) (rest : Bytes) : Bytes :=
  if n < 0 then rest else rest.take n.toNat

/-- What a row of reads answers on these bytes. -/
def answers : List Int → Bytes → List Bytes
  | [], _ => []
  | n :: ns, data => answer n data :: answers ns (data.drop (answer n data).length)

@[simp] private theorem answer_zero (rest : Bytes) : answer 0 rest = [] := rfl

private theorem answer_neg {n : Int} (h : n < 0) (rest : Bytes) : answer n rest = rest := if_pos h

private theorem answer_prefix (n : Int) (rest : Bytes) : answer n rest <+: rest := by
  unfold answer
  split
  · exact List.prefix_rfl
  · exact List.take_prefix _ _

/-- A read takes the front of what remains. -/
theorem answer_append (n : Int) (rest : Bytes) :
    answer n rest ++ rest.drop (answer n rest).length = rest :=
  (List.prefix_iff_eq_append.mp ( answer_prefix n rest))

/-- Nothing comes back from a read that asks for something only when nothing remains. -/
theorem answer_eq_nil {n : Int} (h : n ≠ 0) {rest : Bytes} : answer n rest = [] ↔ rest = [] := by
  unfold answer
  split
  · rfl
  · rw [List.take_eq_nil_iff]
    constructor
    · rintro (hzero | hnil)
      · omega
      · exact hnil
    · exact .inr

private theorem length_answer {n : Int} (h : 0 < n) (rest : Bytes) :
    (answer n rest).length = min n.toNat rest.length := by
  rw [answer, if_neg (by omega), List.length_take]

@[simp] private theorem length_answers (ns : List Int) (data : Bytes) :
    (answers ns data).length = ns.length := by
  induction ns generalizing data with
  | nil => rfl
  | cons n ns ih => simp [answers, ih]

private theorem flatten_answers_prefix (ns : List Int) (data : Bytes) :
    (answers ns data).flatten <+: data := by
  induction ns generalizing data with
  | nil => exact List.nil_prefix
  | cons n ns ih =>
    have hrest := ih (data.drop (answer n data).length)
    rw [answers, List.flatten_cons]
    conv_rhs => rw [← answer_append n data]
    exact (List.prefix_append_right_inj _).mpr hrest

/-- Each read answers for what the reads before it left. -/
theorem getElem?_answers (ns : List Int) (data : Bytes) (i : Nat) :
    (answers ns data)[i]? =
      ns[i]?.map fun n => answer n (data.drop ((answers ns data).take i).flatten.length) := by
  induction ns generalizing data i with
  | nil => simp [answers]
  | cons n ns ih =>
    cases i with
    | zero => simp [answers]
    | succ i => simp [answers, ih]

namespace ByteStream

variable {size : Nat} {s : ByteStream size} {ns : List Int} {data : Bytes}

/-! ## One turn -/

/-- The bytes of the chunks among these items. -/
def bytesOf (items : List Item) : Bytes := (items.filterMap id).flatten

@[simp] private theorem bytesOf_nil : bytesOf [] = [] := rfl

@[simp] private theorem bytesOf_none (items : List Item) :
    bytesOf (none :: items) = bytesOf items := rfl

@[simp] private theorem bytesOf_some (chunk : Bytes) (items : List Item) :
    bytesOf (some chunk :: items) = chunk ++ bytesOf items := rfl

@[simp] private theorem bytesOf_append (items more : List Item) :
    bytesOf (items ++ more) = bytesOf items ++ bytesOf more := by
  simp [bytesOf]

/-- The bytes that have not come out of the reads. -/
def left (s : ByteStream size) : Bytes :=
  s.reader.pending ++ (bytesOf s.queue.items ++ s.unfed.flatten)

/-- Where the end of the stream is: still to be put, in the queue behind all chunks, or seen. -/
inductive Phase (s : ByteStream size) : Prop
  | feeding (toClose : s.toClose = true) (unseen : s.reader.eofSeen = false)
      (open' : none ∉ s.queue.items)
  | closed (toClose : s.toClose = false) (unseen : s.reader.eofSeen = false)
      (fed : s.unfed = []) (front : List Item) (chunks : none ∉ front)
      (last : s.queue.items = front ++ [none])
  | ended (toClose : s.toClose = false) (seen : s.reader.eofSeen = true)
      (fed : s.unfed = []) (empty : s.queue.items = [])

/-- A turn that answers nothing. -/
structure Moved (s s' : ByteStream size) : Prop where
  left : s'.left = s.left
  requests : s'.requests = s.requests
  results : s'.results = s.results
  seen : s.reader.eofSeen = true → s'.reader.eofSeen = true
  phase : s'.Phase

/-- A turn that answers a read. -/
structure Answered (s s' : ByteStream size) (n : Int) : Prop where
  requests : s.requests = n :: s'.requests
  results : s'.results = s.results ++ [answer n s.left]
  left : s'.left = s.left.drop (answer n s.left).length
  seen : s'.reader.eofSeen = s.reader.eofSeen
  /-- Nothing comes back from a read that asks for something only at the end. -/
  nothing : n ≠ 0 → answer n s.left = [] → s.reader.eofSeen = true ∧ s.left = []
  phase : s'.Phase

/-- Nothing has moved. -/
theorem Phase.moved (h : s.Phase) : Moved s s := ⟨rfl, rfl, rfl, id, h⟩

/-- A chunk is fed. -/
theorem Phase.feed {chunk : Bytes} {rest : List Bytes} (h : s.Phase)
    (hunfed : s.unfed = chunk :: rest) : Moved s (s.feed chunk rest) := by
  unfold ByteStream.feed
  cases h with
  | closed _ _ hfed =>
    rw [hunfed] at hfed
    cases hfed
  | ended _ _ hfed =>
    rw [hunfed] at hfed
    cases hfed
  | feeding hclose hseen hopen =>
    by_cases hempty : chunk = []
    · rw [if_pos hempty]
      exact ⟨by simp [ByteStream.left, hunfed, hempty], rfl, rfl, id,
        .feeding hclose hseen hopen⟩
    · rw [if_neg hempty]
      cases hput : s.queue.put (some chunk) with
      | none => exact (Phase.feeding hclose hseen hopen).moved
      | some queue =>
        have hitems := BoundedQueue.items_of_put hput
        exact ⟨by simp [ByteStream.left, hunfed, hitems], rfl, rfl, id,
          .feeding hclose hseen (by simpa [hitems] using hopen)⟩

/-- The stream is closed. -/
theorem Phase.close (h : s.Phase) (hunfed : s.unfed = []) (hclose : s.toClose = true) :
    Moved s s.close := by
  unfold ByteStream.close
  cases h with
  | closed hclosed => simp [hclosed] at hclose
  | ended hclosed => simp [hclosed] at hclose
  | feeding _ hseen hopen =>
    cases hput : s.queue.put none with
    | none => exact (Phase.feeding hclose hseen hopen).moved
    | some queue =>
      have hitems := BoundedQueue.items_of_put hput
      exact ⟨by simp [ByteStream.left, hitems], rfl, rfl, id,
        .closed rfl hseen hunfed _ hopen hitems⟩

/-- An item comes out of the queue. -/
theorem Phase.take {item : Item} {queue : BoundedQueue Item size} (h : s.Phase)
    (hget : s.queue.get = some (item, queue)) :
    Moved s { s with reader := s.reader.take item, queue } := by
  have hitems := BoundedQueue.items_of_get hget
  cases item with
  | none =>
    refine ⟨by simp [ByteStream.left, SyncStreamReader.take, hitems], rfl, rfl, fun _ => rfl, ?_⟩
    cases h with
    | feeding _ _ hopen => simp [hitems] at hopen
    | ended _ _ _ hempty => simp [hitems] at hempty
    | closed hclose _ hfed front hchunks hlast =>
      rw [hitems] at hlast
      cases front with
      | nil =>
        have hrest : queue.items = [] := by simpa using hlast
        exact .ended hclose rfl hfed hrest
      | cons item front => simp_all
  | some chunk =>
    refine ⟨by simp [ByteStream.left, SyncStreamReader.take, hitems], rfl, rfl, id, ?_⟩
    cases h with
    | feeding hclose hseen hopen =>
      exact .feeding hclose hseen (by simpa [hitems] using hopen)
    | ended _ _ _ hempty => simp [hitems] at hempty
    | closed hclose hseen hfed front hchunks hlast =>
      rw [hitems] at hlast
      cases front with
      | nil => simp at hlast
      | cons item front =>
        rw [List.cons_append, List.cons.injEq] at hlast
        exact .closed hclose hseen hfed front (fun hmem => hchunks (.tail _ hmem)) hlast.2

/-- A read that comes back takes its answer off the front of what is pending, and asks for more
than that only at the end. -/
theorem read_eq_some {r r' : SyncStreamReader} {n : Int} {bytes : Bytes}
    (h : r.read n = some (bytes, r')) :
    r'.eofSeen = r.eofSeen ∧ bytes ++ r'.pending = r.pending ∧ bytes = answer n r.pending ∧
      (r.eofSeen = true ∨ (0 ≤ n ∧ n ≤ r.pending.length)) := by
  unfold SyncStreamReader.read at h
  split at h
  · next hzero =>
    cases h
    subst hzero
    exact ⟨rfl, rfl, rfl, .inr ⟨le_rfl, by omega⟩⟩
  · split at h
    · next hn =>
      cases h
      have hanswer : answer n r.pending = r.pending.take n.toNat := if_neg (by omega)
      exact ⟨rfl, List.take_append_drop _ _, hanswer.symm, .inr ⟨by omega, hn.2⟩⟩
    · split at h
      · next hseen =>
        cases h
        refine ⟨rfl, List.append_nil _, ?_, .inl hseen⟩
        unfold answer
        split
        · rfl
        · rw [List.take_of_length_le (by omega)]
      · cases h

/-- A read waits for the queue only before the end. -/
theorem read_eq_none {r : SyncStreamReader} {n : Int} (h : r.read n = none) :
    r.eofSeen = false := by
  unfold SyncStreamReader.read at h
  split at h
  · cases h
  · split at h
    · cases h
    · split at h
      · cases h
      · next hseen => simpa using hseen

/-- What is pending answers the read as all that is left would. -/
theorem Phase.answer_eq (h : s.Phase) {n : Int}
    (hn : s.reader.eofSeen = true ∨ (0 ≤ n ∧ n ≤ s.reader.pending.length)) :
    answer n s.reader.pending = answer n s.left := by
  rcases hn with hseen | ⟨hpos, hle⟩
  · cases h with
    | feeding _ hunseen => simp [hunseen] at hseen
    | closed _ hunseen => simp [hunseen] at hseen
    | ended _ _ hfed hempty => simp [ByteStream.left, hfed, hempty]
  · rw [answer, answer, if_neg (by omega), if_neg (by omega), ByteStream.left,
      List.take_append_of_le_length (by omega)]

/-- A read comes back with what plain bytes would have answered. -/
theorem Phase.answered {n : Int} {later : List Int} {bytes : Bytes} {reader : SyncStreamReader}
    (h : s.Phase) (hrequests : s.requests = n :: later)
    (hread : s.reader.read n = some (bytes, reader)) :
    Answered s { s with reader, requests := later, results := s.results ++ [bytes] } n := by
  obtain ⟨hseen, hcat, hbytes, hn⟩ := read_eq_some hread
  have hanswer : bytes = answer n s.left := hbytes.trans (h.answer_eq hn)
  have hleft :
    s.left = bytes ++ (reader.pending ++ (bytesOf s.queue.items ++ s.unfed.flatten)) := by
    rw [← List.append_assoc, hcat]
    rfl
  refine ⟨hrequests, by rw [hanswer], ?_, hseen, ?_, ?_⟩
  · rw [← hanswer, hleft, List.drop_left]
    rfl
  · intro hzero hnil
    have hempty : s.left = [] := (answer_eq_nil hzero).mp hnil
    refine ⟨hn.resolve_right fun hle => ?_, hempty⟩
    have hpending : s.reader.pending = [] := (List.append_eq_nil_iff.mp hempty).1
    rw [hpending, List.length_nil] at hle
    omega
  · cases h with
    | feeding hclose hunseen hopen => exact .feeding hclose (hseen.trans hunseen) hopen
    | closed hclose hunseen hfed front hchunks hlast =>
      exact .closed hclose (hseen.trans hunseen) hfed front hchunks hlast
    | ended hclose hended hfed hempty => exact .ended hclose (hseen.trans hended) hfed hempty

/-- A turn answers no read, or the next one. -/
theorem Phase.step (h : s.Phase) (side : Side) :
    Moved s (s.step side) ∨ ∃ n, Answered s (s.step side) n := by
  cases side with
  | producer =>
    refine .inl ?_
    unfold ByteStream.step
    cases hunfed : s.unfed with
    | cons chunk rest => exact h.feed hunfed
    | nil =>
      dsimp only
      split
      · next hclose => exact h.close hunfed hclose
      · exact h.moved
  | consumer =>
    unfold ByteStream.step
    cases hrequests : s.requests with
    | nil => exact .inl h.moved
    | cons n later =>
      dsimp only
      unfold ByteStream.read
      cases hread : s.reader.read n with
      | some r => exact .inr ⟨n, h.answered hrequests hread⟩
      | none =>
        refine .inl ?_
        dsimp only
        cases hget : s.queue.get with
        | none => exact h.moved
        | some r => exact h.take hget

/-! ## The whole run -/

/-- What holds after every turn. -/
structure Faithful (ns : List Int) (data : Bytes) (s : ByteStream size) : Prop where
  phase : s.Phase
  /-- The answers so far, and what the reads to come would get. -/
  results : s.results ++ answers s.requests s.left = answers ns data
  left : s.left = data.drop s.results.flatten.length
  asked : s.requests = ns.drop s.results.length
  /-- A read that asked for something got nothing only at the end. -/
  nothing : ∀ (i : Nat) (n : Int), ns[i]? = some n → n ≠ 0 → s.results[i]? = some [] →
    s.reader.eofSeen = true ∧ s.left = []

private theorem faithful_start (chunks : List Bytes) (ns : List Int) :
    Faithful ns chunks.flatten (start size chunks ns) where
  phase := .feeding rfl rfl (List.not_mem_nil)
  results := rfl
  left := rfl
  asked := rfl
  nothing := nofun

/-- A move keeps the reads faithful. -/
theorem Faithful.moved {s' : ByteStream size} (h : Faithful ns data s) (hs : Moved s s') :
    Faithful ns data s' where
  phase := hs.phase
  results := by rw [hs.results, hs.requests, hs.left, h.results]
  left := by rw [hs.left, hs.results, h.left]
  asked := by rw [hs.requests, hs.results, h.asked]
  nothing i n hi hn hnil := by
    rw [hs.results] at hnil
    obtain ⟨hseen, hleft⟩ := h.nothing i n hi hn hnil
    exact ⟨hs.seen hseen, hs.left.trans hleft⟩

/-- An answer keeps the reads faithful. -/
theorem Faithful.answered {s' : ByteStream size} {n : Int} (h : Faithful ns data s)
    (hs : Answered s s' n) : Faithful ns data s' where
  phase := hs.phase
  results := by
    rw [← h.results, hs.results, hs.left, hs.requests, answers, List.append_assoc,
      List.singleton_append]
  left := by
    rw [hs.left, hs.results, List.flatten_append, List.length_append, List.flatten_singleton,
      ← List.drop_drop, ← h.left]
  asked := by
    rw [hs.results, List.length_append, List.length_singleton, ← List.drop_drop, ← h.asked,
      hs.requests, List.drop_one, List.tail_cons]
  nothing i m hi hm hnil := by
    have hleft : s.left = [] → s'.left = [] := fun hempty => by rw [hs.left, hempty, List.drop_nil]
    rw [hs.results] at hnil
    rcases Nat.lt_or_ge i s.results.length with hlt | hge
    · rw [List.getElem?_append_left hlt] at hnil
      obtain ⟨hseen, hempty⟩ := h.nothing i m hi hm hnil
      exact ⟨hs.seen.trans hseen, hleft hempty⟩
    · rw [List.getElem?_append_right hge, List.getElem?_singleton] at hnil
      have hi' : i = s.results.length := by
        by_contra hne
        rw [if_neg (by omega)] at hnil
        cases hnil
      have hnext : ns[i]? = some n := by
        have hget := congrArg (·[0]?) h.asked
        rw [hs.requests] at hget
        simpa [hi'] using hget.symm
      rw [hnext] at hi
      cases hi
      have hanswer : answer n s.left = [] := by simpa [hi'] using hnil
      obtain ⟨hseen, hempty⟩ := hs.nothing hm hanswer
      exact ⟨hs.seen.trans hseen, hleft hempty⟩

/-- A step of either side keeps the reads faithful. -/
theorem Faithful.step (h : Faithful ns data s) (side : Side) :
    Faithful ns data (s.step side) := by
  rcases h.phase.step side with hs | ⟨n, hs⟩
  · exact h.moved hs
  · exact h.answered hs

/-- However the two sides are interleaved. -/
theorem faithful_after (size : Nat) (chunks : List Bytes) (ns : List Int) (turns : List Side) :
    Faithful ns chunks.flatten (after size chunks ns turns) :=
  Runs.run_invariant (fun _ side h => h.step side) (faithful_start chunks ns) turns

private theorem Faithful.delivered_append (h : Faithful ns data s) :
    s.results.flatten ++ s.left = data := by
  have hprefix : s.results.flatten <+: data := by
    have hanswers := flatten_answers_prefix ns data
    rw [← h.results, List.flatten_append] at hanswers
    exact (List.prefix_append _ _).trans hanswers
  rw [h.left]
  exact List.prefix_iff_eq_append.mp hprefix

/-- The results are the answers on plain bytes, as far as they go. -/
theorem Faithful.results_eq (h : Faithful ns data s) :
    s.results = (answers ns data).take s.results.length := by
  rw [← h.results, List.take_left]

private theorem Faithful.result_eq (h : Faithful ns data s) {i : Nat} {n : Int} {bytes : Bytes}
    (hn : ns[i]? = some n) (hbytes : s.results[i]? = some bytes) :
    bytes = answer n (data.drop (s.results.take i).flatten.length) := by
  obtain ⟨hi, -⟩ := List.getElem?_eq_some_iff.mp hbytes
  have hget := getElem?_answers ns data i
  rw [← h.results, List.getElem?_append_left hi, hbytes, hn,
    List.take_append_of_le_length (by omega)] at hget
  simpa using hget

/-! ## Coming back -/

/-- An upper bound on the turns that change something. -/
def work (s : ByteStream size) : Nat :=
  2 * s.unfed.length + (if s.toClose then 2 else 0) + s.queue.items.length + s.requests.length

private theorem work_feed {chunk : Bytes} {rest : List Bytes} (hunfed : s.unfed = chunk :: rest) :
    s.feed chunk rest = s ∧ s.queue.Full ∨ (s.feed chunk rest).work < s.work := by
  unfold feed
  split
  · right
    simp [work, hunfed]
  · cases hput : s.queue.put (some chunk) with
    | none => exact .inl ⟨rfl, BoundedQueue.put_eq_none_iff.mp hput⟩
    | some queue =>
      right
      simp only [work, hunfed, BoundedQueue.items_of_put hput, List.length_append,
        List.length_cons, List.length_nil]
      omega

private theorem work_close (hclose : s.toClose = true) :
    s.close = s ∧ s.queue.Full ∨ s.close.work < s.work := by
  unfold close
  cases hput : s.queue.put none with
  | none => exact .inl ⟨rfl, BoundedQueue.put_eq_none_iff.mp hput⟩
  | some queue =>
    right
    simp only [work, hclose, BoundedQueue.items_of_put hput, List.length_append,
      List.length_singleton]
    simp
    omega

private theorem work_read {n : Int} {later : List Int} (hrequests : s.requests = n :: later) :
    (s.read n later = s ∧ s.queue.items = [] ∧ s.reader.eofSeen = false) ∨
      (s.read n later).work < s.work := by
  unfold read
  cases hread : s.reader.read n with
  | some r =>
    right
    simp [work, hrequests]
  | none =>
    dsimp only
    cases hget : s.queue.get with
    | none => exact .inl ⟨rfl, BoundedQueue.get_eq_none_iff.mp hget, read_eq_none hread⟩
    | some r =>
      right
      simp only [work, BoundedQueue.items_of_get hget, List.length_cons]
      omega

/-- A turn changes nothing, or there is less left to do. -/
theorem work_step (s : ByteStream size) (side : Side) :
    s.step side = s ∨ (s.step side).work < s.work := by
  cases side with
  | producer =>
    unfold step
    cases hunfed : s.unfed with
    | cons chunk rest => exact (work_feed hunfed).imp_left And.left
    | nil =>
      dsimp only
      split
      · next hclose => exact (work_close hclose).imp_left And.left
      · exact .inl rfl
  | consumer =>
    unfold step
    cases hrequests : s.requests with
    | nil => exact .inl rfl
    | cons n later => exact (work_read hrequests).imp_left And.left

/-- While a read is unanswered, one of the two can go on. -/
theorem Phase.goes_on (h : s.Phase) (hsize : 0 < size) (hrequests : s.requests ≠ []) :
    ∃ side, (s.step side).work < s.work := by
  obtain ⟨n, later, hrequests⟩ := List.exists_cons_of_ne_nil hrequests
  rcases work_read hrequests with ⟨-, hempty, hseen⟩ | hless
  · have hroom : ¬s.queue.Full := by
      unfold BoundedQueue.Full
      rw [hempty, List.length_nil]
      omega
    refine ⟨.producer, ?_⟩
    unfold ByteStream.step
    cases h with
    | closed _ _ _ front _ hlast => simp [hempty] at hlast
    | ended _ hended => simp [hseen] at hended
    | feeding hclose =>
      cases hunfed : s.unfed with
      | cons chunk rest => exact (work_feed hunfed).resolve_left fun hfull => hroom hfull.2
      | nil =>
        rw [if_pos hclose]
        exact (work_close hclose).resolve_left fun hfull => hroom hfull.2
  · refine ⟨.consumer, ?_⟩
    unfold ByteStream.step
    rw [hrequests]
    exact hless

/-- Every read comes back, from wherever the run is. -/
theorem Faithful.completes (h : Faithful ns data s) (hsize : 0 < size) :
    ∃ more, (Runs.run ByteStream.step s more).results = answers ns data := by
  generalize hwork : s.work = w
  induction w using Nat.strong_induction_on generalizing s with
  | _ w ih =>
    by_cases hrequests : s.requests = []
    · refine ⟨[], ?_⟩
      have hanswers := h.results
      rw [hrequests, answers, List.append_nil] at hanswers
      exact hanswers
    · obtain ⟨side, hless⟩ := h.phase.goes_on hsize hrequests
      rw [hwork] at hless
      obtain ⟨more, hmore⟩ := ih _ hless (h.step side) rfl
      exact ⟨side :: more, hmore⟩

end ByteStream

open ByteStream in
/-- The reader is a byte stream. For any room in the queue, any chunks followed by the close and
any reads, after any schedule: what was read is a prefix of the chunks, and each read that came
back answered from what was left there, with nothing only at the end of a closed stream. So the
answers are those on the plain bytes, and all of them come: while a read is unanswered one side
can go on, every turn that changes anything leaves less to do, and some turns finish the run. -/
theorem syncStreamReader_faithful {size : Nat} (hsize : 0 < size) (chunks : List Bytes)
    (ns : List Int) (turns : List Side) :
    let s := after size chunks ns turns
    s.results.flatten <+: chunks.flatten ∧
    (∀ (i : Nat) (n : Int) (bytes : Bytes), ns[i]? = some n → s.results[i]? = some bytes →
      let rest := chunks.flatten.drop (s.results.take i).flatten.length
      (0 < n → bytes.length = min n.toNat rest.length ∧ bytes <+: rest) ∧
      (n < 0 → bytes = rest) ∧ (n = 0 → bytes = []) ∧
      (n ≠ 0 → bytes = [] → s.toClose = false ∧ s.results.flatten = chunks.flatten)) ∧
    s.results = (answers ns chunks.flatten).take s.results.length ∧
    (s.requests ≠ [] → ∃ side, (s.step side).work < s.work) ∧
    (∀ side, s.step side = s ∨ (s.step side).work < s.work) ∧
    ∃ more, (after size chunks ns (turns ++ more)).results = answers ns chunks.flatten := by
  intro s
  have h : Faithful ns chunks.flatten s := faithful_after size chunks ns turns
  refine ⟨⟨s.left, h.delivered_append⟩, ?_, h.results_eq, h.phase.goes_on hsize, work_step s, ?_⟩
  · intro i n bytes hn hbytes rest
    have hanswer : bytes = answer n rest := h.result_eq hn hbytes
    refine ⟨fun hpos => ?_, fun hneg => ?_, fun hzero => ?_, fun hne hnil => ?_⟩
    · rw [hanswer]
      exact ⟨length_answer hpos rest, answer_prefix n rest⟩
    · rw [hanswer, answer_neg hneg]
    · rw [hanswer, hzero, answer_zero]
    · rw [hnil] at hbytes
      obtain ⟨hseen, hleft⟩ := h.nothing i n hn hne hbytes
      have hall := h.delivered_append
      rw [hleft, List.append_nil] at hall
      refine ⟨?_, hall⟩
      cases h.phase with
      | feeding _ hunseen => simp [hunseen] at hseen
      | closed hclose => exact hclose
      | ended hclose => exact hclose
  · obtain ⟨more, hmore⟩ := h.completes hsize
    refine ⟨more, ?_⟩
    unfold after
    rw [Runs.run_append]
    exact hmore

/-- Room for one chunk is enough. -/
theorem syncStreamReader_faithful_one :
    ∃ more, (ByteStream.after 1 [[1, 2], [], [3]] [2, -1, 5]
      ([.consumer, .producer] ++ more)).results = [[1, 2], [3], []] :=
  (syncStreamReader_faithful Nat.one_pos [[1, 2], [], [3]] [2, -1, 5]
    [.consumer, .producer]).2.2.2.2.2

end Cassetta.Upload
