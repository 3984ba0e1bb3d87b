import HttpAudioServer.Clients

/-! The event loop of the server: what comes in on the connections, what is still to be sent on
them, and how they are closed. -/
namespace HttpAudioServer.Polling

inductive Received where
  | came (buf : Bytes)
  | shutdown
  | failed
  | again
deriving DecidableEq, Repr

/-- What `send` finds: room for some bytes, maybe for none, or an error. -/
inductive Room where
  | bytes (n : Nat)
  | failed
deriving DecidableEq, Repr

/-- What `select` has found for a connection, and what the calls give then. -/
structure FdFlags where
  canRead : Option Received := none
  canWrite : Option Room := none
deriving DecidableEq, Repr

/-- A connection of the listener. When it is closed it stays as it was freed. `wire` is what the
network has taken. -/
structure Socket where
  nc : MgConnection := {}
  sendMbuf : Bytes := []
  sendAndClose : Bool := false
  closed : Bool := false
  wire : Bytes := []
deriving DecidableEq, Repr

/-- A message that was handed over, and what the event handler has sent for it. -/
abbrev Answered : Type := Arrival × List Sent

def sentBytes (answered : List Answered) : Bytes :=
  answered.flatMap fun x => x.2.flatMap Sent.bytes

/-- A connection has its turn in a poll, it is looked at when the poll ends, or the manager is
freed. -/
inductive Visit where
  | handle (fd : FdFlags)
  | check
  | free
deriving DecidableEq, Repr

section Model

variable {τ : Type} (handler : τ → Arrival → Option (τ × List Sent))

def mbufRemove (mb : Bytes) (n : Nat) : Bytes := if 0 < n ∧ n ≤ mb.length then mb.drop n else mb

/-- `mg_send` puts the answer behind what is still to be sent. -/
def callHandler (st : τ) (conn : Socket) (outside : Outside) :
    Option HttpMessage → Option (τ × Socket × Option Answered)
  | none => some (st, conn, none)
  | some hm => (handler st ⟨hm, outside⟩).map fun (st, sent) =>
      (st, { conn with sendMbuf := conn.sendMbuf ++ sent.flatMap Sent.bytes },
        some (⟨hm, outside⟩, sent))

/-- The handshake of a websocket is not part of the model. -/
def mgHandleTcpRead (st : τ) (conn : Socket) (outside : Outside) :
    Received → Option (τ × Socket × Option Answered)
  | .came buf => (mgReceive conn.nc buf).bind fun (nc, hm) =>
      if nc.isWebsocket then none else callHandler handler st { conn with nc := nc } outside hm
  -- Orderly shutdown of the socket, try flushing output.
  | .shutdown => some (st, { conn with sendAndClose := true }, none)
  | .failed => some (st, { conn with nc := { conn.nc with closeImmediately := true } }, none)
  | .again => some (st, conn, none)

def mgWriteToSocket (conn : Socket) : Room → Socket
  | .bytes room =>
    let n := min room conn.sendMbuf.length
    { conn with wire := conn.wire ++ conn.sendMbuf.take n, sendMbuf := mbufRemove conn.sendMbuf n }
  -- Something went wrong, drop the connection.
  | .failed => { conn with nc := { conn.nc with closeImmediately := true } }

/-- The first half of `mg_mgr_handle_conn`. -/
def receive (st : τ) (conn : Socket) (outside : Outside) :
    Option Received → Option (τ × Socket × Option Answered)
  | none => some (st, conn, none)
  | some received => mgHandleTcpRead handler st conn outside received

/-- The second half of `mg_mgr_handle_conn`. -/
def flush (conn : Socket) : Option Room → Socket
  | none => conn
  | some room =>
    if !conn.nc.closeImmediately && conn.sendMbuf ≠ [] then mgWriteToSocket conn room else conn

def mgMgrHandleConn (st : τ) (conn : Socket) (fd : FdFlags) (outside : Outside) :
    Option (τ × Socket × Option Answered) :=
  (receive handler st conn outside fd.canRead).map fun (st, conn, answered) =>
    (st, flush conn fd.canWrite, answered)

/-- The socket is gone when the event handler is called for the last time, and what it sends then
is freed with the connection. -/
def mgCloseConn (st : τ) (conn : Socket) (outside : Outside) : Option (τ × Socket × Option Answered) :=
  callHandler handler st { conn with closed := true } outside
    ((mgClose true conn.nc).bind Trigger.message)

def visit (st : τ) (conn : Socket) (v : Visit × Outside) : Option (τ × Socket × Option Answered) :=
  if conn.closed then some (st, conn, none)
  else
    match v.1 with
    | .handle fd => mgMgrHandleConn handler st conn fd v.2
    | .check =>
      if conn.nc.closeImmediately || (conn.sendMbuf = [] && conn.sendAndClose) then
        mgCloseConn handler st conn v.2
      else some (st, conn, none)
    | .free => mgCloseConn handler st conn v.2

/-- `mg_mgr_poll`: first each connection has its turn, then each of them is looked at. -/
def mgMgrPoll {ι : Type} (fds : List (ι × FdFlags × Outside × Outside)) :
    List (ι × Visit × Outside) :=
  fds.map (fun x => (x.1, .handle x.2.1, x.2.2.1)) ++ fds.map fun x => (x.1, .check, x.2.2.2)

end Model

section Sending

theorem mbufRemove_min (mb : Bytes) (room : Nat) :
    mbufRemove mb (min room mb.length) = mb.drop room := by
  unfold mbufRemove
  split
  · rcases Nat.le_total room mb.length with fits | exceeds
    · rw [Nat.min_eq_left fits]
    · rw [Nat.min_eq_right exceeds, List.drop_length, List.drop_eq_nil_of_le exceeds]
  · rename_i nothing
    rcases Nat.eq_zero_or_pos room with rfl | some_room
    · rfl
    · have empty : mb.length = 0 := by omega
      rw [List.length_eq_zero_iff.mp empty, List.drop_nil]

def roomOf : Option Room → Nat
  | some (.bytes n) => n
  | some .failed | none => 0

theorem flush_room {conn : Socket} {canWrite : Option Room}
    (intact : conn.nc.closeImmediately = false) (working : canWrite ≠ some .failed) :
    flush conn canWrite =
      { conn with wire := conn.wire ++ conn.sendMbuf.take (roomOf canWrite),
                  sendMbuf := conn.sendMbuf.drop (roomOf canWrite) } := by
  rcases canWrite with _ | room | _
  · simp [flush, roomOf]
  · by_cases empty : conn.sendMbuf = []
    · obtain ⟨nc, sendMbuf, sendAndClose, closed, wire⟩ := conn
      cases (show sendMbuf = [] from empty)
      simp [flush]
    · have written : flush conn (some (.bytes room)) = mgWriteToSocket conn (.bytes room) :=
        if_pos (by simp [intact, empty])
      rw [written, mgWriteToSocket, mbufRemove_min, ← List.take_eq_take_min]
      rfl
  · exact absurd rfl working

/-- Some bytes are sent, if only none, or the connection is broken. -/
theorem flush_cases (conn : Socket) (canWrite : Option Room) :
    (∃ n, flush conn canWrite =
      { conn with wire := conn.wire ++ conn.sendMbuf.take n, sendMbuf := conn.sendMbuf.drop n }) ∨
    (canWrite = some .failed ∧
      flush conn canWrite = { conn with nc := { conn.nc with closeImmediately := true } }) := by
  have idle (same : flush conn canWrite = conn) : ∃ n, flush conn canWrite =
      { conn with wire := conn.wire ++ conn.sendMbuf.take n, sendMbuf := conn.sendMbuf.drop n } :=
    ⟨0, by simp [same]⟩
  by_cases sends : (!conn.nc.closeImmediately && conn.sendMbuf ≠ []) = true
  · have intact : conn.nc.closeImmediately = false := by simpa using (Bool.and_eq_true_iff.mp sends).1
    by_cases working : canWrite = some .failed
    · subst working
      exact .inr ⟨rfl, if_pos sends⟩
    · exact .inl ⟨roomOf canWrite, flush_room intact working⟩
  · cases canWrite with
    | none => exact .inl (idle rfl)
    | some room => exact .inl (idle (if_neg sends))

end Sending

section Talking

def Visit.piece : Visit → Option Bytes
  | .handle fd =>
    match fd.canRead with
    | some (.came buf) => some buf
    | _ => none
  | .check | .free => none

def arrived (visits : List (Visit × Outside)) : List Bytes := visits.filterMap fun v => v.1.piece

def Visit.Fits (conn : Socket) (v : Visit × Outside) : Prop :=
  ∀ buf ∈ v.1.piece, FitsInt conn.nc buf

instance (conn : Socket) (v : Visit × Outside) : Decidable (Visit.Fits conn v) :=
  inferInstanceAs (Decidable (∀ buf ∈ v.1.piece, FitsInt conn.nc buf))

/-- The connection is lost, or the server ends. -/
def Visit.Breaks : Visit → Prop
  | .handle fd => fd.canRead = some .failed ∨ fd.canWrite = some .failed
  | .check => False
  | .free => True

/-- A request whose head has come when the connection is closed is handled all the same. -/
def cutOff (left : List ClientRequest) (kept : Bytes) : Option HttpMessage :=
  match left with
  | [] => none
  | r :: _ => if r.text <+: kept then some ⟨r.method, r.uri, kept.drop r.text.length⟩ else none

theorem mgClose_kept {left : List ClientRequest} {kept : Bytes} (part : kept <+: requestBytes left)
    (small : kept.length < 2147483648) (closeImmediately : Bool) :
    (mgClose true { recvMbuf := kept, closeImmediately := closeImmediately }).bind Trigger.message =
      cutOff left kept := by
  have regardless : mgClose true { recvMbuf := kept, closeImmediately := closeImmediately } =
      mgClose true { recvMbuf := kept } := rfl
  rw [regardless]
  cases left with
  | nil =>
    rw [List.prefix_nil.mp part]
    rfl
  | cons r left =>
    have whole : r.text <+: requestBytes (r :: left) := by
      rw [requestBytes, List.flatMap_cons, ClientRequest.bytes, List.append_assoc]
      exact List.prefix_append _ _
    by_cases complete : r.text <+: kept
    · obtain ⟨b, rfl⟩ := complete
      have came : cutOff (r :: left) (r.text ++ b) = some ⟨r.method, r.uri, b⟩ := by
        rw [cutOff, if_pos (List.prefix_append _ _), List.drop_left]
      rw [came, r.mgClose_text small]
    · have shorter : kept <+: r.text := (List.prefix_or_prefix_of_prefix part whole).resolve_right complete
      obtain ⟨rest, split⟩ := shorter
      have unfinished : rest ≠ [] := by
        rintro rfl
        rw [List.append_nil] at split
        exact complete (split ▸ List.prefix_refl _)
      have nothing : cutOff (r :: left) kept = none := if_neg complete
      rw [nothing, RequestHead.mgClose_in_text split unfinished]
      rfl

/-- The requests of a client, what has happened on its connection, the messages that were handed
over with what was sent for them, and the connection as it is then. -/
structure Talk (requests : List ClientRequest) (visits : List (Visit × Outside))
    (answered : List Answered) (conn : Socket) (handed left : List ClientRequest) (kept : Bytes) :
    Prop where
  split : requests = handed ++ left
  buffer : conn.nc = { recvMbuf := kept, closeImmediately := conn.nc.closeImmediately }
  small : kept.length < 2147483648
  heard : ∃ heard, heard <+: arrived visits ∧ requestBytes handed ++ kept = heard.flatten ∧
    (conn.closed = false → conn.nc.closeImmediately = false → heard = arrived visits)
  broken : conn.nc.closeImmediately = true → ∃ v ∈ visits, v.1.Breaks
  handled : answered.map (fun x => x.1.hm) = handed.map ClientRequest.message ++
    if conn.closed then (cutOff left kept).toList else []
  sent : conn.wire ++ conn.sendMbuf = sentBytes answered
  delivered : conn.closed = true → (∀ v ∈ visits, ¬ v.1.Breaks) →
    conn.wire = sentBytes (answered.take handed.length)

variable {requests handed left : List ClientRequest} {visits : List (Visit × Outside)}
  {answered : List Answered} {conn : Socket} {kept : Bytes}

theorem sentBytes_append (earlier later : List Answered) :
    sentBytes (earlier ++ later) = sentBytes earlier ++ sentBytes later :=
  List.flatMap_append

theorem arrived_concat (visits : List (Visit × Outside)) (v : Visit × Outside) :
    arrived (visits ++ [v]) = arrived visits ++ v.1.piece.toList := by
  rw [arrived, List.filterMap_append]
  cases named : v.1.piece <;> simp [arrived, named]

theorem Talk.part (talk : Talk requests visits answered conn handed left kept)
    (written : (arrived visits).flatten <+: requestBytes requests) : kept <+: requestBytes left := by
  obtain ⟨heard, ⟨more, same⟩, read, _⟩ := talk.heard
  have all : requestBytes handed ++ kept <+: requestBytes handed ++ requestBytes left := by
    rw [read, ← requestBytes_append, ← talk.split]
    refine List.IsPrefix.trans ⟨more.flatten, ?_⟩ written
    rw [← same, List.flatten_append]
  exact (List.prefix_append_right_inj _).mp all

theorem Talk.pass (talk : Talk requests visits answered conn handed left kept)
    (v : Visit × Outside)
    (unheard : v.1.piece = none ∨ conn.closed = true ∨ conn.nc.closeImmediately = true) :
    Talk requests (visits ++ [v]) answered conn handed left kept where
  split := talk.split
  buffer := talk.buffer
  small := talk.small
  heard := by
    obtain ⟨heard, part, read, whole⟩ := talk.heard
    rw [arrived_concat]
    refine ⟨heard, part.trans (List.prefix_append _ _), read, fun listening intact => ?_⟩
    rcases unheard with nothing | closed | broken
    · rw [nothing, Option.toList_none, List.append_nil]
      exact whole listening intact
    · cases listening.symm.trans closed
    · cases intact.symm.trans broken
  broken closing := by
    obtain ⟨w, member, breaks⟩ := talk.broken closing
    exact ⟨w, List.mem_append_left _ member, breaks⟩
  handled := talk.handled
  sent := talk.sent
  delivered closed quiet := talk.delivered closed fun w member =>
    quiet w (List.mem_append_left _ member)

theorem Talk.break (talk : Talk requests visits answered conn handed left kept)
    (listening : conn.closed = false) (breaks : ∃ v ∈ visits, v.1.Breaks) :
    Talk requests visits answered { conn with nc := { conn.nc with closeImmediately := true } }
      handed left kept where
  split := talk.split
  buffer := by rw [talk.buffer]
  small := talk.small
  heard := by
    obtain ⟨heard, part, read, _⟩ := talk.heard
    exact ⟨heard, part, read, fun _ intact => nomatch intact⟩
  broken _ := breaks
  handled := talk.handled
  sent := talk.sent
  delivered closed := nomatch listening.symm.trans closed

theorem Talk.flush (talk : Talk requests visits answered conn handed left kept)
    (listening : conn.closed = false) {canWrite : Option Room}
    (breaks : canWrite = some .failed → ∃ v ∈ visits, v.1.Breaks) :
    Talk requests visits answered (flush conn canWrite) handed left kept := by
  rcases flush_cases conn canWrite with ⟨n, flushed⟩ | ⟨failed, flushed⟩
  · rw [flushed]
    exact {
      split := talk.split
      buffer := talk.buffer
      small := talk.small
      heard := talk.heard
      broken := talk.broken
      handled := talk.handled
      sent := by rw [List.append_assoc, List.take_append_drop, talk.sent]
      delivered := fun closed => nomatch listening.symm.trans closed }
  · rw [flushed]
    exact talk.break listening (breaks failed)

end Talking

section Handling

variable {τ : Type} {handler : τ → Arrival → Option (τ × List Sent)}

def Calls (handler : τ → Arrival → Option (τ × List Sent)) (st : τ) (answer : Option Answered)
    (st' : τ) : Prop :=
  Run.run handler st (answer.toList.map Prod.fst) = some (st', answer.toList.map Prod.snd)

theorem callHandler_spec {st : τ} (total : ∀ a, ∃ st' sent, handler st a = some (st', sent))
    (conn : Socket) (outside : Outside) (hm : Option HttpMessage) :
    ∃ st' answer, callHandler handler st conn outside hm =
        some (st', { conn with sendMbuf := conn.sendMbuf ++ sentBytes answer.toList }, answer) ∧
      answer.toList.map (fun x => x.1.hm) = hm.toList ∧ Calls handler st answer st' := by
  cases hm with
  | none =>
    refine ⟨st, none, ?_, rfl, rfl⟩
    simp [callHandler, sentBytes]
  | some hm =>
    obtain ⟨st', sent, handled⟩ := total ⟨hm, outside⟩
    refine ⟨st', some (⟨hm, outside⟩, sent), ?_, rfl, ?_⟩
    · simp [callHandler, handled, sentBytes]
    · exact Run.run_cons handled []

variable {requests handed left : List ClientRequest} {visits : List (Visit × Outside)}
  {answered : List Answered} {conn : Socket} {kept : Bytes}

theorem Talk.close (talk : Talk requests visits answered conn handed left kept) {st : τ}
    (total : ∀ a, ∃ st' sent, handler st a = some (st', sent)) (listening : conn.closed = false)
    (part : kept <+: requestBytes left)
    (flushed : (∀ v ∈ visits, ¬ v.1.Breaks) → conn.sendMbuf = []) (outside : Outside) :
    ∃ st' conn' answer, mgCloseConn handler st conn outside = some (st', conn', answer) ∧
      Talk requests visits (answered ++ answer.toList) conn' handed left kept ∧
      Calls handler st answer st' := by
  obtain ⟨st', answer, called, message, calls⟩ :=
    callHandler_spec total { conn with closed := true } outside (cutOff left kept)
  have closes : (mgClose true conn.nc).bind Trigger.message = cutOff left kept := by
    rw [talk.buffer, mgClose_kept part talk.small]
  refine ⟨st', _, answer, by rw [mgCloseConn, closes, called], ?_, calls⟩
  have handled : answered.map (fun x => x.1.hm) = handed.map ClientRequest.message := by
    simpa [listening] using talk.handled
  exact {
    split := talk.split
    buffer := talk.buffer
    small := talk.small
    heard := by
      obtain ⟨heard, before, read, _⟩ := talk.heard
      exact ⟨heard, before, read, fun closed => nomatch closed⟩
    broken := talk.broken
    handled := by rw [List.map_append, handled, message, if_pos rfl]
    sent := by rw [← List.append_assoc, talk.sent, sentBytes_append]
    delivered := by
      intro _ quiet
      have count := congrArg List.length handled
      rw [List.length_map, List.length_map] at count
      have sent := talk.sent
      rw [flushed quiet, List.append_nil] at sent
      rw [← count, List.take_left]
      exact sent }

theorem Talk.came (talk : Talk requests visits answered conn handed left kept) {st : τ}
    (total : ∀ a, ∃ st' sent, handler st a = some (st', sent)) (listening : conn.closed = false)
    (intact : conn.nc.closeImmediately = false) {v : Visit × Outside} {buf rest : Bytes}
    (piece : v.1.piece = some buf) (nonempty : buf ≠ []) (fits : FitsInt conn.nc buf)
    (all : (arrived (visits ++ [v])).flatten ++ rest = requestBytes requests) (outside : Outside) :
    ∃ st' conn' answer handed left kept,
      mgHandleTcpRead handler st conn outside (.came buf) = some (st', conn', answer) ∧
      Talk requests (visits ++ [v]) (answered ++ answer.toList) conn' handed left kept ∧
      conn'.closed = false ∧ Calls handler st answer st' := by
  obtain ⟨heard, _, read, whole⟩ := talk.heard
  rw [whole listening intact] at read
  have came : arrived (visits ++ [v]) = arrived visits ++ [buf] := by
    rw [arrived_concat, piece]
    rfl
  -- what is in the buffer, what comes now and what comes later are the requests that are left
  have coming : kept ++ buf ++ rest = requestBytes left := by
    rw [came, List.flatten_append, ← read, talk.split, requestBytes_append, List.append_assoc,
      List.append_assoc, List.flatten_singleton] at all
    rw [List.append_assoc]
    exact List.append_cancel_left all
  have buffer : conn.nc = { recvMbuf := kept } := by rw [talk.buffer, intact]
  rw [buffer] at fits
  obtain ⟨kept', event, now, later, received, split, events, taken⟩ :=
    read_taken nonempty fits coming
  rw [FitsInt] at fits
  obtain ⟨st', answer, called, message, calls⟩ :=
    callHandler_spec total { conn with nc := { recvMbuf := kept' } } outside event
  have handles : mgHandleTcpRead handler st conn outside (.came buf) =
      callHandler handler st { conn with nc := { recvMbuf := kept' } } outside event := by
    rw [mgHandleTcpRead, buffer, received]
    rfl
  refine ⟨st', _, answer, handed ++ now, later, kept', handles.trans called, ?_, listening, calls⟩
  have handled : answered.map (fun x => x.1.hm) = handed.map ClientRequest.message := by
    simpa [listening] using talk.handled
  exact {
    split := by rw [List.append_assoc, ← split, talk.split]
    buffer := rfl
    small := by
      have length := congrArg List.length taken
      rw [List.length_append, List.length_append] at length
      simp only at fits ⊢
      omega
    heard := by
      refine ⟨arrived (visits ++ [v]), List.prefix_refl _, ?_, fun _ _ => rfl⟩
      rw [came, List.flatten_append, ← read, requestBytes_append, List.append_assoc, ← taken]
      simp
    broken := fun closing => absurd closing Bool.false_ne_true
    handled := by
      rw [List.map_append, handled, message, events, List.map_append, if_neg (by simp [listening]),
        List.append_nil]
    sent := by rw [← List.append_assoc, talk.sent, sentBytes_append]
    delivered := fun closed => absurd (listening.symm.trans closed) Bool.false_ne_true }

theorem Talk.receive (talk : Talk requests visits answered conn handed left kept) {st : τ}
    (total : ∀ a, ∃ st' sent, handler st a = some (st', sent)) (listening : conn.closed = false)
    {fd : FdFlags} {outside : Outside} {rest : Bytes}
    (nonempty : ∀ buf ∈ arrived (visits ++ [(.handle fd, outside)]), buf ≠ [])
    (fits : Visit.Fits conn (.handle fd, outside))
    (all : (arrived (visits ++ [(.handle fd, outside)])).flatten ++ rest = requestBytes requests) :
    ∃ st' conn' answer handed left kept,
      receive handler st conn outside fd.canRead = some (st', conn', answer) ∧
      Talk requests (visits ++ [(.handle fd, outside)]) (answered ++ answer.toList) conn'
        handed left kept ∧
      conn'.closed = false ∧ Calls handler st answer st' := by
  have unread {r : Option Received} (given : fd.canRead = r) (other : ∀ buf, r ≠ some (.came buf)) :
      (Visit.handle fd).piece = none := by
    rw [Visit.piece, given]
    cases r with
    | none => rfl
    | some received =>
      cases received with
      | came buf => exact absurd rfl (other buf)
      | shutdown | failed | again => rfl
  have same : answered ++ (none : Option Answered).toList = answered := List.append_nil _
  cases given : fd.canRead with
  | none =>
    have passed := talk.pass (.handle fd, outside) (.inl (unread given (by simp)))
    exact ⟨st, conn, none, handed, left, kept, rfl, same.symm ▸ passed, listening, rfl⟩
  | some received =>
    cases received with
    | came buf =>
      have piece : (Visit.handle fd).piece = some buf := by rw [Visit.piece, given]
      cases broken : conn.nc.closeImmediately with
      | true =>
        have passed := talk.pass (.handle fd, outside) (.inr (.inr broken))
        refine ⟨st, conn, none, handed, left, kept, ?_, same.symm ▸ passed, listening, rfl⟩
        have discarded : mgReceive conn.nc buf = some (conn.nc, none) := by
          rw [mgReceive, receiveAs, mgRecv, broken]
          rfl
        have http : conn.nc.isWebsocket = false := by rw [talk.buffer]
        simp [Polling.receive, mgHandleTcpRead, discarded, http, callHandler]
      | false =>
        have member : buf ∈ arrived (visits ++ [(.handle fd, outside)]) := by
          rw [arrived_concat, piece]
          exact List.mem_append_right _ (List.mem_singleton_self _)
        exact talk.came total listening broken piece (nonempty buf member) (fits buf piece) all outside
    | shutdown =>
      have passed := talk.pass (.handle fd, outside) (.inl (unread given (by simp)))
      exact ⟨st, { conn with sendAndClose := true }, none, handed, left, kept, rfl,
        same.symm ▸ { passed with }, listening, rfl⟩
    | failed =>
      have passed := talk.pass (.handle fd, outside) (.inl (unread given (by simp)))
      have breaks : ∃ v ∈ visits ++ [(Visit.handle fd, outside)], v.1.Breaks :=
        ⟨(.handle fd, outside), by simp, .inl given⟩
      exact ⟨st, _, none, handed, left, kept, rfl, same.symm ▸ passed.break listening breaks,
        listening, rfl⟩
    | again =>
      have passed := talk.pass (.handle fd, outside) (.inl (unread given (by simp)))
      exact ⟨st, conn, none, handed, left, kept, rfl, same.symm ▸ passed, listening, rfl⟩

/-- A step: what a connection does when it is visited. -/
theorem Talk.visit (talk : Talk requests visits answered conn handed left kept) {st : τ}
    (total : ∀ a, ∃ st' sent, handler st a = some (st', sent)) {v : Visit × Outside} {rest : Bytes}
    (nonempty : ∀ buf ∈ arrived (visits ++ [v]), buf ≠ []) (fits : Visit.Fits conn v)
    (all : (arrived (visits ++ [v])).flatten ++ rest = requestBytes requests) :
    ∃ st' conn' answer handed left kept, visit handler st conn v = some (st', conn', answer) ∧
      Talk requests (visits ++ [v]) (answered ++ answer.toList) conn' handed left kept ∧
      Calls handler st answer st' := by
  have same : answered ++ (none : Option Answered).toList = answered := List.append_nil _
  cases listening : conn.closed with
  | true =>
    have passed := talk.pass v (.inr (.inl listening))
    refine ⟨st, conn, none, handed, left, kept, ?_, same.symm ▸ passed, rfl⟩
    rw [Polling.visit, if_pos listening]
  | false =>
    have awake : ¬ conn.closed = true := by simp [listening]
    obtain ⟨event, outside⟩ := v
    cases event with
    | handle fd =>
      obtain ⟨st', conn', answer, handed, left, kept, received, talks, still, calls⟩ :=
        talk.receive total listening nonempty fits all
      have breaks : fd.canWrite = some .failed →
          ∃ v ∈ visits ++ [(Visit.handle fd, outside)], v.1.Breaks := fun failed =>
        ⟨(.handle fd, outside), by simp, .inr failed⟩
      refine ⟨st', Polling.flush conn' fd.canWrite, answer, handed, left, kept, ?_,
        talks.flush still breaks, calls⟩
      rw [Polling.visit, if_neg awake]
      simp only [mgMgrHandleConn, received, Option.map_some]
    | check =>
      have passed := talk.pass (.check, outside) (.inl rfl)
      by_cases closing :
          (conn.nc.closeImmediately || (conn.sendMbuf = [] && conn.sendAndClose)) = true
      · have flushed : (∀ v ∈ visits ++ [(Visit.check, outside)], ¬ v.1.Breaks) →
            conn.sendMbuf = [] := by
          intro quiet
          rcases Bool.or_eq_true_iff.mp closing with broken | finished
          · obtain ⟨w, member, breaks⟩ := passed.broken broken
            exact absurd breaks (quiet w member)
          · exact of_decide_eq_true (Bool.and_eq_true_iff.mp finished).1
        obtain ⟨st', conn', answer, closes, talks, calls⟩ :=
          passed.close total listening (passed.part ⟨rest, all⟩) flushed outside
        refine ⟨st', conn', answer, handed, left, kept, ?_, talks, calls⟩
        rw [Polling.visit, if_neg awake]
        exact (if_pos closing).trans closes
      · refine ⟨st, conn, none, handed, left, kept, ?_, same.symm ▸ passed, rfl⟩
        rw [Polling.visit, if_neg awake]
        exact if_neg closing
    | free =>
      have passed := talk.pass (.free, outside) (.inl rfl)
      have flushed : (∀ v ∈ visits ++ [(Visit.free, outside)], ¬ v.1.Breaks) → conn.sendMbuf = [] :=
        fun quiet => absurd trivial (quiet (.free, outside) (by simp))
      obtain ⟨st', conn', answer, closes, talks, calls⟩ :=
        passed.close total listening (passed.part ⟨rest, all⟩) flushed outside
      refine ⟨st', conn', answer, handed, left, kept, ?_, talks, calls⟩
      rw [Polling.visit, if_neg awake]
      exact closes

end Handling

section Finishing

def rooms (visits : List (Visit × Outside)) : Nat :=
  (visits.map fun v =>
    match v.1 with
    | .handle fd => roomOf fd.canWrite
    | .check | .free => 0).sum

def Visit.Shuts : Visit → Prop
  | .handle fd => fd.canRead = some .shutdown
  | .check | .free => False

def Shut (conn : Socket) (visits : List (Visit × Outside)) : Prop :=
  conn.sendAndClose = true ∨ ∃ v ∈ visits, v.1.Shuts

/-- The connection was looked at when the client had shut down its side and nothing was left to be
sent. -/
def Finished (conn : Socket) (visits : List (Visit × Outside)) : Prop :=
  ∃ before outside after, visits = before ++ (.check, outside) :: after ∧
    conn.sendMbuf.length ≤ rooms before ∧ Shut conn before

theorem finished_concat {conn : Socket} {visits : List (Visit × Outside)} {v : Visit × Outside} :
    Finished conn (visits ++ [v]) ↔ Finished conn visits ∨
      (v.1 = .check ∧ conn.sendMbuf.length ≤ rooms visits ∧ Shut conn visits) := by
  constructor
  · rintro ⟨before, outside, after, split, sent, shut⟩
    rcases Run.concat_split split with ⟨rfl, rfl, _⟩ | ⟨others, _, earlier⟩
    · exact .inr ⟨rfl, sent, shut⟩
    · exact .inl ⟨before, outside, others, earlier, sent, shut⟩
  · rintro (⟨before, outside, after, rfl, sent, shut⟩ | ⟨check, sent, shut⟩)
    · exact ⟨before, outside, after ++ [v], by simp, sent, shut⟩
    · obtain ⟨_, outside⟩ := v
      subst check
      exact ⟨visits, outside, [], rfl, sent, shut⟩

theorem shut_concat {conn : Socket} {visits : List (Visit × Outside)} {v : Visit × Outside} :
    Shut conn (visits ++ [v]) ↔ Shut conn visits ∨ v.1.Shuts := by
  simp [Shut, or_and_right, exists_or, or_assoc]

/-- A connection to which nothing more comes in, and what has become of it. -/
structure Drains (conn : Socket) (visits : List (Visit × Outside)) (conn' : Socket) : Prop where
  wire : conn'.wire = conn.wire ++ conn.sendMbuf.take (rooms visits)
  closed : conn'.closed = true ↔ Finished conn visits
  listening : conn'.closed = false → conn'.nc.closeImmediately = false ∧
    conn'.sendMbuf = conn.sendMbuf.drop (rooms visits) ∧
    (conn'.sendAndClose = true ↔ Shut conn visits)

variable {τ : Type} {handler : τ → Arrival → Option (τ × List Sent)}

theorem callHandler_keeps {st st' : τ} {conn conn' : Socket} {outside : Outside}
    {hm : Option HttpMessage} {answer : Option Answered}
    (called : callHandler handler st conn outside hm = some (st', conn', answer)) :
    conn'.wire = conn.wire ∧ conn'.closed = conn.closed := by
  cases hm with
  | none =>
    cases called
    exact ⟨rfl, rfl⟩
  | some hm =>
    obtain ⟨_, _, same⟩ := Option.map_eq_some_iff.mp called
    cases same
    exact ⟨rfl, rfl⟩

theorem receive_quiet {fd : FdFlags} (quiet : (Visit.handle fd).piece = none)
    (working : fd.canRead ≠ some .failed) (st : τ) (conn : Socket) (outside : Outside) :
    receive handler st conn outside fd.canRead =
      some (st, { conn with sendAndClose :=
        conn.sendAndClose || decide (fd.canRead = some .shutdown) }, none) := by
  cases given : fd.canRead with
  | none => simp [receive]
  | some received =>
    cases received with
    | came buf =>
      rw [Visit.piece, given] at quiet
      cases quiet
    | shutdown => simp [receive, mgHandleTcpRead]
    | failed => exact absurd given working
    | again => simp [receive, mgHandleTcpRead]

theorem Drains.wakeful {conn now next : Socket} {visits : List (Visit × Outside)}
    (drains : Drains conn visits now) {st st' : τ} {v : Visit × Outside} {answer : Option Answered}
    (quiet : v.1.piece = none ∧ ¬ v.1.Breaks) (listening : now.closed = false)
    (visited : visit handler st now v = some (st', next, answer)) :
    Drains conn (visits ++ [v]) next := by
  obtain ⟨intact, unsent, shut⟩ := drains.listening listening
  have awake : ¬ now.closed = true := by simp [listening]
  have unfinished : ¬ Finished conn visits := mt drains.closed.mpr awake
  rw [Polling.visit, if_neg awake] at visited
  obtain ⟨event, outside⟩ := v
  cases event with
  | handle fd =>
    have working := not_or.mp quiet.2
    simp only [mgMgrHandleConn, receive_quiet quiet.1 working.1, Option.map_some] at visited
    cases visited
    have still : ({ now with sendAndClose :=
        now.sendAndClose || decide (fd.canRead = some .shutdown) } : Socket).nc.closeImmediately =
          false := intact
    rw [flush_room still working.2]
    have counted : rooms (visits ++ [(.handle fd, outside)]) = rooms visits + roomOf fd.canWrite := by
      simp [rooms]
    have unmoved : ¬ Finished conn (visits ++ [(.handle fd, outside)]) := by
      simp [finished_concat, unfinished]
    exact {
      wire := by rw [drains.wire, unsent, counted, List.take_add, List.append_assoc]
      closed := iff_of_false awake unmoved
      listening := fun _ => ⟨intact, by rw [unsent, counted, List.drop_drop], by
        rw [shut_concat, Bool.or_eq_true, shut, decide_eq_true_eq]
        rfl⟩ }
  | check =>
    have counted : rooms (visits ++ [(.check, outside)]) = rooms visits := by simp [rooms]
    have still : Shut conn (visits ++ [(.check, outside)]) ↔ Shut conn visits := by
      rw [shut_concat]
      exact or_iff_left id
    have ready : (now.sendMbuf = [] ∧ now.sendAndClose = true) ↔
        Finished conn (visits ++ [(.check, outside)]) := by
      rw [unsent, List.drop_eq_nil_iff, shut, finished_concat]
      simp [unfinished]
    by_cases closing : now.sendMbuf = [] ∧ now.sendAndClose = true
    · simp only [intact, closing, decide_true, Bool.and_self, Bool.or_true, if_true] at visited
      obtain ⟨wire, closed⟩ := callHandler_keeps visited
      exact {
        wire := by rw [wire, counted, drains.wire]
        closed := iff_of_true closed (ready.mp closing)
        listening := fun open_again => nomatch open_again.symm.trans closed }
    · have stays : (now.nc.closeImmediately || (now.sendMbuf = [] && now.sendAndClose)) = false := by
        simpa [intact] using closing
      simp only [stays, Bool.false_eq_true, if_false] at visited
      cases visited
      exact {
        wire := by rw [counted, drains.wire]
        closed := iff_of_false awake (mt ready.mpr closing)
        listening := fun _ => ⟨intact, by rw [counted, unsent], shut.trans still.symm⟩ }
  | free => exact absurd trivial quiet.2

theorem Drains.visit {conn now next : Socket} {visits : List (Visit × Outside)}
    (drains : Drains conn visits now) {st st' : τ} {v : Visit × Outside} {answer : Option Answered}
    (quiet : v.1.piece = none ∧ ¬ v.1.Breaks)
    (visited : visit handler st now v = some (st', next, answer)) :
    Drains conn (visits ++ [v]) next := by
  cases state : now.closed with
  | false => exact drains.wakeful quiet state visited
  | true =>
    rw [Polling.visit, if_pos state] at visited
    cases visited
    have finished := drains.closed.mp state
    obtain ⟨before, outside, after, split, sent, shut⟩ := finished
    have enough : conn.sendMbuf.length ≤ rooms visits := by
      refine Nat.le_trans sent ?_
      simp [split, rooms]
    have counted : rooms visits ≤ rooms (visits ++ [v]) := by simp [rooms]
    exact {
      wire := by
        rw [drains.wire, List.take_of_length_le enough, List.take_of_length_le (Nat.le_trans enough counted)]
      closed := iff_of_true state (finished_concat.mpr (.inl (drains.closed.mp state)))
      listening := fun awake => nomatch awake.symm.trans state }

/-- While nothing more comes in on a connection and no call fails on it, whatever happens on the
others, the network gets what is still to be sent, in order and as far as there is room. The
connection is closed exactly if it was looked at after the client had shut down its side and
everything was sent. -/
theorem connection_finishes {ι : Type} [DecidableEq ι] {s t : (ι → Socket) × τ}
    {visits : List (ι × Visit × Outside)} {answers : List (Option Answered)} (i : ι)
    (listening : (s.1 i).closed = false) (intact : (s.1 i).nc.closeImmediately = false)
    (quiet : ∀ v ∈ Family.inputs i visits, v.1.piece = none ∧ ¬ v.1.Breaks)
    (ran : Run.run (Sharing.step (Polling.visit handler)) s visits = some (t, answers)) :
    Drains (s.1 i) (Family.inputs i visits) (t.1 i) := by
  refine Sharing.run_own i (Drains (s.1 i)) ?_ ?_ ran
  · exact {
      wire := by simp [rooms]
      closed := iff_of_false (by simp [listening]) (by
        rintro ⟨before, outside, after, split, _⟩
        simp at split)
      listening := fun _ => ⟨intact, by simp [rooms], by simp [Shut]⟩ }
  · intro past v st st' conn conn' answer member drains visited
    exact drains.visit (quiet v member) visited

/-- Two connections with something left to be sent. One client shuts down its side and takes one
byte in each poll, the other one is lost. -/
def lastPolls : List (Bool × Visit × Outside) :=
  let outside := (post [] [] idOfA).outside
  [1, 2].flatMap fun n => mgMgrPoll [
    (true, { canRead := some .failed, canWrite := some (.bytes n) }, outside, outside),
    (false, { canRead := some .shutdown, canWrite := some (.bytes 1) }, outside, outside)]

def unsentOk : (Bool → Socket) × Streams Codec.plain := (fun _ => { sendMbuf := str "ok" }, noStreams)

theorem connection_finishes_last :
    ∃ t answers, Run.run (Sharing.step (Polling.visit (serve parseNothing fun _ => []))) unsentOk
        lastPolls = some (t, answers) ∧
      Drains (unsentOk.1 false) (Family.inputs false lastPolls) (t.1 false) := by
  have runs : (Run.run (Sharing.step (Polling.visit (serve parseNothing fun _ => []))) unsentOk
      lastPolls).isSome = true := rfl
  obtain ⟨⟨t, answers⟩, ran⟩ := Option.isSome_iff_exists.mp runs
  have quiet : ∀ v ∈ Family.inputs false lastPolls, v.1.piece = none ∧ ¬ v.1.Breaks := by
    simp [lastPolls, mgMgrPoll, Family.inputs, Visit.piece, Visit.Breaks]
  exact ⟨t, answers, ran, connection_finishes false rfl rfl quiet ran⟩

end Finishing

section Clients

variable {ι : Type} [DecidableEq ι] {c : Codec}

end Clients

end HttpAudioServer.Polling
