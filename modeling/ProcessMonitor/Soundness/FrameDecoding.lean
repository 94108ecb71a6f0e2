import ProcessMonitor.Model.Cli.SystemMonitor
import ProcessMonitor.Model.LocGen.VtsAdapter
import ProcessMonitor.Model.Vts.NetServer

/-! # The frame decoder against the unique decomposition of the stream

`Holding c partial` ties the four decoder fields to the bytes of the frame being received. It
holds between any two calls of `read()`, hence at every suspension, and it is the only fact about
a suspended connection that the proof uses. One call of `read_from_conn` then decodes exactly the
frames completed by the bytes it consumed, and the events of a connection compose.
-/

namespace ProcessMonitor.Soundness.FrameDecoding

open Machine Machine.Posix Model.Vts

/-- The item a complete payload becomes. -/
def workOf (fd : ℤ) (payload : Bytes) : Work := ⟨payload, payload.length, fd⟩

/-- The decoder has received exactly `partial` of the current frame. -/
inductive Holding (c : Conn) : Bytes → Prop
  | header {received : Bytes} (four : c.header.length = 4) (count : c.headerRead = received.length)
      (short : received.length < 4) (stored : c.header.take received.length = received) :
      Holding c received
  | payload {body buffer : Bytes} (four : c.header.length = 4) (count : c.headerRead = 4)
      (announced : c.payloadLen = framing.size c.header) (admits : framing.Admits c.payloadLen)
      (allocated : c.payload = some buffer) (room : buffer.length = c.payloadLen)
      (filled : c.payloadRead = body.length) (bound : body.length ≤ c.payloadLen)
      (stored : buffer.take body.length = body) : Holding c (c.header ++ body)

theorem holding_connNew (fd : ℤ) : Holding (connNew fd) [] :=
  .header rfl rfl (by decide) rfl

private theorem take_storeAt {buffer data : Bytes} {offset : ℕ}
    (room : offset + data.length ≤ buffer.length) :
    (storeAt buffer offset data).take (offset + data.length) = buffer.take offset ++ data := by
  have size : (buffer.take offset ++ data).length = offset + data.length := by
    rw [List.length_append, List.length_take]
    omega
  rw [storeAt, ← size, List.take_left]

private theorem length_storeAt {buffer data : Bytes} {offset : ℕ}
    (room : offset + data.length ≤ buffer.length) :
    (storeAt buffer offset data).length = buffer.length := by
  simp only [storeAt, List.length_append, List.length_take, List.length_drop]
  omega

private theorem take_width {header : Bytes} (four : header.length = 4) (body : Bytes) :
    (header ++ body).take framing.width = header := by
  rw [framing_width, ← four, List.take_left]

/-- Between two reads either the frame is complete and handed over, or bytes are missing. -/
theorem Holding.fullFrame {c : Conn} {received : Bytes} (holding : Holding c received) :
    (fullFrame c = (c, []) ∧ framing.Incomplete received) ∨
      ∃ next payload, fullFrame c = (next, [workOf c.fd payload]) ∧ next.fd = c.fd ∧
        Holding next [] ∧ framing.Admits payload.length ∧ received = framing.frame payload := by
  cases holding with
  | header four count short stored =>
    refine .inl ⟨?_, .inl short⟩
    rw [Model.Vts.fullFrame, if_neg (by omega)]
  | @payload body buffer four count announced admits allocated room filled bound stored =>
    by_cases done : c.payloadLen ≤ c.payloadRead
    · have sizes : body.length = c.payloadLen := by omega
      have whole : buffer = body := by
        rw [← stored, List.take_of_length_le (by omega)]
      refine .inr ⟨(handleFrame { c with headerRead := 0 }).1, body, ?_, rfl, ?_, sizes ▸ admits, ?_⟩
      · rw [Model.Vts.fullFrame, if_pos ⟨by omega, done⟩]
        simp only [handleFrame, WorkQueue.makeWork, allocated, Option.getD_some, workOf, whole,
          ← sizes, List.take_length]
      · exact .header four rfl (by decide) rfl
      · have encoded := framing.header_size c.header four (announced ▸ admits.1) (announced ▸ admits.2)
        rw [LengthPrefix.frame, sizes, announced, encoded]
    · refine .inl ⟨?_, .inr ?_⟩
      · rw [Model.Vts.fullFrame, if_neg (by omega)]
      · rw [take_width four, ← announced, List.length_append, four, framing_width]
        exact ⟨admits, by omega⟩

/-- After the hand-over the decoder holds an unfinished frame, whatever it held before. -/
theorem Holding.settle {c : Conn} {received : Bytes} (holding : Holding c received) :
    ∃ (next : Conn) (first : List Bytes) (rest : Bytes),
      Model.Vts.fullFrame c = (next, first.map (workOf c.fd)) ∧ next.fd = c.fd ∧ Holding next rest ∧
      framing.Incomplete rest ∧ (∀ payload ∈ first, framing.Admits payload.length) ∧
      received = first.flatMap framing.frame ++ rest := by
  rcases holding.fullFrame with ⟨same, incomplete⟩ | ⟨next, payload, full, sameFd, after, admits, rfl⟩
  · exact ⟨c, [], received, same, rfl, holding, incomplete, by simp, rfl⟩
  · refine ⟨next, [payload], [], full, sameFd, after, .inl (by decide), ?_, ?_⟩
    · intro other member
      exact List.mem_singleton.mp member ▸ admits
    · simp

theorem Holding.wanted_pos {c : Conn} {received : Bytes} (holding : Holding c received)
    (incomplete : framing.Incomplete received) : 0 < c.wanted := by
  cases holding with
  | header four count short stored =>
    rw [Conn.wanted, if_pos (by omega)]
    omega
  | @payload body buffer four count announced admits allocated room filled bound stored =>
    rw [LengthPrefix.Incomplete, take_width four, ← announced, List.length_append, four,
      framing_width] at incomplete
    rw [Conn.wanted, if_neg (by omega)]
    omega

/-- A complete admitted header starts an empty payload buffer of the announced size. -/
private theorem holding_openPayload {c : Conn} (four : c.header.length = 4) (count : c.headerRead = 4)
    (admitted : ¬ (le32ToHost (loadU32 c.header) = 0 ∨ vtsMaxFrame < le32ToHost (loadU32 c.header))) :
    Holding (c.openPayload (le32ToHost (loadU32 c.header))) c.header := by
  have held : Holding (c.openPayload (le32ToHost (loadU32 c.header))) (c.header ++ []) := by
    refine @Holding.payload (c.openPayload _) [] _ four count (framing_size _).symm
      ((framing_admits _).mpr admitted) rfl ?_ ?_ ?_ ?_
    · exact List.length_replicate
    · rfl
    · exact Nat.zero_le _
    · rfl
  rwa [List.append_nil] at held

/-- The bytes of one `read()` extend what the decoder holds, or complete a refused header. -/
theorem Holding.take {c : Conn} {received data : Bytes} (holding : Holding c received)
    (fits : data.length ≤ c.wanted) :
    (∃ next, c.take data = .more next ∧ next.fd = c.fd ∧ Holding next (received ++ data)) ∨
      ∃ next, c.take data = .refused next ∧ framing.Rejected (received ++ data) := by
  cases holding with
  | header four count short stored =>
    rw [Conn.wanted, if_pos (by omega)] at fits
    have room : c.headerRead + data.length ≤ c.header.length := by omega
    have written : (c.storeHeader data).header.take (c.headerRead + data.length) = received ++ data := by
      rw [← stored, ← count]
      exact take_storeAt room
    have size : (c.storeHeader data).header.length = 4 := (length_storeAt room).trans four
    have counted : (c.storeHeader data).headerRead = (received ++ data).length := by
      rw [List.length_append, ← count]
      rfl
    rw [Conn.take, if_pos (by omega)]
    by_cases more : (c.storeHeader data).headerRead < 4
    · refine .inl ⟨c.storeHeader data, if_pos more, rfl, .header size counted (counted ▸ more) ?_⟩
      rw [← counted]
      exact written
    · have complete : (c.storeHeader data).header = received ++ data := by
        rw [← written]
        exact (List.take_of_length_le (by change ¬ c.headerRead + data.length < 4 at more; omega)).symm
      simp only [if_neg more]
      by_cases refused : le32ToHost (loadU32 (c.storeHeader data).header) = 0 ∨
          vtsMaxFrame < le32ToHost (loadU32 (c.storeHeader data).header)
      · refine .inr ⟨c.storeHeader data, if_pos refused, ?_, ?_⟩
        · rw [← complete, size]
          exact Nat.le_refl 4
        · rw [← complete, framing_admits, framing_size, framing_width, ← size, List.take_length]
          exact not_not_intro refused
      · refine .inl ⟨_, if_neg refused, rfl, ?_⟩
        rw [← complete]
        exact holding_openPayload size (by rw [counted, ← complete, size]) refused
  | @payload body buffer four count announced admits allocated room filled bound stored =>
    rw [Conn.wanted, if_neg (by omega)] at fits
    have space : body.length + data.length ≤ buffer.length := by omega
    have written : (c.storePayload data).payload = some (storeAt buffer body.length data) := by
      simp only [Conn.storePayload, allocated, Option.map_some, filled]
    refine .inl ⟨c.storePayload data, by rw [Conn.take, if_neg (by omega)], rfl, ?_⟩
    rw [List.append_assoc]
    refine .payload four count announced admits written ((length_storeAt space).trans room) ?_ ?_ ?_
    · rw [List.length_append, ← filled]
      rfl
    · rw [List.length_append]
      change body.length + data.length ≤ c.payloadLen
      omega
    · rw [List.length_append, take_storeAt space, stored]

/-- `run` is what a decoder that held `received` may make of `unread`: it pushed exactly the
frames that the consumed bytes complete, and it stopped at a refused header or waits. -/
def Decodes (fd : ℤ) (received unread : Bytes) (quiet : Prop) (run : ReadRun) : Prop :=
  ∃ (consumed : Bytes) (payloads : List Bytes) (rest : Bytes), unread = consumed ++ run.unread ∧
    run.pushed = payloads.map (workOf fd) ∧ framing.Splits (received ++ consumed) payloads rest ∧
    (framing.Rejected rest ∧ run.ret = -1 ∨
      framing.Incomplete rest ∧ Holding run.conn rest ∧ run.conn.fd = fd ∧ (quiet → run.ret = 1))

/-- A call that reads nothing more leaves the settled connection behind. -/
private theorem decodes_settled {fd : ℤ} {c : Conn} {first : List Bytes} {rest : Bytes} {quiet : Prop}
    (unread : Bytes) (ret : ℤ) (holding : Holding c rest) (sameFd : c.fd = fd)
    (incomplete : framing.Incomplete rest)
    (admitted : ∀ payload ∈ first, framing.Admits payload.length) (one : quiet → ret = 1) :
    Decodes fd (first.flatMap framing.frame ++ rest) unread quiet
      ⟨ret, c, unread, first.map (workOf fd)⟩ :=
  ⟨[], first, rest, rfl, rfl, ⟨List.append_nil _, admitted, .inl incomplete⟩,
    .inr ⟨incomplete, holding, sameFd, one⟩⟩

theorem readFromConn_decodes {c : Conn} {received : Bytes} (holding : Holding c received)
    (unread : Bytes) (answers : List Answer) :
    Decodes c.fd received unread (Quiet answers) (readFromConn c unread answers) := by
  induction answers generalizing c received unread with
  | nil =>
    obtain ⟨next, first, rest, full, sameFd, after, incomplete, admitted, rfl⟩ := holding.settle
    rw [readFromConn, full]
    exact decodes_settled unread 1 after sameFd incomplete admitted (fun _ => rfl)
  | cons answer answers ih =>
    obtain ⟨next, first, rest, full, sameFd, after, incomplete, admitted, rfl⟩ := holding.settle
    have positive := after.wanted_pos incomplete
    simp only [readFromConn, full]
    cases result : Posix.read answer unread next.wanted with
    | eof =>
      apply decodes_settled unread 0 after sameFd incomplete admitted
      intro quiet
      exact absurd result (read_quiet (quiet answer (List.mem_cons_self ..)) positive).1
    | error =>
      apply decodes_settled unread (-1) after sameFd incomplete admitted
      intro quiet
      exact absurd result (read_quiet (quiet answer (List.mem_cons_self ..)) positive).2
    | again => exact decodes_settled unread 1 after sameFd incomplete admitted (fun _ => rfl)
    | data data =>
      obtain ⟨-, fits, cut⟩ := read_data result
      rcases after.take fits with ⟨taken, takenEq, takenFd, takenHolding⟩ | ⟨taken, takenEq, rejected⟩
      · obtain ⟨consumed, payloads, rest', unreadEq, pushedEq, splits, outcome⟩ :=
          ih takenHolding (unread.drop data.length)
        rw [takenFd, sameFd] at pushedEq outcome
        simp only [takenEq]
        refine ⟨data ++ consumed, first ++ payloads, rest', ?_, ?_, ?_, ?_⟩
        · rw [List.append_assoc, ← unreadEq]
          exact cut
        · rw [List.map_append, ← pushedEq]
        · rw [List.append_assoc, ← List.append_assoc rest]
          exact splits.prepend admitted
        · rcases outcome with refused | ⟨waits, held, fdEq, quietRet⟩
          · exact .inl refused
          · refine .inr ⟨waits, held, fdEq, ?_⟩
            intro quiet
            exact quietRet (fun other member => quiet other (List.mem_cons_of_mem _ member))
      · simp only [takenEq]
        refine ⟨data, first, rest ++ data, cut, rfl, ⟨?_, admitted, .inr rejected⟩, .inl ⟨rejected, rfl⟩⟩
        rw [List.append_assoc]

/-- The events of a connection the kernel keeps up and that nobody hangs up. -/
def QuietEvents (events : List Readiness) : Prop :=
  ∀ event ∈ events, event.hup = false ∧ Quiet event.answers

/-- Suspending and resuming between events changes nothing: the whole run of a connection decodes
the bytes it consumed. A quiet one ends waiting or with the refused header. -/
theorem serveConn_decodes {c : Conn} {received : Bytes} (holding : Holding c received)
    (incomplete : framing.Incomplete received) (unread : Bytes) (events : List Readiness) :
    ∃ (consumed : Bytes) (payloads : List Bytes) (rest : Bytes),
      unread = consumed ++ (serveConn c unread events).unread ∧
      (serveConn c unread events).pushed = payloads.map (workOf c.fd) ∧
      framing.Splits (received ++ consumed) payloads rest ∧
      (framing.Rejected rest ∧ (serveConn c unread events).ret = -1 ∧
          (serveConn c unread events).conn = none ∨
        framing.Incomplete rest ∧ (QuietEvents events →
          (serveConn c unread events).ret = 1 ∧ (serveConn c unread events).conn ≠ none)) := by
  induction events generalizing c received unread with
  | nil =>
    exact ⟨[], [], received, rfl, rfl, ⟨List.append_nil _, by simp, .inl incomplete⟩,
      .inr ⟨incomplete, fun _ => ⟨rfl, by simp [serveConn]⟩⟩⟩
  | cons event events ih =>
    obtain ⟨consumed, payloads, rest, unreadEq, pushedEq, splits, outcome⟩ :=
      readFromConn_decodes holding unread event.answers
    by_cases stop : (readFromConn c unread event.answers).ret ≤ 0 ∨ event.hup = true
    · rw [serveConn, if_pos stop]
      refine ⟨consumed, payloads, rest, unreadEq, pushedEq, splits, ?_⟩
      rcases outcome with ⟨rejected, refused⟩ | ⟨waits, -, -, quietRet⟩
      · exact .inl ⟨rejected, refused, rfl⟩
      · refine .inr ⟨waits, ?_⟩
        intro quiet
        obtain ⟨noHup, quietNow⟩ := quiet event (List.mem_cons_self ..)
        rw [quietRet quietNow, noHup] at stop
        exact absurd stop (by decide)
    · rw [serveConn, if_neg stop]
      rcases outcome with ⟨-, refused⟩ | ⟨waits, held, fdEq, -⟩
      · exact absurd (.inl (by rw [refused]; decide)) stop
      obtain ⟨consumed', payloads', rest', unreadEq', pushedEq', splits', outcome'⟩ :=
        ih held waits (readFromConn c unread event.answers).unread
      refine ⟨consumed ++ consumed', payloads ++ payloads', rest', ?_, ?_, ?_, ?_⟩
      · rw [List.append_assoc, ← unreadEq']
        exact unreadEq
      · rw [List.map_append, ← pushedEq, ← fdEq, ← pushedEq']
      · rw [← List.append_assoc, splits.stream_eq, List.append_assoc]
        exact splits'.prepend splits.admitted
      · rcases outcome' with refused | ⟨waits', quietEnd⟩
        · exact .inl refused
        · refine .inr ⟨waits', ?_⟩
          intro quiet
          exact quietEnd (fun other member => quiet other (List.mem_cons_of_mem _ member))

theorem splits_frame {text : Bytes} (admits : framing.Admits text.length) :
    framing.Splits (framing.frame text) [text] [] where
  stream_eq := by rw [List.flatMap_singleton, List.append_nil]
  admitted payload member := by
    rw [List.mem_singleton.mp member]
    exact admits
  stops := .inl (.inl (by decide))

/-- From any first part of a frame the server gets that frame or nothing. -/
theorem pushed_of_part {text sent : Bytes} (admits : framing.Admits text.length) (part : sent <+: framing.frame text)
    (fd : ℤ) (events : List Readiness) : (serveConn (connNew fd) sent events).pushed.map Work.payload <+: [text] := by
  obtain ⟨more, whole⟩ := part
  obtain ⟨consumed, payloads, rest, unreadEq, pushedEq, splits, -⟩ :=
    serveConn_decodes (holding_connNew fd) (.inl (by decide)) sent events
  have stream : framing.Splits (payloads.flatMap framing.frame ++
      (rest ++ (serveConn (connNew fd) sent events).unread ++ more)) [text] [] := by
    rw [List.append_assoc rest, ← List.append_assoc, ← splits.stream_eq, List.nil_append, ← List.append_assoc,
      ← unreadEq, whole]
    exact splits_frame admits
  obtain ⟨later, single, -⟩ := LengthPrefix.Splits.of_frames splits.admitted stream
  have decoded : (serveConn (connNew fd) sent events).pushed.map Work.payload = payloads := by
    rw [pushedEq, List.map_map]
    exact List.map_id payloads
  rw [decoded, single]
  exact List.prefix_append payloads later

/-- How many reads of one event the kernel answers with data before it first says `EAGAIN`. -/
def offered : List Answer → ℕ
  | .ready _ :: answers => offered answers + 1
  | _ => 0

/-- Every read answered with data makes progress until the stream is used up or refused. -/
theorem readFromConn_progress {c : Conn} {received : Bytes} (holding : Holding c received)
    (unread : Bytes) (answers : List Answer) :
    (readFromConn c unread answers).unread = [] ∨ (readFromConn c unread answers).ret = -1 ∨
      (readFromConn c unread answers).unread.length + offered answers ≤ unread.length := by
  obtain ⟨consumed, -, -, unreadEq, -⟩ := readFromConn_decodes holding unread answers
  have shorter := congrArg List.length unreadEq
  rw [List.length_append] at shorter
  induction answers generalizing c received unread consumed with
  | nil => exact .inr (.inr (by simp only [offered]; omega))
  | cons answer answers ih =>
    cases answer with
    | ready more =>
      by_cases used : unread = []
      · rw [used] at unreadEq
        exact .inl (by rw [used]; exact (List.append_eq_nil_iff.mp unreadEq.symm).2)
      obtain ⟨next, first, rest, full, sameFd, after, incomplete, -, rfl⟩ := holding.settle
      obtain ⟨data, result⟩ := read_ready more used (after.wanted_pos incomplete)
      obtain ⟨some, fits, cut⟩ := read_data result
      simp only [readFromConn, full, result, offered]
      rcases after.take fits with ⟨taken, takenEq, -, takenHolding⟩ | ⟨taken, takenEq, -⟩
      · simp only [takenEq]
        obtain ⟨consumed', -, -, unreadEq', -⟩ :=
          readFromConn_decodes takenHolding (unread.drop data.length) answers
        have left := congrArg List.length cut
        rw [List.length_append] at left
        have shorter' := congrArg List.length unreadEq'
        rw [List.length_append] at shorter'
        rcases ih takenHolding (unread.drop data.length) consumed' unreadEq' shorter' with done | refused | rest
        · exact .inl done
        · exact .inr (.inl refused)
        · exact .inr (.inr (by omega))
      · simp only [takenEq]
        exact .inr (.inl trivial)
    | again => exact .inr (.inr (by simp only [offered]; omega))
    | hangup => exact .inr (.inr (by simp only [offered]; omega))
    | fault => exact .inr (.inr (by simp only [offered]; omega))

theorem serveConn_progress {c : Conn} {received : Bytes} (holding : Holding c received)
    (incomplete : framing.Incomplete received) (unread : Bytes) {events : List Readiness}
    (quiet : QuietEvents events) :
    (serveConn c unread events).unread = [] ∨ (serveConn c unread events).ret = -1 ∨
      (serveConn c unread events).unread.length + (events.map fun event => offered event.answers).sum ≤
        unread.length := by
  induction events generalizing c received unread with
  | nil => exact .inr (.inr (Nat.le_refl _))
  | cons event events ih =>
    obtain ⟨noHup, quietNow⟩ := quiet event (List.mem_cons_self ..)
    have progress := readFromConn_progress holding unread event.answers
    obtain ⟨-, -, rest, -, -, -, ⟨-, refused⟩ | ⟨waits, held, -, quietRet⟩⟩ :=
      readFromConn_decodes holding unread event.answers
    · rw [serveConn, if_pos (.inl (by rw [refused]; decide))]
      exact .inr (.inl refused)
    · have kept : ¬ ((readFromConn c unread event.answers).ret ≤ 0 ∨ event.hup = true) := by
        rw [quietRet quietNow, noHup]
        decide
      rw [serveConn, if_neg kept]
      have quietLater : QuietEvents events := fun other member => quiet other (List.mem_cons_of_mem _ member)
      obtain ⟨consumed, -, -, unreadEq, -⟩ :=
        serveConn_decodes held waits (readFromConn c unread event.answers).unread events
      rcases ih held waits (readFromConn c unread event.answers).unread quietLater with done | refused | later
      · exact .inl done
      · exact .inr (.inl refused)
      · rcases progress with used | refused | now
        · rw [used] at unreadEq
          exact .inl (by rw [used]; exact (List.append_eq_nil_iff.mp unreadEq.symm).2)
        · rw [quietRet quietNow] at refused
          contradiction
        · refine .inr (.inr ?_)
          simp only [List.map_cons, List.sum_cons]
          omega

/-- What the server has made of a stream with frames `payloads` and then `rest`, after any number
of readiness events with any answers of the kernel. A connection that ends early has pushed a
first part of the frames; one that is kept up gets to the end of the stream. -/
structure DecodedExactly (fd : ℤ) (stream : Bytes) (payloads : List Bytes) (rest : Bytes)
    (events : List Readiness) (out : Served) : Prop where
  inOrder : out.pushed <+: payloads.map (workOf fd)
  finished : out.unread = [] → out.pushed = payloads.map (workOf fd)
  waits : QuietEvents events → framing.Incomplete rest → out.ret = 1 ∧ out.conn ≠ none
  refuses : QuietEvents events → framing.Rejected rest → out.unread = [] →
    out.ret = -1 ∧ out.conn = none
  onlyRefused : QuietEvents events → out.ret = -1 →
    framing.Rejected rest ∧ out.conn = none ∧ out.pushed = payloads.map (workOf fd)
  delivered : QuietEvents events →
    stream.length ≤ (events.map fun event => offered event.answers).sum → out.unread = [] ∨ out.ret = -1

/-- A client put `bytes` on its connection to send `payload`, and saw no error. -/
inductive ClientFrame (payload : Bytes) : Bytes → Prop
  | locgend (answers : List WriteAnswer) (ok : (Model.LocGen.sendFrame payload answers).1 = 0) :
      ClientFrame payload (Model.LocGen.sendFrame payload answers).2
  | cli (first second : WriteAnswer) (ok : (Model.Cli.writeRequest payload first second).1 = true) :
      ClientFrame payload (Model.Cli.writeRequest payload first second).2

private theorem flatten_clientFrames {payloads chunks : List Bytes}
    (sent : List.Forall₂ ClientFrame payloads chunks) :
    chunks.flatten = payloads.flatMap framing.frame := by
  induction sent with
  | nil => rfl
  | cons client _ ih =>
    rw [List.flatten_cons, List.flatMap_cons, ih]
    cases client with
    | locgend answers ok => rw [Model.LocGen.sendFrame_ok ok]
    | cli first second ok => rw [Model.Cli.writeRequest_ok ok]

theorem decodedExactly_of_splits (fd : ℤ) {stream rest : Bytes} {payloads : List Bytes}
    (splits : framing.Splits stream payloads rest) (events : List Readiness) :
    DecodedExactly fd stream payloads rest events (serveConn (connNew fd) stream events) := by
  have empty : framing.Incomplete ([] : Bytes) := .inl (by decide)
  have progress : QuietEvents events → _ := serveConn_progress (holding_connNew fd) empty stream
  obtain ⟨consumed, seen, held, unreadEq, pushedEq, seenSplits, outcome⟩ :=
    serveConn_decodes (holding_connNew fd) empty stream events
  generalize serveConn (connNew fd) stream events = out at *
  rw [List.nil_append] at seenSplits
  change out.pushed = seen.map (workOf fd) at pushedEq
  have whole : framing.Splits (seen.flatMap framing.frame ++ (held ++ out.unread)) payloads rest := by
    rw [← List.append_assoc, ← seenSplits.stream_eq, ← unreadEq]
    exact splits
  obtain ⟨more, rfl, tailSplits⟩ := LengthPrefix.Splits.of_frames seenSplits.admitted whole
  -- Once nothing can follow what the decoder holds, it has seen every frame of the stream.
  have atEnd : out.unread = [] ∨ framing.Rejected held → more = [] ∧ rest = held ++ out.unread := by
    rintro (used | rejected)
    · rw [used, List.append_nil] at tailSplits ⊢
      exact tailSplits.of_stops seenSplits.stops
    · exact tailSplits.of_stops (.inr (rejected.append _))
  constructor
  · rw [List.map_append, ← pushedEq]
    exact List.prefix_append _ _
  · intro used
    rw [(atEnd (.inl used)).1, List.append_nil]
    exact pushedEq
  · intro quiet missing
    rcases outcome with ⟨rejected, -, -⟩ | ⟨-, waits⟩
    · have restEq := (atEnd (.inr rejected)).2
      exact absurd (restEq ▸ rejected.append _) missing.not_rejected
    · exact waits quiet
  · intro quiet rejected used
    rcases outcome with ⟨-, refused⟩ | ⟨waiting, -⟩
    · exact refused
    · have restEq := (atEnd (.inl used)).2
      rw [used, List.append_nil] at restEq
      exact absurd (restEq ▸ rejected) waiting.not_rejected
  · intro quiet refused
    rcases outcome with ⟨rejected, -, gone⟩ | ⟨-, waits⟩
    · obtain ⟨rfl, restEq⟩ := atEnd (.inr rejected)
      refine ⟨restEq ▸ rejected.append _, gone, ?_⟩
      rw [List.append_nil]
      exact pushedEq
    · rw [(waits quiet).1] at refused
      contradiction
  · intro quiet enough
    rcases progress quiet with used | refused | left
    · exact .inl used
    · exact .inr refused
    · exact .inl (List.eq_nil_of_length_eq_zero (by omega))

/-- Frame decoding is exact and does not depend on how the stream is cut. Every stream has one
decomposition; under any readiness events and answers of the kernel the server pushes its frames
in order, all of them once the stream is delivered, and then waits or refuses the header that
follows. What either client sends for a list of payloads is decoded to that list. -/
theorem frames_decoded_exactly (fd : ℤ) (stream : Bytes) :
    ∃ (payloads : List Bytes) (rest : Bytes), framing.Splits stream payloads rest ∧
      (∀ payloads' rest', framing.Splits stream payloads' rest' → payloads' = payloads ∧ rest' = rest) ∧
      (∀ events, DecodedExactly fd stream payloads rest events (serveConn (connNew fd) stream events)) ∧
      (∀ sent chunks : List Bytes, (∀ payload ∈ sent, 1 ≤ payload.length ∧ payload.length ≤ 2 ^ 20) →
        List.Forall₂ ClientFrame sent chunks → stream = chunks.flatten →
        payloads = sent ∧ rest = []) := by
  obtain ⟨payloads, rest, splits⟩ := framing.exists_splits stream
  refine ⟨payloads, rest, splits, ?_, ?_, ?_⟩
  · intro payloads' rest' other
    exact other.unique splits
  · exact decodedExactly_of_splits fd splits
  · intro sent chunks admitted clients streamEq
    apply splits.unique
    refine ⟨?_, admitted, .inl (.inl (by decide))⟩
    rw [streamEq, flatten_clientFrames clients, List.append_nil]

end ProcessMonitor.Soundness.FrameDecoding
