import AuroraSizing.Wire.Progress
import AuroraSizing.Wire.StaleBytes

/-!
# A client's session

`Client` makes its calls one after another: it writes a request, blocks until the
response is there, and decodes it. Each write is eight bytes longer than the message
it holds, and a lookup declares seven bytes, whatever its length. The server
nevertheless answers every call, and each client gets the answers to its own calls, as
long as no read of the server ends between the declared and the written length.
-/

namespace AuroraSizing.Wire

open Foundation.Bytes Foundation.KeyedRows Foundation.Utf8 Lookup

/-! ## The client's calls -/

/-- What `Client::attach` attaches as. -/
def Client.attachRequest : AttachRequest := ReadLoop.rahul

inductive ClientCall where
  | attach
  | lookup (count : BitVec 16) (namePrefix : CName SEC_NAME_SIZE)
  | getSecurity (securityName : CName SEC_NAME_SIZE)

inductive Reply where
  | attach (response : AttachResponse)
  | lookup (response : NameLookupResponse)
  | getSecurity (response : ClientGetByNameResponse)
deriving DecidableEq, Repr

/-- The request of `Client::lookup`. -/
def Client.lookupRequest (count : BitVec 16) (namePrefix : CName SEC_NAME_SIZE) :
    NameLookupRequest := ⟨.sdbGetGe, count, namePrefix⟩

namespace ClientCall

/-- `asio::buffer(request.encode(), request.size + sizeof(size_t))`: what was encoded and what
the memory holds behind it. -/
def sent (heap : Memory) : ClientCall → Bytes
  | attach =>
      let request := Client.attachRequest
      request.encode heap ++ heap.read (request.size + 2) 6
  | lookup count namePrefix =>
      let request := Client.lookupRequest count namePrefix
      request.encode heap ++ heap.read request.size 8
  | getSecurity securityName =>
      let request : GetByNameRequest := ⟨securityName⟩
      request.encode heap ++ heap.read request.size 8

/-- The bytes of the header when the server reads the call. -/
def headerSize : ClientCall → ℕ
  | attach => 2
  | lookup _ _ | getSecurity _ => 4

/-- The length the server reads there. -/
def declared : ClientCall → ℕ
  | attach => Client.attachRequest.size
  | lookup _ _ => LookupType.sdbGetGe.code.toNat
  | getSecurity securityName => GetByNameRequest.size ⟨securityName⟩

def type : ClientCall → MessageType
  | attach => .srvMsgAttach
  | lookup _ _ => .srvMsgNameLookup
  | getSecurity _ => .srvMsgGetByName

/-- What the server decodes. The type of a lookup is what the heap held. -/
def request (heap : Memory) : ClientCall → Request
  | attach => Client.attachRequest.request
  | lookup count namePrefix =>
      .nameLookup (leBits 16 (NameLookupRequest.stale heap)) count namePrefix.bytes
  | getSecurity securityName => .getByName securityName.bytes

end ClientCall

/-- The two reads of a response: its length, and as many bytes as that says are left. `none`
while they are not there; a length below the header's makes no array. -/
def Client.read (headerSize : ℕ) (inbox : Bytes) : Option (Bytes × Bytes) := do
  let (responseSize, inbox) ← readN headerSize inbox
  let size := (leBits (8 * headerSize) responseSize).toInt
  if size < headerSize then none else readN (size.toNat - headerSize) inbox

/-- The end of a call: the response, decoded, and what is left of the stream. `fresh` is the
memory of the response object. -/
def ClientCall.receive (fresh : ClientGetByNameResponse) (inbox : Bytes) :
    ClientCall → Option (Reply × Bytes)
  | attach => do
      let (data, inbox) ← Client.read 2 inbox
      let (response, _) ← AttachResponse.decode data
      return (.attach response, inbox)
  | lookup _ _ => do
      let (data, inbox) ← Client.read 4 inbox
      let (response, _) ← NameLookupResponse.decode data
      return (.lookup response, inbox)
  | getSecurity _ => do
      let (data, inbox) ← Client.read 4 inbox
      let (response, _) ← ClientGetByNameResponse.decode fresh data
      return (.getSecurity response, inbox)

/-! ## The session -/

/-- One call, and how its bytes reach the server: in reads, and a last read. -/
structure Exchange where
  call : ClientCall
  heap : Memory
  fresh : ClientGetByNameResponse
  reads : List Bytes
  last : Bytes
  sent : reads.flatten ++ last = call.sent heap

/-- The server's end of the connection, and what it has written and the client not read. -/
structure Session where
  server : Connection
  inbox : Bytes

namespace Session

def start : Session := ⟨.create, []⟩

/-- `answers n` is what the middleware encodes for the `n`-th request it decodes. -/
def exchange (answers : ℕ → Bytes) (s : Session) (e : Exchange) : Option (Session × Reply) := do
  let server ← Connection.run answers s.server (e.reads ++ [e.last])
  let served := s.server.decoded.length
  let written := (List.range' served (server.decoded.length - served)).flatMap answers
  let (reply, inbox) ← e.call.receive e.fresh (s.inbox ++ written)
  return (⟨server, inbox⟩, reply)

def run (answers : ℕ → Bytes) : Session → List Exchange → Option (Session × List Reply)
  | s, [] => some (s, [])
  | s, e :: es => do
      let (s, reply) ← exchange answers s e
      let (s, replies) ← run answers s es
      return (s, reply :: replies)

end Session

/-! ## What the server reads -/

/-- These bytes decode to this request once the server has them all, and their header has it
wait for `declared` of them. -/
structure Receivable (headerSize declared : ℕ) (bytes : Bytes) (t : MessageType)
    (request : Request) : Prop where
  header : ofLe (bytes.take headerSize) = declared
  four_le : 4 ≤ declared
  declared_le : declared ≤ bytes.length
  room : bytes.length ≤ BUFFER_SIZE
  decodes : DecodesTo headerSize bytes t request

theorem AttachRequest.length_encode (heap : Memory) (r : AttachRequest) :
    (r.encode heap).length = r.size + 2 := by
  have hkeep : ∀ {data bs : Bytes} {pos : ℕ}, data.length = r.size + 2 →
      pos + bs.length ≤ r.size + 2 → (overwrite data pos bs).length = r.size + 2 := by
    intro data bs pos hdata hbs
    simp only [overwrite, List.length_append, List.length_take, List.length_drop]
    omega
  have hsize : r.size = r.userName.bytes.length + r.appName.bytes.length + 12 := by
    rw [size]
    omega
  refine hkeep (hkeep (hkeep (hkeep (hkeep (hkeep ?_ ?_) ?_) ?_) ?_) ?_) ?_
  · exact Memory.length_read heap 0 _
  all_goals
    simp only [length_le, CName.length_cStr]
    omega

theorem GetByNameRequest.length_encode (heap : Memory) (r : GetByNameRequest) :
    (r.encode heap).length = r.size := by
  have hkeep : ∀ {data bs : Bytes} {pos : ℕ}, data.length = r.size →
      pos + bs.length ≤ r.size → (overwrite data pos bs).length = r.size := by
    intro data bs pos hdata hbs
    simp only [overwrite, List.length_append, List.length_take, List.length_drop]
    omega
  have hsize : r.size = r.securityName.bytes.length + 9 := by
    rw [size]
    omega
  refine hkeep (hkeep (hkeep ?_ ?_) ?_) ?_
  · exact Memory.length_read heap 0 _
  all_goals
    simp only [length_le, CName.length_cStr]
    omega

theorem DecodesTo.append {headerSize : ℕ} {encoded : Bytes} {t : MessageType} {r : Request}
    (h : DecodesTo headerSize encoded t r) (rest : Bytes) :
    DecodesTo headerSize (encoded ++ rest) t r := by
  intro more
  rw [List.append_assoc]
  exact h _

/-- The header of an encoded request is its size. -/
theorem header_of_starts {headerSize size : ℕ} {encoded rest : Bytes} (more : Bytes)
    (h : le headerSize size ++ rest <+: encoded) (hsize : size < 256 ^ headerSize) :
    ofLe ((encoded ++ more).take headerSize) = size := by
  obtain ⟨behind, rfl⟩ := h
  rw [List.append_assoc, List.append_assoc, List.take_left' (length_le headerSize size), ofLe_le,
    Nat.mod_eq_of_lt hsize]

/-- Over the length of a lookup lies its type, and nothing above it. -/
theorem header_of_lookup (heap : Memory) (r : NameLookupRequest) (more : Bytes) :
    ofLe ((r.encode heap ++ more).take 4) = r.type.code.toNat := by
  have hsize := r.size_lt
  have hcode := r.type.code.isLt
  have hlen : (le 2 r.type.code.toNat ++ (le 4 r.size).drop 2).length = 4 := by
    simp only [List.length_append, List.length_drop, length_le]
  have htake : (r.encode heap ++ more).take 4 =
      le 2 r.type.code.toNat ++ (le 4 r.size).drop 2 := by
    rw [NameLookupRequest.encode_eq, ← List.append_assoc, List.append_assoc]
    exact List.take_left' hlen
  rw [htake, ofLe_append, drop_le, ofLe_le, ofLe_le, length_le]
  omega

theorem ClientCall.receivable (heap : Memory) (call : ClientCall) :
    Receivable call.headerSize call.declared (call.sent heap) call.type (call.request heap) := by
  have hbuf : BUFFER_SIZE = 32768 := rfl
  cases call with
  | attach =>
      have hlen := Client.attachRequest.length_encode heap
      have hsize : Client.attachRequest.size = 22 := rfl
      refine ⟨header_of_starts _ (Client.attachRequest.encode_starts heap) (by decide), ?_, ?_, ?_,
        (DecodesTo.of_starts (Client.attachRequest.encode_starts heap)
          Client.attachRequest.decode_payload).append _⟩
      all_goals
        simp only [declared, sent, List.length_append, hlen, Memory.length_read, hsize]
        omega
  | lookup count namePrefix =>
      have hlen := (Client.lookupRequest count namePrefix).length_encode heap
      have hsize := (Client.lookupRequest count namePrefix).size_lt
      have hname : namePrefix.bytes.length < 32 := namePrefix.lt
      have heq : (Client.lookupRequest count namePrefix).size = namePrefix.bytes.length + 13 := by
        simp only [NameLookupRequest.size, Client.lookupRequest]
        omega
      have hseven : LookupType.sdbGetGe.code.toNat = 7 := rfl
      refine ⟨header_of_lookup heap (Client.lookupRequest count namePrefix) _, ?_, ?_, ?_, ?_⟩
      · simp only [declared, hseven]
        omega
      · simp only [declared, sent, List.length_append, hlen, Memory.length_read, hseven]
        omega
      · simp only [sent, List.length_append, hlen, Memory.length_read]
        omega
      · refine DecodesTo.append ?_ _
        exact (Client.lookupRequest count namePrefix).decode_encode heap
  | getSecurity securityName =>
      let request : GetByNameRequest := ⟨securityName⟩
      have hlen := request.length_encode heap
      have hname : securityName.bytes.length < 32 := securityName.lt
      have hsize : request.size = securityName.bytes.length + 9 := by
        show 4 + 4 + securityName.bytes.length + 1 = _
        omega
      have hlt : request.size < 256 ^ 4 := by omega
      refine ⟨header_of_starts _ (request.encode_starts heap) hlt, ?_, ?_, ?_,
        (DecodesTo.of_starts (request.encode_starts heap) request.decode_cStr).append _⟩
      · show 4 ≤ request.size
        omega
      · show request.size ≤ (request.encode heap ++ _).length
        rw [List.length_append, hlen]
        omega
      · show (request.encode heap ++ _).length ≤ BUFFER_SIZE
        rw [List.length_append, hlen, Memory.length_read]
        omega

namespace Connection

variable {c : Connection} {headerSize declared : ℕ} {pending chunk bytes : Bytes}
  {t : MessageType} {request : Request}

theorem Awaits.received_declared (h : Awaits c headerSize pending)
    (hr : Receivable headerSize declared bytes t request) (hpre : pending ++ chunk <+: bytes)
    (hheader : headerSize ≤ (pending ++ chunk).length) :
    (c.received chunk).msgSize = declared := by
  obtain ⟨more, rfl⟩ := hpre
  have hlow : (c.received chunk).buf.take headerSize =
      ((pending ++ chunk) ++ more).take headerSize := by
    have hcut : ((c.received chunk).buf.take (pending ++ chunk).length).take headerSize =
        (pending ++ chunk).take headerSize := congrArg (List.take headerSize) h.received_buf
    rw [List.take_take, Nat.min_eq_left hheader] at hcut
    rw [hcut]
    exact (List.take_append_of_le_length hheader).symm
  have hthere : c.headerSize ≤ c.index + chunk.length := by
    rw [h.header, h.index, ← List.length_append]
    exact hheader
  have hmsg : (c.received chunk).msgSize =
      ofLe ((c.received chunk).buf.take c.headerSize ++ (le 8 c.msgSize).drop c.headerSize) :=
    if_pos hthere
  have hlen : (((pending ++ chunk) ++ more).take headerSize).length = headerSize := by
    rw [List.length_take, List.length_append]
    omega
  have hdrop : (le 8 c.msgSize).drop headerSize =
      (le 8 c.msgSize).drop (((pending ++ chunk) ++ more).take headerSize).length := by rw [hlen]
  rw [hmsg, h.header, hlow, hdrop, ofLe_low (by rw [hlen]; exact h.msgSize_lt), hr.header]

/-- A read that leaves the declared length open is kept. -/
theorem Awaits.read_part (h : Awaits c headerSize pending)
    (hr : Receivable headerSize declared bytes t request)
    (hpre : pending ++ chunk <+: bytes) (hlt : (pending ++ chunk).length < declared)
    (hstale : headerSize ≤ c.msgSize ∨ headerSize ≤ (pending ++ chunk).length)
    (written : ℕ → Bytes) :
    c.read written chunk = some (c.received chunk) ∧
      Awaits (c.received chunk) headerSize (pending ++ chunk) ∧
      headerSize ≤ (c.received chunk).msgSize := by
  have hindex : (c.received chunk).index = (pending ++ chunk).length := by
    show c.index + chunk.length = _
    rw [h.index, List.length_append]
  have hroom : c.index + chunk.length ≤ BUFFER_SIZE := by
    have hle := hpre.length_le
    rw [← hindex] at hle
    exact Nat.le_trans hle hr.room
  have hdeclared : declared < 256 ^ headerSize := by
    have hlt := ofLe_lt (bytes.take headerSize)
    rw [hr.header] at hlt
    exact Nat.lt_of_lt_of_le hlt (Nat.pow_le_pow_right (by decide) (List.length_take_le _ _))
  have hmsg : (c.received chunk).index < (c.received chunk).msgSize ∧
      headerSize ≤ (c.received chunk).msgSize ∧
      (c.received chunk).msgSize < 256 ^ headerSize := by
    have hfour := hr.four_le
    by_cases hheader : headerSize ≤ (pending ++ chunk).length
    · rw [h.received_declared hr hpre hheader, hindex]
      exact ⟨hlt, by omega, hdeclared⟩
    · have hold : (c.received chunk).msgSize = c.msgSize := by
        apply if_neg
        show ¬ c.headerSize ≤ (c.received chunk).index
        rw [h.header, hindex]
        exact hheader
      have hle := hstale.resolve_right hheader
      rw [hold, hindex]
      exact ⟨by omega, hle, h.msgSize_lt⟩
  refine ⟨?_, ⟨h.isOpen, h.header, hindex, ?_, hmsg.2.2⟩, hmsg.2.1⟩
  · rw [read_open h.isOpen hroom, if_pos hmsg.1]
  · rw [hindex, h.received_buf]

/-- The read that brings the rest has the request decoded, whatever it declared. -/
theorem Awaits.read_rest (h : Awaits c headerSize pending)
    (hr : Receivable headerSize declared bytes t request) (h4 : headerSize ≤ 4)
    (hbytes : pending ++ chunk = bytes) (hnext : headerSize = 4 ∨ t = .srvMsgAttach)
    (written : ℕ → Bytes) :
    ∃ c' frame, c.read written chunk = some c' ∧ Awaits c' 4 [] ∧ 4 ≤ c'.msgSize ∧
      c'.decoded = c.decoded ++ [⟨frame, request⟩] := by
  have hpre : pending ++ chunk <+: bytes := ⟨[], by rw [List.append_nil, hbytes]⟩
  have hindex : (c.received chunk).index = bytes.length := by
    show c.index + chunk.length = _
    rw [h.index, ← List.length_append, hbytes]
  have hroom : c.index + chunk.length ≤ BUFFER_SIZE := by
    rw [show c.index + chunk.length = bytes.length from hindex]
    exact hr.room
  have hfour := hr.four_le
  have hle := hr.declared_le
  have hmsg : (c.received chunk).msgSize = declared :=
    h.received_declared hr hpre (by rw [hbytes]; omega)
  obtain ⟨behind, hbuf⟩ : ∃ behind, (c.received chunk).buf = bytes ++ behind := by
    have htake : (c.received chunk).buf.take (pending ++ chunk).length = pending ++ chunk :=
      h.received_buf
    rw [hbytes] at htake
    exact ⟨_, by rw [← htake, List.take_append_drop]⟩
  have hheader : (c.received chunk).headerSize = headerSize := h.header
  have hdecode : MsgProcessor.decode ((c.received chunk).buf.drop
      (c.received chunk).headerSize) = some (t, request) := by
    rw [hheader, hbuf]
    exact hr.decodes behind
  have hafter : (if t = .srvMsgAttach then 4 else headerSize) = 4 := by
    rcases hnext with rfl | rfl
    · exact ite_self 4
    · exact if_pos rfl
  have hdeclared : declared < 256 ^ 4 := by
    have hlt := ofLe_lt (bytes.take headerSize)
    rw [hr.header] at hlt
    refine Nat.lt_of_lt_of_le hlt (Nat.pow_le_pow_right (by decide) ?_)
    exact Nat.le_trans (List.length_take_le _ _) h4
  refine ⟨dispatch written (c.received chunk), (c.received chunk).buf.take declared, ?_, ?_⟩
  · rw [read_open h.isOpen hroom, if_neg (by omega)]
  · rw [dispatch_eq, hdecode, hmsg, hheader]
    simp only [hafter]
    exact ⟨⟨h.isOpen, rfl, rfl, List.take_zero, hdeclared⟩, hfour, rfl⟩

/-- **A request in any reads**, of which only the last ends at the declared length or beyond,
is decoded once. -/
theorem Awaits.run_reads {reads : List Bytes} (h : Awaits c headerSize pending)
    (hr : Receivable headerSize declared bytes t request) (h4 : headerSize ≤ 4)
    (hbytes : pending ++ (reads.flatten ++ chunk) = bytes)
    (hlt : (pending ++ reads.flatten).length < declared)
    (hstale : headerSize ≤ c.msgSize ∨
      ∀ first ∈ reads.head?, headerSize ≤ (pending ++ first).length)
    (hnext : headerSize = 4 ∨ t = .srvMsgAttach) (written : ℕ → Bytes) :
    ∃ c' frame, Connection.run written c (reads ++ [chunk]) = some c' ∧ Awaits c' 4 [] ∧
      4 ≤ c'.msgSize ∧ c'.decoded = c.decoded ++ [⟨frame, request⟩] := by
  induction reads generalizing c pending with
  | nil =>
      rw [List.flatten_nil, List.nil_append] at hbytes
      obtain ⟨c', frame, hread, hafter⟩ := h.read_rest hr h4 hbytes hnext written
      refine ⟨c', frame, ?_, hafter⟩
      rw [List.nil_append, Connection.run, hread]
      rfl
  | cons first reads ih =>
      rw [List.flatten_cons] at hbytes hlt
      have hpre : pending ++ first <+: bytes :=
        ⟨reads.flatten ++ chunk, by rw [← hbytes]; simp only [List.append_assoc]⟩
      have hfirst : (pending ++ first).length < declared := by
        simp only [List.length_append] at hlt ⊢
        omega
      obtain ⟨hread, hawaits, hmsg⟩ := h.read_part hr hpre hfirst
        (hstale.imp_right fun hall => hall first rfl) written
      obtain ⟨c', frame, hrun, hafter⟩ := ih hawaits
        (by rw [← hbytes]; simp only [List.append_assoc])
        (by rw [List.append_assoc]; exact hlt) (.inl hmsg)
      refine ⟨c', frame, ?_, hafter⟩
      rw [List.cons_append, Connection.run, hread]
      exact hrun

end Connection

/-! ## What the client reads -/

/-- What is behind one answer of the middleware: the database, and the memory of the row. The
client's window takes every name. -/
structure Backend where
  col : Collation
  table : StoredTable
  data : ℕ
  memory : Memory
  name_lt : ∀ r ∈ table.rows, (encode r.name).length < SEC_NAME_SIZE
  name_nul : ∀ r ∈ table.rows, 0 ∉ encode r.name

/-- The middleware may encode this for the request, and it fits the connection's buffer. -/
def Backend.Sends (b : Backend) (request : Request) (response : Bytes) : Prop :=
  Encodes b.col b.data b.memory b.table request response ∧ response.length ≤ BUFFER_SIZE

/-- The reply is the answer to the call: the names of a lookup, or the row under the name. -/
def Backend.Replies (b : Backend) : ClientCall → Reply → Prop
  | .attach, .attach response => response = SrvAttach.response
  | .lookup count namePrefix, .lookup response =>
      ∃ text names, encode text = namePrefix.bytes ∧
        Answers b.col b.table.rows (Repository.lookupAsync text count) names ∧
        response.count.toInt = names.length ∧ response.securityNames = names.map encode
  | .getSecurity securityName, .getSecurity response =>
      ∃ text, encode text = securityName.bytes ∧
        match lookup ObjectRow.nameLower b.table.rows text with
        | some row => response.status = 1 ∧
            Recovers b.memory (Repository.toSecurity b.data row) response.sec
        | none => response.status = 0
  | .attach, .lookup _ | .attach, .getSecurity _ | .lookup .., .attach _
  | .lookup .., .getSecurity _ | .getSecurity _, .attach _ | .getSecurity _, .lookup _ => False

theorem Delivers.read {ρ : Type} {headerSize : ℕ} {encoded : Bytes}
    {decode : Bytes → Option (ρ × Bytes)} {described : ρ → Prop}
    (h : Delivers headerSize encoded decode described) (hheader : headerSize ≤ encoded.length)
    (hlt : 2 * encoded.length < 2 ^ (8 * headerSize)) :
    Client.read headerSize encoded = some (encoded.drop headerSize, []) := by
  have hlen : (encoded.take headerSize).length = headerSize := by
    rw [List.length_take, Nat.min_eq_left hheader]
  have hsplit := readN_append hlen (encoded.drop headerSize)
  rw [List.take_append_drop] at hsplit
  have hint : (leBits (8 * headerSize) (encoded.take headerSize)).toInt = encoded.length := by
    rw [leBits, h.1]
    exact toInt_ofNat_of_lt hlt
  have hrest : (encoded.drop headerSize).length = encoded.length - headerSize := List.length_drop
  simp only [Client.read, hsplit, Option.bind_eq_bind, Option.bind_some, hint]
  rw [if_neg (by omega), Int.toNat_natCast]
  exact readN_all hrest

/-- A row's name as the client reads it. -/
def Backend.clientName (b : Backend) (row : ObjectRow) (hrow : row ∈ b.table.rows) :
    CName SEC_NAME_SIZE where
  bytes := encode row.name
  lt := b.name_lt row hrow
  nul := b.name_nul row hrow

def Backend.nameList (b : Backend) (rows : List ObjectRow) (hrows : ∀ r ∈ rows, r ∈ b.table.rows)
    (hlen : rows.length ≤ 32767) : NameList where
  names := rows.pmap b.clientName hrows
  length_le := by rwa [List.length_pmap]

theorem Backend.nameList_bytes (b : Backend) {rows : List ObjectRow}
    (hrows : ∀ r ∈ rows, r ∈ b.table.rows) (hlen : rows.length ≤ 32767) :
    (b.nameList rows hrows hlen).bytes = (rows.map ObjectRow.name).map encode := by
  rw [NameList.bytes, nameList, List.map_pmap]
  change rows.pmap (fun row _ => encode row.name) hrows = _
  rw [List.pmap_eq_map, List.map_map]
  rfl

/-- A row's `Security`, where the client can read it. -/
def Backend.sentSecurity (b : Backend) (row : ObjectRow) (hrow : row ∈ b.table.rows) :
    SentSecurity where
  sec := Repository.toSecurity b.data row
  name_lt := b.name_lt row hrow
  name_nul := b.name_nul row hrow
  size_lt := by
    have hname : (encode row.name).length < 32 := b.name_lt row hrow
    have hmem := b.table.mem_lt row hrow
    rw [toNat_toSecurity_blobSize hrow]
    show 31 + (encode row.name).length + row.mem.length < 2 ^ 31
    omega

theorem receive_lookup (b : Backend) (fresh : ClientGetByNameResponse) {count : BitVec 16}
    {namePrefix : CName SEC_NAME_SIZE} {text : String} {names : List String}
    (htext : encode text = namePrefix.bytes)
    (hanswers : Answers b.col b.table.rows (Repository.lookupAsync text count) names)
    (hfits : (SRVMsgNameLookup.encode (.of (names.map encode))).length ≤ BUFFER_SIZE) :
    ∃ reply, (ClientCall.lookup count namePrefix).receive fresh
        (SRVMsgNameLookup.encode (.of (names.map encode))) = some (reply, []) ∧
      b.Replies (.lookup count namePrefix) reply := by
  obtain ⟨-, found, hperm, hnames⟩ := answers_lookupAsync_iff.mp hanswers
  have hrows : ∀ r ∈ found.take count.toInt.toNat, r ∈ b.table.rows := by
    intro r hr
    exact (List.mem_filter.mp (hperm.mem_iff.mp (List.mem_of_mem_take hr))).1
  have hlen : (found.take count.toInt.toNat).length ≤ 32767 := by
    have hcount := BitVec.toInt_lt (x := count)
    rw [List.length_take]
    omega
  have hbytes := b.nameList_bytes hrows hlen
  rw [← hnames] at hbytes
  have hdelivers := nameLookup_delivered (b.nameList _ hrows hlen)
  rw [hbytes] at hdelivers
  have hbuf : BUFFER_SIZE = 32768 := rfl
  have hheader : 4 ≤ (SRVMsgNameLookup.encode (.of (names.map encode))).length := by
    rw [SRVMsgNameLookup.length_encode, NameLookupResponse.size]
    omega
  have hread := hdelivers.read hheader (by omega)
  obtain ⟨-, response, hdecode, hcount, hresponse⟩ := hdelivers
  refine ⟨.lookup response, ?_, text, names, htext, hanswers, ?_, hresponse⟩
  · simp only [ClientCall.receive, hread, hdecode, Option.bind_eq_bind, Option.bind_some]
    rfl
  · rw [hcount, ← NameList.length_bytes, hbytes, List.length_map]

theorem Delivers.receive_getSecurity {fresh : ClientGetByNameResponse} {encoded : Bytes}
    {described : ClientGetByNameResponse → Prop} (securityName : CName SEC_NAME_SIZE)
    (h : Delivers 4 encoded (ClientGetByNameResponse.decode fresh) described)
    (hheader : 4 ≤ encoded.length) (hfits : encoded.length ≤ BUFFER_SIZE) :
    ∃ response, (ClientCall.getSecurity securityName).receive fresh encoded =
        some (.getSecurity response, []) ∧ described response := by
  have hbuf : BUFFER_SIZE = 32768 := rfl
  have hread := h.read hheader (by omega)
  obtain ⟨-, response, hdecode, hdescribed⟩ := h
  refine ⟨response, ?_, hdescribed⟩
  simp only [ClientCall.receive, hread, hdecode, Option.bind_eq_bind, Option.bind_some]
  rfl

theorem receive_getSecurity (b : Backend) (fresh : ClientGetByNameResponse)
    {securityName : CName SEC_NAME_SIZE} {text : String} (htext : encode text = securityName.bytes)
    (hfits : (SrvMsgGetByName.encode b.memory (.of ((lookup ObjectRow.nameLower b.table.rows
      text).map (Repository.toSecurity b.data)))).length ≤ BUFFER_SIZE) :
    ∃ reply, (ClientCall.getSecurity securityName).receive fresh
        (SrvMsgGetByName.encode b.memory (.of ((lookup ObjectRow.nameLower b.table.rows
          text).map (Repository.toSecurity b.data)))) = some (reply, []) ∧
      b.Replies (.getSecurity securityName) reply := by
  cases hrow : lookup ObjectRow.nameLower b.table.rows text with
  | none =>
      rw [hrow, Option.map_none] at hfits
      have hdelivers : Delivers 4 (SrvMsgGetByName.encode b.memory (.of none))
          (ClientGetByNameResponse.decode fresh)
          fun response => response.status = 0 ∧ response.errorType = 0 :=
        notFound_delivered b.memory fresh 0
      obtain ⟨response, hreceive, hstatus, -⟩ := hdelivers.receive_getSecurity securityName
        (by rw [length_notFound]; decide) hfits
      exact ⟨.getSecurity response, hreceive, text, htext, by rw [hrow]; exact hstatus⟩
  | some row =>
      rw [hrow, Option.map_some] at hfits
      have hmem := ((lookup_eq_some b.table.objectLowerName).mp hrow).1
      have hdelivers : Delivers 4
          (SrvMsgGetByName.encode b.memory (.of (some (Repository.toSecurity b.data row))))
          (ClientGetByNameResponse.decode fresh)
          fun response => response.status = 1 ∧
            Recovers b.memory (Repository.toSecurity b.data row) response.sec :=
        security_delivered b.memory fresh (b.sentSecurity row hmem)
      obtain ⟨response, hreceive, hfound⟩ := hdelivers.receive_getSecurity securityName
        (by rw [length_encode_security]; omega) hfits
      exact ⟨.getSecurity response, hreceive, text, htext, by rw [hrow]; exact hfound⟩

/-- **Each call ends with its own answer**: what the middleware may send for the request it
decoded, the client takes for the answer to its call, to the last byte. -/
theorem receive_of_sends {b : Backend} {call : ClientCall} {heap : Memory} {response : Bytes}
    (h : b.Sends (call.request heap) response) (fresh : ClientGetByNameResponse) :
    ∃ reply, call.receive fresh response = some (reply, []) ∧ b.Replies call reply := by
  obtain ⟨hencodes, hfits⟩ := h
  cases call with
  | attach =>
      cases hencodes
      have hread := (attach_delivered SrvAttach.response).read (by decide) (by decide)
      obtain ⟨-, r, hdecode, hr⟩ := attach_delivered SrvAttach.response
      refine ⟨.attach r, ?_, hr⟩
      simp only [ClientCall.receive, hread, hdecode, Option.bind_eq_bind, Option.bind_some]
      rfl
  | lookup count namePrefix =>
      generalize hrequest : (ClientCall.lookup count namePrefix).request heap = request at hencodes
      cases hencodes with
      | attach => cases hrequest
      | getByName => cases hrequest
      | nameLookup type count' text hanswers =>
          injection hrequest with _ hcount htext
          subst hcount
          exact receive_lookup b fresh htext.symm hanswers hfits
  | getSecurity securityName =>
      generalize hrequest : (ClientCall.getSecurity securityName).request heap = request at hencodes
      cases hencodes with
      | attach => cases hrequest
      | nameLookup => cases hrequest
      | getByName text =>
          injection hrequest with htext
          exact receive_getSecurity b fresh htext.symm hfits

/-! ## Whole sessions -/

/-- Only the last read of the request ends at the declared length or beyond; the first of
an attach holds its header. -/
structure Exchange.InTime (e : Exchange) : Prop where
  lt_declared : e.reads.flatten.length < e.call.declared
  header : e.call = .attach → ∀ first ∈ e.reads.head?, 2 ≤ first.length

/-- `client.attach()`, and the calls after it. -/
structure ClientSession where
  attach : Exchange
  isAttach : attach.call = .attach
  calls : List Exchange
  isCall : ∀ e ∈ calls, e.call ≠ .attach

def ClientSession.exchanges (cs : ClientSession) : List Exchange := cs.attach :: cs.calls

namespace Session

theorem exchange_replies {answers : ℕ → Bytes} {s : Session} {e : Exchange} {b : Backend}
    (hawaits : s.server.Awaits e.call.headerSize []) (hinbox : s.inbox = [])
    (hheader : e.call = .attach ∨ 4 ≤ s.server.msgSize) (hin : e.InTime)
    (hsends : b.Sends (e.call.request e.heap) (answers s.server.decoded.length)) :
    ∃ s' reply frame, s.exchange answers e = some (s', reply) ∧ b.Replies e.call reply ∧
      s'.server.Awaits 4 [] ∧ 4 ≤ s'.server.msgSize ∧ s'.inbox = [] ∧
      s'.server.decoded = s.server.decoded ++ [⟨frame, e.call.request e.heap⟩] := by
  have hsize : e.call.headerSize ≤ 4 ∧ (e.call.headerSize = 4 ∨ e.call.type = .srvMsgAttach) := by
    cases e.call with
    | attach => exact ⟨by decide, .inr rfl⟩
    | lookup | getSecurity => exact ⟨Nat.le_refl 4, .inl rfl⟩
  have hstale : e.call.headerSize ≤ s.server.msgSize ∨
      ∀ first ∈ e.reads.head?, e.call.headerSize ≤ ([] ++ first : Bytes).length := by
    rcases hheader with hattach | hfour
    · refine .inr fun first hfirst => ?_
      rw [hattach]
      exact hin.header hattach first hfirst
    · exact .inl (Nat.le_trans hsize.1 hfour)
  obtain ⟨server, frame, hrun, hafter, hmsg, hdecoded⟩ := hawaits.run_reads
    (e.call.receivable e.heap) hsize.1 e.sent hin.lt_declared hstale hsize.2 answers
  obtain ⟨reply, hreceive, hreplies⟩ := receive_of_sends hsends e.fresh
  refine ⟨⟨server, []⟩, reply, frame, ?_, hreplies, hafter, hmsg, rfl, hdecoded⟩
  have hone : server.decoded.length - s.server.decoded.length = 1 := by
    rw [hdecoded, List.length_append, List.length_singleton, Nat.add_sub_cancel_left]
  have hwritten : s.inbox ++ (List.range' s.server.decoded.length 1).flatMap answers =
      answers s.server.decoded.length := by
    rw [hinbox, List.range'_one, List.flatMap_singleton, List.nil_append]
  simp only [exchange, hrun, hone, hwritten, hreceive, Option.bind_eq_bind, Option.bind_some]
  rfl

theorem run_replies {answers : ℕ → Bytes} {backend : ℕ → Backend} {es : List Exchange}
    {s : Session} (hawaits : s.server.Awaits 4 []) (hmsg : 4 ≤ s.server.msgSize)
    (hinbox : s.inbox = []) (hcalls : ∀ e ∈ es, e.call ≠ .attach ∧ e.InTime)
    (hsends : ∀ n e, es[n]? = some e → (backend (s.server.decoded.length + n)).Sends
      (e.call.request e.heap) (answers (s.server.decoded.length + n))) :
    ∃ s' replies, s.run answers es = some (s', replies) ∧ s'.inbox = [] ∧
      s'.server.decoded.map Decoded.request = s.server.decoded.map Decoded.request ++
        es.map (fun e => e.call.request e.heap) ∧
      replies.length = es.length ∧
      ∀ n e reply, es[n]? = some e → replies[n]? = some reply →
        (backend (s.server.decoded.length + n)).Replies e.call reply := by
  induction es generalizing s with
  | nil =>
      refine ⟨s, [], rfl, hinbox, (List.append_nil _).symm, rfl, ?_⟩
      intro n e reply he
      cases he
  | cons e es ih =>
      obtain ⟨hcall, hin⟩ := hcalls e List.mem_cons_self
      have hsize : e.call.headerSize = 4 := by
        cases hkind : e.call with
        | attach => exact absurd hkind hcall
        | lookup | getSecurity => rfl
      obtain ⟨s₁, reply, frame, hexchange, hreply, hawaits₁, hmsg₁, hinbox₁, hdecoded₁⟩ :=
        exchange_replies (hsize ▸ hawaits) hinbox (.inr hmsg) hin (hsends 0 e rfl)
      have hlen : s₁.server.decoded.length = s.server.decoded.length + 1 := by
        rw [hdecoded₁, List.length_append, List.length_singleton]
      obtain ⟨s', replies, hrun, hinbox', hdecoded', hlength, hreplies⟩ := ih hawaits₁ hmsg₁ hinbox₁
        (fun e' he' => hcalls e' (List.mem_cons_of_mem _ he')) (by
          intro n e' he'
          rw [hlen, Nat.add_assoc, Nat.add_comm 1 n]
          exact hsends (n + 1) e' he')
      refine ⟨s', reply :: replies, ?_, hinbox', ?_, by rw [List.length_cons, hlength]; rfl, ?_⟩
      · simp only [run, hexchange, hrun, Option.bind_eq_bind, Option.bind_some]
        rfl
      · rw [hdecoded', hdecoded₁, List.map_append, List.append_assoc]
        rfl
      · intro n e' reply' he' hreply'
        cases n with
        | zero =>
            cases he'
            cases hreply'
            exact hreply
        | succ n =>
            have hrest := hreplies n e' reply' he' hreply'
            rwa [hlen, Nat.add_assoc, Nat.add_comm 1 n] at hrest

end Session

/-- **A session is answered call by call**: every request is decoded once and in order, each
call returns the answer to its own request, and no byte of a response is left over, whatever
the heaps of the client hold and however the reads of the server cut the requests, as long
as none but the last read of a request ends at its declared length or beyond. -/
theorem session_replies (cs : ClientSession) (answers : ℕ → Bytes) (backend : ℕ → Backend)
    (hin : ∀ e ∈ cs.exchanges, e.InTime)
    (hsends : ∀ n e, cs.exchanges[n]? = some e →
      (backend n).Sends (e.call.request e.heap) (answers n)) :
    ∃ s replies, Session.start.run answers cs.exchanges = some (s, replies) ∧ s.inbox = [] ∧
      s.server.decoded.map Decoded.request =
        cs.exchanges.map (fun e => e.call.request e.heap) ∧
      replies.length = cs.exchanges.length ∧
      ∀ n e reply, cs.exchanges[n]? = some e → replies[n]? = some reply →
        (backend n).Replies e.call reply := by
  have hattach : cs.attach.call.headerSize = 2 := by rw [cs.isAttach]; rfl
  obtain ⟨s₁, reply, frame, hexchange, hreply, hawaits₁, hmsg₁, hinbox₁, hdecoded₁⟩ :=
    Session.exchange_replies (s := Session.start) (hattach ▸ Connection.awaits_create) rfl
      (.inl cs.isAttach) (hin cs.attach List.mem_cons_self) (hsends 0 cs.attach rfl)
  have hlen : s₁.server.decoded.length = 1 := by
    rw [hdecoded₁]
    rfl
  obtain ⟨s', replies, hrun, hinbox', hdecoded', hlength, hreplies⟩ :=
    Session.run_replies hawaits₁ hmsg₁ hinbox₁
      (fun e he => ⟨cs.isCall e he, hin e (List.mem_cons_of_mem _ he)⟩) (by
        intro n e he
        rw [hlen, Nat.add_comm]
        exact hsends (n + 1) e he)
  refine ⟨s', reply :: replies, ?_, hinbox', ?_, by rw [List.length_cons, hlength]; rfl, ?_⟩
  · simp only [ClientSession.exchanges, Session.run, hexchange, hrun, Option.bind_eq_bind,
      Option.bind_some]
    rfl
  · rw [hdecoded', hdecoded₁]
    rfl
  · intro n e reply' he hreply'
    cases n with
    | zero =>
        cases he
        cases hreply'
        exact hreply
    | succ n =>
        have hrest := hreplies n e reply' he hreply'
        rwa [hlen, Nat.add_comm] at hrest

/-! ## A session of three calls -/

/-- The bytes of a call, the first few of them in a read of their own. -/
def Exchange.cutAt (call : ClientCall) (n : ℕ) : Exchange where
  call := call
  heap := fun _ => 0
  fresh := ⟨0, 0, ⟨[], 0, 0, 0, 0, 0, 0, 0, 0, []⟩⟩
  reads := [(call.sent fun _ => 0).take n]
  last := (call.sent fun _ => 0).drop n
  sent := by rw [List.flatten_singleton, List.take_append_drop]

def threeCalls : ClientSession where
  attach := .cutAt .attach 5
  isAttach := rfl
  calls := [.cutAt (.lookup 1 ⟨encode "b", by decide, by decide⟩) 3,
    .cutAt (.getSecurity ⟨encode "a", by decide, by decide⟩) 9]
  isCall := by
    intro e he
    rcases List.mem_cons.mp he with rfl | he
    · exact ClientCall.noConfusion
    · rw [List.mem_singleton.mp he]
      exact ClientCall.noConfusion

def smallBackend : Backend where
  col := .codePoints
  table := smallTable
  data := 0
  memory := fun _ => 0
  name_lt := by
    intro r hr
    rw [List.mem_singleton.mp hr]
    decide
  name_nul := by
    intro r hr
    rw [List.mem_singleton.mp hr]
    decide

def threeAnswers : ℕ → Bytes
  | 0 => SrvAttach.encode SrvAttach.response
  | 1 => SRVMsgNameLookup.encode (.of (["A"].map encode))
  | _ => SrvMsgGetByName.encode (fun _ => 0) (.of ((lookup ObjectRow.nameLower smallTable.rows
      "a").map (Repository.toSecurity 0)))

theorem threeCalls_replies :
    ∃ s replies, Session.start.run threeAnswers threeCalls.exchanges = some (s, replies) ∧
      s.inbox = [] ∧
      s.server.decoded.map Decoded.request =
        threeCalls.exchanges.map (fun e => e.call.request e.heap) ∧
      replies.length = threeCalls.exchanges.length ∧
      ∀ (n : ℕ) (e : Exchange) (reply : Reply), threeCalls.exchanges[n]? = some e →
        replies[n]? = some reply → smallBackend.Replies e.call reply := by
  refine session_replies threeCalls threeAnswers (fun _ => smallBackend) ?_ ?_
  · intro e he
    rcases List.mem_cons.mp he with rfl | he
    · refine ⟨by decide, fun _ first hfirst => ?_⟩
      cases hfirst
      decide
    · rcases List.mem_cons.mp he with rfl | he
      · exact ⟨by decide, fun hattach => by cases hattach⟩
      · rw [List.mem_singleton.mp he]
        exact ⟨by decide, fun hattach => by cases hattach⟩
  · have hanswers : Answers .codePoints smallTable.rows (Repository.lookupAsync "b" 1) ["A"] :=
      answers_lookupAsync_iff.mpr ⟨by decide, smallTable.rows, by decide, rfl⟩
    rintro (_ | _ | _ | n) e he
    · cases he
      exact ⟨.attach _ _ _ _, by decide⟩
    · cases he
      exact ⟨.nameLookup _ _ "b" hanswers, by decide⟩
    · cases he
      exact ⟨.getByName "a", by decide⟩
    · cases he

end AuroraSizing.Wire
