import AuroraSizing.Foundation.Segments
import AuroraSizing.Wire.Messages

/-!
# Reading a connection

`Connection.read` is the completion handler of one `async_read_some`. It keeps
`index`, the bytes in the buffer so far, and `msgSize`, which is read from the
header once that is there and otherwise still the size of the message before.
When the message is complete `index` goes back to 0, whatever the buffer holds
beyond it, and the message decodes in place.
-/

namespace AuroraSizing.Wire

open Foundation.Bytes Foundation.Segments

def BUFFER_SIZE : ℕ := 32768

/-- What one call of `MsgProcessor::decode` saw: the first `msg_size` bytes of the
buffer and the request read there. -/
structure Decoded where
  frame : Bytes
  request : Request
deriving DecidableEq, Repr

structure Connection where
  index : ℕ
  msgSize : ℕ
  headerSize : ℕ
  buf : Bytes
  /-- The socket is closed, or `decode` ran past its window: nothing is read any more. -/
  closed : Bool
  /-- The requests handed to `process` so far. -/
  decoded : List Decoded

/-- `Connection::Connection` -/
def Connection.create : Connection where
  index := 0
  msgSize := 0
  headerSize := 2
  buf := List.replicate BUFFER_SIZE 0
  closed := false
  decoded := []

namespace Connection

/-- The complete message, from `index = 0` on. `written` is what `Connection::write`
then encodes over the buffer, before it reads again. -/
def dispatch (written : ℕ → Bytes) (c : Connection) : Connection :=
  let data := c.buf.drop c.headerSize
  match MessageType.ofCode (ofLe (data.take 2)) with
  | none => { c with index := 0, closed := true }
  | some type =>
      match type.decode (data.drop 2) with
      | none => { c with index := 0, closed := true }
      | some request =>
          { c with
            index := 0
            headerSize := if type = .srvMsgAttach then 4 else c.headerSize
            buf := overwrite c.buf 0 (written c.decoded.length)
            decoded := c.decoded ++ [⟨c.buf.take c.msgSize, request⟩] }

/-- The chunk in the buffer, and the size of the message once its header is there:
`memcpy(&msg_size, buf, header_size)` leaves the other bytes of the `size_t` alone. -/
def received (c : Connection) (chunk : Bytes) : Connection :=
  let buf := overwrite c.buf c.index chunk
  let index := c.index + chunk.length
  { c with
    buf := buf
    index := index
    msgSize :=
      if c.headerSize ≤ index then
        ofLe (buf.take c.headerSize ++ (le 8 c.msgSize).drop c.headerSize)
      else c.msgSize }

/-- One chunk handed over by `async_read_some`; `none` for more bytes than it
asked for. -/
def read (written : ℕ → Bytes) (c : Connection) (chunk : Bytes) : Option Connection :=
  if c.closed then some c
  else if BUFFER_SIZE - c.index < chunk.length then none
  else
    let c := c.received chunk
    if c.index < c.msgSize then some c else some (dispatch written c)

def run (written : ℕ → Bytes) : Connection → List Bytes → Option Connection
  | c, [] => some c
  | c, chunk :: chunks => (c.read written chunk).bind fun c => run written c chunks

/-- What one chunk can do: nothing on a closed connection, extend the message, or
complete it. -/
theorem read_cases {written : ℕ → Bytes} {c c' : Connection} {chunk : Bytes}
    (h : c.read written chunk = some c') :
    (c.closed = true ∧ c' = c) ∨
      (c.closed = false ∧ c' = c.received chunk ∧
        (c.received chunk).index < (c.received chunk).msgSize) ∨
      (c.closed = false ∧ c' = dispatch written (c.received chunk) ∧
        (c.received chunk).msgSize ≤ (c.received chunk).index) := by
  unfold read at h
  split at h
  · rename_i hclosed
    simp only [Option.some.injEq] at h
    exact .inl ⟨hclosed, h.symm⟩
  · rename_i hopen
    have hopen : c.closed = false := by simpa using hopen
    split at h
    · cases h
    · change (if (c.received chunk).index < (c.received chunk).msgSize then
        some (c.received chunk) else some (dispatch written (c.received chunk))) = some c' at h
      split at h
      · rename_i hlt
        simp only [Option.some.injEq] at h
        exact .inr (.inl ⟨hopen, h.symm, hlt⟩)
      · rename_i hge
        simp only [Option.some.injEq] at h
        exact .inr (.inr ⟨hopen, h.symm, Nat.le_of_not_lt hge⟩)

theorem read_open {written : ℕ → Bytes} {c : Connection} {chunk : Bytes}
    (hopen : c.closed = false) (hroom : c.index + chunk.length ≤ BUFFER_SIZE) :
    c.read written chunk =
      if (c.received chunk).index < (c.received chunk).msgSize then some (c.received chunk)
      else some (dispatch written (c.received chunk)) := by
  have hfits : ¬ BUFFER_SIZE - c.index < chunk.length := by omega
  rw [read, hopen, if_neg Bool.false_ne_true, if_neg hfits]

/-- A complete message is decoded, or closes the connection. -/
theorem dispatch_cases (written : ℕ → Bytes) (c : Connection) :
    (dispatch written c).index = 0 ∧
      (((dispatch written c).closed = true ∧ (dispatch written c).decoded = c.decoded) ∨
        ∃ request,
          (dispatch written c).decoded = c.decoded ++ [⟨c.buf.take c.msgSize, request⟩]) := by
  unfold dispatch
  simp only
  split
  · exact ⟨rfl, .inl ⟨rfl, rfl⟩⟩
  · split
    · exact ⟨rfl, .inl ⟨rfl, rfl⟩⟩
    · rename_i request _
      exact ⟨rfl, .inr ⟨request, rfl⟩⟩

end Connection

end AuroraSizing.Wire
