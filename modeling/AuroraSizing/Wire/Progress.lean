import AuroraSizing.Foundation.System
import AuroraSizing.Wire.Responses

/-!
# Whether the read loop moves on

The handler of `async_read_some` takes the end of the stream for a chunk of no bytes. It
then reads again whenever `index` is below `msg_size`: below the size of a message that was
begun, below the size a past message left behind, and below a size that is larger than the
buffer, which no read can reach any more. `progress_iff` says that these are all the reads
that cannot bring anything.
-/

namespace AuroraSizing.Wire

open Foundation.Bytes Foundation.System

/-- How a read completes. -/
inductive Completion where
  | received (chunk : Bytes)
  | eof
  | error
deriving DecidableEq, Repr

/-- What a read of the rest of the buffer can complete with. Without a rest it completes at
once, with no bytes. -/
def Completion.Admitted (c : Connection) : Completion → Prop
  | .received chunk =>
      c.index + chunk.length ≤ BUFFER_SIZE ∧ (chunk = [] ↔ BUFFER_SIZE ≤ c.index)
  | .eof => c.index < BUFFER_SIZE
  | .error => True

instance (c : Connection) (completion : Completion) : Decidable (completion.Admitted c) :=
  match completion with
  | .received _ => inferInstanceAs (Decidable (_ ∧ _))
  | .eof => inferInstanceAs (Decidable (_ < _))
  | .error => isTrue trivial

/-- What the handler does next. -/
inductive Handled where
  /-- `index < msg_size`: it reads again. -/
  | rearmed (c : Connection)
  /-- It has `process` called on the decoded message. -/
  | dispatched (c : Connection)
  /-- It closes the socket, reports an error, or computes with a null pointer. -/
  | stopped

namespace Connection

/-- From `index < msg_size` on. `response` is what `write` then encodes over the buffer. -/
def complete (response : Bytes) (c : Connection) : Handled :=
  if c.index < c.msgSize then .rearmed c
  else if (dispatch (fun _ => response) c).closed then .stopped
  else .dispatched (dispatch (fun _ => response) c)

/-- The handler; `!ec || ec == eof` takes the end of the stream along. -/
def handle (response : Bytes) (c : Connection) : Completion → Handled
  | .received chunk => (c.received chunk).complete response
  | .eof => (c.received []).complete response
  | .error => .stopped

end Connection

/-- A connection with a read pending, or one that does not read any more. -/
inductive ReadLoop where
  | reading (c : Connection)
  | stopped

/-- A completion, and the response to the message when one is dispatched; without a
response `write` is not called, and nothing reads again. -/
structure ReadEvent where
  completion : Completion
  response : Option Bytes

/-- The bytes a completion brings. -/
def ReadEvent.bytes (e : ReadEvent) : ℕ :=
  match e.completion with
  | .received chunk => chunk.length
  | .eof | .error => 0

namespace ReadLoop

def start : ReadLoop := .reading .create

/-- The loop after what the handler did: `write` reads again when the response is sent. -/
def after (response : Option Bytes) : Handled → ReadLoop
  | .rearmed c => .reading c
  | .dispatched c => if response.isSome then .reading c else .stopped
  | .stopped => .stopped

def step : ReadLoop → ReadEvent → Option ReadLoop
  | .stopped, _ => none
  | .reading c, e =>
      if e.completion.Admitted c then
        some (after e.response (c.handle (e.response.getD []) e.completion))
      else none

end ReadLoop

namespace Connection

/-- The handler is the `read` of a chunk, with the end of the stream and errors beside it. -/
theorem read_of_handle {c : Connection} (hopen : c.closed = false) {chunk : Bytes}
    (hroom : c.index + chunk.length ≤ BUFFER_SIZE) (response : Bytes) :
    ∃ c', c.read (fun _ => response) chunk = some c' ∧
      (c.handle response (.received chunk) = .rearmed c' ∨
        c.handle response (.received chunk) = .dispatched c' ∨
        c.handle response (.received chunk) = .stopped ∧ c'.closed = true) := by
  rw [read_open hopen hroom, handle, complete]
  split
  · exact ⟨_, rfl, .inl rfl⟩
  · cases hclosed : (dispatch (fun _ => response) (c.received chunk)).closed with
    | true => exact ⟨_, rfl, .inr (.inr ⟨rfl, hclosed⟩)⟩
    | false => exact ⟨_, rfl, .inr (.inl rfl)⟩

/-- A dispatched message that leaves the connection open. -/
theorem dispatch_open {written : ℕ → Bytes} {c : Connection}
    (hopen : (dispatch written c).closed = false) :
    (dispatch written c).index = 0 ∧ (dispatch written c).msgSize = c.msgSize ∧
      ((dispatch written c).headerSize = c.headerSize ∨ (dispatch written c).headerSize = 4) ∧
      (dispatch written c).buf = overwrite c.buf 0 (written c.decoded.length) := by
  rw [dispatch_eq] at hopen ⊢
  cases hdecode : MsgProcessor.decode (c.buf.drop c.headerSize) with
  | none =>
      rw [hdecode] at hopen
      cases hopen
  | some p =>
      rcases p with ⟨type, request⟩
      refine ⟨rfl, rfl, ?_, rfl⟩
      by_cases hattach : type = .srvMsgAttach
      · exact .inr (if_pos hattach)
      · exact .inl (if_neg hattach)

/-! ## What holds whenever a read is pending -/

/-- The declared size, as the header in the buffer has it once the chunk is there. -/
def declared (c : Connection) (chunk : Bytes) : ℕ :=
  ofLe ((overwrite c.buf c.index chunk).take c.headerSize)

structure Inv (c : Connection) : Prop where
  isOpen : c.closed = false
  index_le : c.index ≤ BUFFER_SIZE
  /-- A message that was begun is not complete. -/
  pending : c.index = 0 ∨ c.index < c.msgSize
  headerSize : c.headerSize = 2 ∨ c.headerSize = 4
  size_lt : c.msgSize < 256 ^ c.headerSize
  header : c.headerSize ≤ c.index → c.msgSize = c.declared []
  buf : BUFFER_SIZE ≤ c.buf.length

namespace Inv

variable {c : Connection}

theorem create : Inv .create where
  isOpen := rfl
  index_le := Nat.zero_le _
  pending := .inl rfl
  headerSize := .inl rfl
  size_lt := by decide
  header := fun h => absurd h (by decide)
  buf := by simp [Connection.create]

theorem headerSize_le (h : c.Inv) : c.headerSize ≤ BUFFER_SIZE := by
  have hbuf : BUFFER_SIZE = 32768 := rfl
  rcases h.headerSize with hsize | hsize <;> omega

theorem length_header (h : c.Inv) (chunk : Bytes) :
    ((overwrite c.buf c.index chunk).take c.headerSize).length = c.headerSize := by
  have hindex : c.index ≤ c.buf.length := h.index_le.trans h.buf
  have hbuf := length_le_overwrite hindex chunk
  have hheader := h.headerSize_le.trans h.buf
  rw [List.length_take]
  omega

theorem declared_lt (h : c.Inv) (chunk : Bytes) : c.declared chunk < 256 ^ c.headerSize := by
  have hlt := ofLe_lt ((overwrite c.buf c.index chunk).take c.headerSize)
  rwa [h.length_header] at hlt

/-- The upper bytes of `msg_size` stay zero, so it is what the header says. -/
theorem received_msgSize (h : c.Inv) (chunk : Bytes) :
    (c.received chunk).msgSize =
      if c.headerSize ≤ c.index + chunk.length then c.declared chunk else c.msgSize := by
  have hlt : c.msgSize < 256 ^ ((overwrite c.buf c.index chunk).take c.headerSize).length := by
    rw [h.length_header]
    exact h.size_lt
  have hlow := ofLe_low (n := 8) hlt
  rw [h.length_header] at hlow
  simp only [received, hlow, declared]

/-- No bytes leave the connection as it is. -/
theorem received_nil (h : c.Inv) : c.received [] = c := by
  have hsize : (c.received []).msgSize = c.msgSize := by
    rw [h.received_msgSize]
    split
    · rename_i hheader
      exact (h.header hheader).symm
    · rfl
  have hbuf : (c.received []).buf = c.buf := overwrite_nil _ _
  calc c.received [] = { c with
          buf := (c.received []).buf
          index := c.index + 0
          msgSize := (c.received []).msgSize } := rfl
    _ = c := by rw [hsize, hbuf, Nat.add_zero]

theorem received_msgSize_lt (h : c.Inv) (chunk : Bytes) :
    (c.received chunk).msgSize < 256 ^ c.headerSize := by
  rw [h.received_msgSize]
  split
  · exact h.declared_lt chunk
  · exact h.size_lt

theorem le_length_received (h : c.Inv) (chunk : Bytes) :
    BUFFER_SIZE ≤ (c.received chunk).buf.length := by
  have hindex : c.index ≤ c.buf.length := h.index_le.trans h.buf
  exact h.buf.trans (length_le_overwrite hindex chunk)

theorem received (h : c.Inv) {chunk : Bytes} (hroom : c.index + chunk.length ≤ BUFFER_SIZE)
    (hpending : (c.received chunk).index < (c.received chunk).msgSize) :
    (c.received chunk).Inv where
  isOpen := h.isOpen
  index_le := hroom
  pending := .inr hpending
  headerSize := h.headerSize
  size_lt := h.received_msgSize_lt chunk
  header := by
    intro hheader
    have hheader : c.headerSize ≤ c.index + chunk.length := hheader
    rw [h.received_msgSize, if_pos hheader]
    show _ = ofLe ((overwrite (overwrite c.buf c.index chunk) (c.index + chunk.length) []).take
      c.headerSize)
    rw [overwrite_nil]
    rfl
  buf := h.le_length_received chunk

/-- A message that is dispatched leaves an empty buffer and its own size behind. -/
theorem dispatch (h : c.Inv) (chunk response : Bytes)
    (hopen : (Connection.dispatch (fun _ => response) (c.received chunk)).closed = false) :
    (Connection.dispatch (fun _ => response) (c.received chunk)).Inv := by
  obtain ⟨hindex, hsize, hheader, hbuf⟩ := dispatch_open hopen
  have hsizes : c.headerSize ≤ (Connection.dispatch (fun _ => response)
      (c.received chunk)).headerSize := by
    rcases hheader with heq | heq
    · exact Nat.le_of_eq heq.symm
    · have htwo := h.headerSize
      omega
  refine ⟨hopen, ?_, .inl hindex, ?_, ?_, ?_, ?_⟩
  · rw [hindex]
    exact Nat.zero_le _
  · rcases hheader with heq | heq
    · rw [heq]
      exact h.headerSize
    · exact .inr heq
  · rw [hsize]
    exact (h.received_msgSize_lt chunk).trans_le (Nat.pow_le_pow_right (by decide) hsizes)
  · intro hle
    have hpos : 2 ≤ c.headerSize := by
      rcases h.headerSize with heq | heq <;> omega
    omega
  · rw [hbuf]
    exact (h.le_length_received chunk).trans (length_le_overwrite (Nat.zero_le _) response)

end Inv

end Connection

namespace ReadLoop

/-- The invariant of a loop that reads. -/
def Inv : ReadLoop → Prop
  | .reading c => c.Inv
  | .stopped => True

/-- What a completion leads to. -/
theorem step_cases {c : Connection} {e : ReadEvent} {l : ReadLoop}
    (h : step (.reading c) e = some l) :
    e.completion.Admitted c ∧
      l = after e.response (c.handle (e.response.getD []) e.completion) := by
  by_cases hadmitted : e.completion.Admitted c
  · rw [step, if_pos hadmitted] at h
    exact ⟨hadmitted, (Option.some.inj h).symm⟩
  · rw [step, if_neg hadmitted] at h
    cases h

theorem inv_complete {c : Connection} (hinv : c.Inv) {chunk : Bytes}
    (hroom : c.index + chunk.length ≤ BUFFER_SIZE) (response : Option Bytes) :
    Inv (after response ((c.received chunk).complete (response.getD []))) := by
  unfold Connection.complete
  split
  · rename_i hpending
    exact hinv.received hroom hpending
  · cases hclosed : (Connection.dispatch (fun _ => response.getD []) (c.received chunk)).closed with
    | true => exact trivial
    | false =>
        cases response with
        | none => exact trivial
        | some response => exact hinv.dispatch chunk response hclosed

theorem inv_step {l l' : ReadLoop} {e : ReadEvent} (hinv : l.Inv) (h : step l e = some l') :
    l'.Inv := by
  cases l with
  | stopped => cases h
  | reading c =>
      obtain ⟨hadmitted, rfl⟩ := step_cases h
      rcases e with ⟨completion, response⟩
      cases completion with
      | received chunk => exact inv_complete hinv hadmitted.1 response
      | eof =>
          have hroom : c.index + ([] : Bytes).length ≤ BUFFER_SIZE := Connection.Inv.index_le hinv
          exact inv_complete hinv hroom response
      | error => exact trivial

/-! ## Reads that can bring something -/

/-- The handler's own read follows no end of the stream and has room in the buffer. -/
def Sound : ReadLoop → ReadEvent → Prop
  | .reading c, e => ∀ c', c.handle (e.response.getD []) e.completion = .rearmed c' →
      e.completion ≠ .eof ∧ 0 < BUFFER_SIZE - c'.index
  | .stopped, _ => True

/-- The same of every read that follows, the one `write` asks for included. -/
def SoundNext : ReadLoop → ReadEvent → Prop
  | .reading c, e => ∀ c', step (.reading c) e = some (.reading c') →
      e.completion ≠ .eof ∧ 0 < BUFFER_SIZE - c'.index
  | .stopped, _ => True

/-- The end of the stream finds no message begun and no size left behind, and a chunk fills
the buffer only for a message that fits it. -/
def Progresses : ReadLoop → ReadEvent → Prop
  | .reading c, e =>
      match e.completion with
      | .received chunk =>
          c.index + chunk.length = BUFFER_SIZE → c.declared chunk ≤ BUFFER_SIZE
      | .eof => c.index = 0 ∧ c.msgSize = 0
      | .error => True
  | .stopped, _ => True

/-- Besides, what the end of the stream finds in the buffer is not a message, or one that is
not answered. -/
def Ends : ReadLoop → ReadEvent → Prop
  | .reading c, e => e.completion = .eof →
      MsgProcessor.decode (c.buf.drop c.headerSize) = none ∨ e.response = none
  | .stopped, _ => True

/-- Which reads of the handler follow the end of the stream: a pending message's, or a past
one's. -/
theorem eof_rearms_iff {c : Connection} (hinv : c.Inv) :
    c.index < c.msgSize ↔ ¬ (c.index = 0 ∧ c.msgSize = 0) := by
  have hpending := hinv.pending
  omega

theorem handle_eof {c : Connection} (hinv : c.Inv) (response : Bytes) :
    c.handle response .eof = c.complete response := by
  rw [Connection.handle, hinv.received_nil]

theorem complete_eq_rearmed {response : Bytes} {c c' : Connection} :
    c.complete response = .rearmed c' ↔ c.index < c.msgSize ∧ c' = c := by
  unfold Connection.complete
  split
  · rename_i hlt
    simp [hlt, eq_comm]
  · rename_i hge
    split <;> simp [hge]

/-- The end of the stream is not followed by another read of the handler. -/
theorem sound_eof_iff {c : Connection} (hinv : c.Inv) (response : Option Bytes) :
    Sound (.reading c) ⟨.eof, response⟩ ↔ c.index = 0 ∧ c.msgSize = 0 := by
  have hrearms := eof_rearms_iff hinv
  show (∀ c', c.handle (response.getD []) .eof = .rearmed c' → _) ↔ _
  rw [handle_eof hinv]
  constructor
  · intro h
    by_contra hpending
    exact (h c (complete_eq_rearmed.mpr ⟨hrearms.mpr hpending, rfl⟩)).1 rfl
  · intro hidle c' hrearmed
    exact absurd hidle (hrearms.mp (complete_eq_rearmed.mp hrearmed).1)

/-- A buffer that is full has its message complete. -/
theorem sound_received_iff {c : Connection} (hinv : c.Inv) {chunk : Bytes}
    (hroom : c.index + chunk.length ≤ BUFFER_SIZE) (response : Option Bytes) :
    Sound (.reading c) ⟨.received chunk, response⟩ ↔
      (c.index + chunk.length = BUFFER_SIZE → c.declared chunk ≤ BUFFER_SIZE) := by
  have hindex : (c.received chunk).index = c.index + chunk.length := rfl
  have hheader := hinv.headerSize_le
  have hsize := hinv.received_msgSize chunk
  show (∀ c', (c.received chunk).complete (response.getD []) = .rearmed c' → _) ↔ _
  constructor
  · intro h hfull
    rw [if_pos (hfull ▸ hheader)] at hsize
    by_contra hlarge
    have hrearmed := (h (c.received chunk) (complete_eq_rearmed.mpr ⟨by omega, rfl⟩)).2
    omega
  · intro h c' hrearmed
    obtain ⟨hlt, rfl⟩ := complete_eq_rearmed.mp hrearmed
    refine ⟨nofun, ?_⟩
    by_contra hfull
    have hfull : c.index + chunk.length = BUFFER_SIZE := by omega
    have hfits := h hfull
    rw [if_pos (hfull ▸ hheader)] at hsize
    omega

theorem sound_iff {l l' : ReadLoop} {e : ReadEvent} (hinv : l.Inv) (h : step l e = some l') :
    Sound l e ↔ Progresses l e := by
  cases l with
  | stopped => exact Iff.rfl
  | reading c =>
      obtain ⟨hadmitted, -⟩ := step_cases h
      rcases e with ⟨completion, response⟩
      cases completion with
      | error => exact ⟨fun _ => trivial, fun _ c' hrearmed => nomatch hrearmed⟩
      | eof => exact sound_eof_iff hinv response
      | received chunk => exact sound_received_iff hinv hadmitted.1 response

theorem dispatch_closed_iff (written : ℕ → Bytes) {c : Connection} (hopen : c.closed = false) :
    (Connection.dispatch written c).closed = true ↔
      MsgProcessor.decode (c.buf.drop c.headerSize) = none := by
  rw [Connection.dispatch_eq]
  cases MsgProcessor.decode (c.buf.drop c.headerSize) with
  | none => simp
  | some p => simp [hopen]

/-- What is read next, after a completion that `index` and `msg_size` are compared on. -/
theorem after_complete_eq_reading {c c' : Connection} {response : Option Bytes} :
    after response (c.complete (response.getD [])) = .reading c' ↔
      (c.index < c.msgSize ∧ c' = c) ∨
        (¬ c.index < c.msgSize ∧ response ≠ none ∧
          (Connection.dispatch (fun _ => response.getD []) c).closed = false ∧
          c' = Connection.dispatch (fun _ => response.getD []) c) := by
  unfold Connection.complete
  by_cases hlt : c.index < c.msgSize
  · rw [if_pos hlt, after, reading.injEq]
    constructor
    · intro h
      exact .inl ⟨hlt, h.symm⟩
    · rintro (⟨-, h⟩ | ⟨hge, -⟩)
      · exact h.symm
      · exact absurd hlt hge
  · rw [if_neg hlt]
    cases hclosed : (Connection.dispatch (fun _ => response.getD []) c).closed with
    | true =>
        rw [if_pos rfl, after]
        refine ⟨nofun, ?_⟩
        rintro (⟨hlt', -⟩ | ⟨-, -, hopen, -⟩)
        · exact absurd hlt' hlt
        · cases hopen
    | false =>
        rw [if_neg Bool.false_ne_true, after]
        cases response with
        | none =>
            refine ⟨nofun, ?_⟩
            rintro (⟨hlt', -⟩ | ⟨-, hnone, -⟩)
            · exact absurd hlt' hlt
            · exact absurd rfl hnone
        | some response =>
            rw [Option.isSome_some, if_pos rfl, reading.injEq]
            constructor
            · intro h
              exact .inr ⟨hlt, nofun, rfl, h.symm⟩
            · rintro (⟨hlt', -⟩ | ⟨-, -, -, h⟩)
              · exact absurd hlt' hlt
              · exact h.symm

theorem step_received {c : Connection} {chunk : Bytes} {response : Option Bytes}
    (hadmitted : (Completion.received chunk).Admitted c) :
    step (.reading c) ⟨.received chunk, response⟩ =
      some (after response ((c.received chunk).complete (response.getD []))) :=
  if_pos hadmitted

theorem step_eof {c : Connection} (hinv : c.Inv) {response : Option Bytes}
    (hroom : c.index < BUFFER_SIZE) :
    step (.reading c) ⟨.eof, response⟩ =
      some (after response (c.complete (response.getD []))) := by
  have hstep : step (.reading c) ⟨.eof, response⟩ =
      some (after response (c.handle (response.getD []) .eof)) := if_pos hroom
  rw [hstep, handle_eof hinv]

theorem soundNext_eof_iff {c : Connection} (hinv : c.Inv) {response : Option Bytes}
    (hroom : c.index < BUFFER_SIZE) :
    SoundNext (.reading c) ⟨.eof, response⟩ ↔
      (c.index = 0 ∧ c.msgSize = 0) ∧
        (MsgProcessor.decode (c.buf.drop c.headerSize) = none ∨ response = none) := by
  have hrearms := eof_rearms_iff hinv
  show (∀ c', step (.reading c) ⟨.eof, response⟩ = some (.reading c') → _) ↔ _
  rw [step_eof hinv hroom]
  simp only [Option.some.injEq, after_complete_eq_reading, ne_eq, not_true_eq_false, false_and,
    imp_false]
  rw [← dispatch_closed_iff (fun _ => response.getD []) hinv.isOpen]
  constructor
  · intro h
    have hidle : ¬ c.index < c.msgSize := fun hlt => h c (.inl ⟨hlt, rfl⟩)
    refine ⟨not_not.mp (mt hrearms.mpr hidle), ?_⟩
    by_contra hnext
    rw [not_or, Bool.not_eq_true] at hnext
    exact h _ (.inr ⟨hidle, hnext.2, hnext.1, rfl⟩)
  · rintro ⟨hidle, hends⟩ c' (⟨hlt, -⟩ | ⟨-, hresponse, hclosed, -⟩)
    · exact hrearms.mp hlt hidle
    · rcases hends with htrue | hnone
      · rw [hclosed] at htrue
        cases htrue
      · exact hresponse hnone

theorem soundNext_received_iff {c : Connection} (hinv : c.Inv) {chunk : Bytes}
    {response : Option Bytes} (hadmitted : (Completion.received chunk).Admitted c) :
    SoundNext (.reading c) ⟨.received chunk, response⟩ ↔
      (c.index + chunk.length = BUFFER_SIZE → c.declared chunk ≤ BUFFER_SIZE) := by
  rw [← sound_received_iff hinv hadmitted.1 response]
  show (∀ c', step (.reading c) ⟨.received chunk, response⟩ = some (.reading c') → _) ↔
    (∀ c', (c.received chunk).complete (response.getD []) = .rearmed c' → _)
  rw [step_received hadmitted]
  simp only [Option.some.injEq, after_complete_eq_reading, complete_eq_rearmed]
  constructor
  · intro h c' hrearmed
    exact h c' (.inl hrearmed)
  · rintro h c' (hrearmed | ⟨-, -, hclosed, rfl⟩)
    · exact h c' hrearmed
    · -- the message is dispatched, and the buffer is empty
      rw [(Connection.dispatch_open hclosed).1]
      exact ⟨nofun, by decide⟩

theorem soundNext_iff {l l' : ReadLoop} {e : ReadEvent} (hinv : l.Inv)
    (h : step l e = some l') : SoundNext l e ↔ Progresses l e ∧ Ends l e := by
  cases l with
  | stopped => exact ⟨fun _ => ⟨trivial, trivial⟩, fun _ => trivial⟩
  | reading c =>
      obtain ⟨hadmitted, -⟩ := step_cases h
      rcases e with ⟨completion, response⟩
      cases completion with
      | error =>
          refine ⟨fun _ => ⟨trivial, nofun⟩, ?_⟩
          intro _ c' hreading
          obtain ⟨-, hstopped⟩ := step_cases hreading
          cases hstopped
      | eof =>
          rw [soundNext_eof_iff hinv hadmitted]
          exact and_congr_right fun _ => ⟨fun hends _ => hends, fun hends => hends rfl⟩
      | received chunk =>
          rw [soundNext_received_iff hinv hadmitted]
          exact ⟨fun hfits => ⟨hfits, nofun⟩, And.left⟩

/-! ## Whole runs -/

/-- The handler reads again. -/
def rearms : ReadLoop → ReadEvent → Bool
  | .reading c, e =>
      match c.handle (e.response.getD []) e.completion with
      | .rearmed _ => true
      | .dispatched _ | .stopped => false
  | .stopped, _ => false

/-- A read follows, the handler's own or the one after a response. -/
def readsNext (l : ReadLoop) (e : ReadEvent) : Bool :=
  match step l e with
  | some (.reading _) => true
  | some .stopped | none => false

/-- A pending read can bring something. -/
def HasRoom : ReadLoop → Prop
  | .reading c => c.Inv ∧ c.index < BUFFER_SIZE
  | .stopped => True

theorem hasRoom_start : HasRoom start := ⟨.create, by decide⟩

theorem HasRoom.inv {l : ReadLoop} (h : HasRoom l) : l.Inv := by
  cases l with
  | reading c => exact h.1
  | stopped => trivial

/-- A chunk that a read with room completes with is not empty. -/
theorem bytes_pos {c : Connection} {e : ReadEvent} (hroom : c.index < BUFFER_SIZE)
    (hadmitted : e.completion.Admitted c) (heof : e.completion ≠ .eof)
    (herror : e.completion ≠ .error) : 0 < e.bytes := by
  rcases e with ⟨completion, response⟩
  cases completion with
  | eof => exact absurd rfl heof
  | error => exact absurd rfl herror
  | received chunk =>
      have hchunk : chunk ≠ [] := fun hnil => absurd (hadmitted.2.mp hnil) (by omega)
      exact List.length_pos_iff.mpr hchunk

theorem index_of_dispatched {c d : Connection} {response : Bytes}
    {completion : Completion} (h : c.handle response completion = .dispatched d) : d.index = 0 := by
  have hcomplete : ∀ c : Connection, c.complete response = .dispatched d → d.index = 0 := by
    intro c h
    unfold Connection.complete at h
    split at h
    · cases h
    · split at h
      · cases h
      · cases h
        exact (Connection.dispatch_cases _ c).1
  cases completion with
  | received chunk => exact hcomplete _ h
  | eof => exact hcomplete _ h
  | error => cases h

theorem hasRoom_step {l l' : ReadLoop} {e : ReadEvent} (hroom : HasRoom l)
    (hok : Progresses l e) (h : step l e = some l') : HasRoom l' := by
  have hinv := inv_step hroom.inv h
  have hsound := (sound_iff hroom.inv h).mpr hok
  cases l' with
  | stopped => trivial
  | reading c' =>
      refine ⟨hinv, ?_⟩
      cases l with
      | stopped => cases h
      | reading c =>
          obtain ⟨-, hafter⟩ := step_cases h
          cases hhandled : c.handle (e.response.getD []) e.completion with
          | rearmed d =>
              rw [hhandled] at hafter
              cases hafter
              have hd := (hsound c' hhandled).2
              omega
          | dispatched d =>
              have hindex := index_of_dispatched hhandled
              rw [hhandled, after] at hafter
              split at hafter
              · cases hafter
                rw [hindex]
                decide
              · cases hafter
          | stopped =>
              rw [hhandled] at hafter
              cases hafter

theorem rearms_eq_true {c : Connection} {e : ReadEvent} :
    rearms (.reading c) e = true ↔
      ∃ d, c.handle (e.response.getD []) e.completion = .rearmed d := by
  cases hhandled : c.handle (e.response.getD []) e.completion <;> simp [rearms, hhandled]

theorem bytes_of_rearms {l l' : ReadLoop} {e : ReadEvent} (hroom : HasRoom l)
    (hok : Progresses l e) (h : step l e = some l') (hrearms : rearms l e = true) :
    0 < e.bytes := by
  cases l with
  | stopped => cases h
  | reading c =>
      obtain ⟨d, hhandled⟩ := rearms_eq_true.mp hrearms
      have hsound := (sound_iff hroom.inv h).mpr hok d hhandled
      refine bytes_pos hroom.2 (step_cases h).1 hsound.1 ?_
      intro herror
      rw [herror] at hhandled
      cases hhandled

theorem bytes_of_readsNext {l l' : ReadLoop} {e : ReadEvent} (hroom : HasRoom l)
    (hok : SoundNext l e) (h : step l e = some l') (hreads : readsNext l e = true) :
    0 < e.bytes := by
  cases l with
  | stopped => cases h
  | reading c =>
      obtain ⟨hadmitted, hafter⟩ := step_cases h
      rw [readsNext, h] at hreads
      cases l' with
      | stopped => cases hreads
      | reading c' =>
          refine bytes_pos hroom.2 hadmitted (hok c' h).1 ?_
          intro herror
          rw [herror] at hafter
          cases hafter

/-- **The read loop moves on exactly when** the end of the stream comes with no message begun
and no size left behind, and no chunk fills the buffer for a message that does not fit. Then
the handler reads again no more often than bytes arrive. That no read at all follows the end
of the stream, `write`'s included, takes that nothing in the old buffer is answered. -/
theorem progress_iff {es : List ReadEvent} {l : ReadLoop} (hrun : run step start es = some l) :
    (Along step Sound start es ↔ Along step Progresses start es) ∧
      (Along step Progresses start es → occurrences step rearms start es ≤
        (es.map ReadEvent.bytes).sum) ∧
      (Along step SoundNext start es ↔
        Along step (fun l e => Progresses l e ∧ Ends l e) start es) ∧
      (Along step SoundNext start es → occurrences step readsNext start es ≤
        (es.map ReadEvent.bytes).sum) := by
  have hstart : start.Inv := hasRoom_start.inv
  refine ⟨?_, ?_, ?_, ?_⟩
  · exact along_congr (fun _ _ _ => inv_step) (fun _ _ _ => sound_iff) hstart hrun
  · intro hok
    have hstep : ∀ l e l', HasRoom l → Progresses l e → step l e = some l' → HasRoom l' :=
      fun _ _ _ => hasRoom_step
    exact occurrences_le hstep (fun _ _ _ => bytes_of_rearms) hasRoom_start hok hrun
  · exact along_congr (fun _ _ _ => inv_step) (fun _ _ _ => soundNext_iff) hstart hrun
  · intro hok
    have hstep : ∀ l e l', HasRoom l → SoundNext l e → step l e = some l' → HasRoom l' := by
      intro l e l' hroom hsound h
      exact hasRoom_step hroom ((soundNext_iff hroom.inv h).mp hsound).1 h
    exact occurrences_le hstep (fun _ _ _ => bytes_of_readsNext) hasRoom_start hok hrun

/-! ## Loops that never end -/

/-- With a message begun or a size left behind, the end of the stream is read forever. -/
theorem spins_at_eof {c : Connection} (hinv : c.Inv) (hroom : c.index < BUFFER_SIZE)
    (hpending : ¬ (c.index = 0 ∧ c.msgSize = 0)) (n : ℕ) :
    run step (.reading c) (List.replicate n ⟨.eof, none⟩) = some (.reading c) := by
  have hcomplete : c.complete [] = .rearmed c :=
    complete_eq_rearmed.mpr ⟨(eof_rearms_iff hinv).mpr hpending, rfl⟩
  apply run_replicate
  rw [step_eof hinv hroom]
  exact congrArg (fun h => some (after none h)) hcomplete

/-- With the buffer full of a message that does not fit, no byte can arrive any more. -/
theorem spins_when_full {c : Connection} (hinv : c.Inv) (hfull : c.index = BUFFER_SIZE)
    (hlarge : BUFFER_SIZE < c.msgSize) (n : ℕ) :
    run step (.reading c) (List.replicate n ⟨.received [], none⟩) = some (.reading c) := by
  have hadmitted : (Completion.received []).Admitted c :=
    ⟨Nat.le_of_eq hfull, fun _ => Nat.le_of_eq hfull.symm, fun _ => rfl⟩
  have hcomplete : c.complete [] = .rearmed c :=
    complete_eq_rearmed.mpr ⟨by omega, rfl⟩
  apply run_replicate
  rw [step_received hadmitted, hinv.received_nil]
  exact congrArg (fun h => some (after none h)) hcomplete

/-- A client's attach, with the two bytes that `size` counts and no copy fills, and the
response to it. -/
def attach (r : AttachRequest) (unfilled : Bytes) (response : Bytes) : ReadEvent where
  completion := .received
    (le 2 r.size ++ ((le 2 MessageType.srvMsgAttach.code ++ r.payload) ++ unfilled))
  response := some response

/-- A first message that arrives whole, after the two bytes of its size. -/
theorem received_first {size : ℕ} {rest : Bytes} (hlength : (le 2 size ++ rest).length = size)
    (hlt : size < 256 ^ 2) :
    (Connection.create.received (le 2 size ++ rest)).index = size ∧
      (Connection.create.received (le 2 size ++ rest)).msgSize = size ∧
      ∃ older, (Connection.create.received (le 2 size ++ rest)).buf.drop 2 = rest ++ older := by
  have hbuf : (Connection.create.received (le 2 size ++ rest)).buf =
      le 2 size ++ (rest ++ Connection.create.buf.drop (le 2 size ++ rest).length) := by
    rw [received_buf rfl, List.append_assoc]
  have htwo : 2 ≤ (le 2 size ++ rest).length := by
    rw [List.length_append, length_le]
    omega
  refine ⟨?_, ?_, ?_⟩
  · show 0 + (le 2 size ++ rest).length = size
    rw [Nat.zero_add, hlength]
  · have hthere : Connection.create.headerSize ≤
        Connection.create.index + (le 2 size ++ rest).length := htwo.trans (Nat.le_add_left _ _)
    rw [Connection.Inv.create.received_msgSize, if_pos hthere]
    show ofLe ((Connection.create.received (le 2 size ++ rest)).buf.take 2) = size
    rw [hbuf, List.take_left' (length_le 2 _), ofLe_le, Nat.mod_eq_of_lt hlt]
  · rw [hbuf, List.drop_left' (length_le 2 _)]
    exact ⟨_, rfl⟩

theorem size_bounds (r : AttachRequest) : 2 ≤ r.size ∧ r.size ≤ BUFFER_SIZE ∧ r.size < 256 ^ 2 := by
  have huser : r.userName.bytes.length < 32 := r.userName.lt
  have happ : r.appName.bytes.length < 32 := r.appName.lt
  have hbuf : BUFFER_SIZE = 32768 := rfl
  rw [AttachRequest.size]
  omega

/-- The attach is answered, and its size stays behind. -/
theorem step_attach (r : AttachRequest) {unfilled : Bytes} (hunfilled : unfilled.length = 2)
    (response : Bytes) :
    ∃ c, step start (attach r unfilled response) = some (.reading c) ∧
      c.index = 0 ∧ c.msgSize = r.size := by
  generalize hrest : (le 2 MessageType.srvMsgAttach.code ++ r.payload) ++ unfilled = rest
  obtain ⟨htwo, hfits, hlt⟩ := size_bounds r
  have hlength : (le 2 r.size ++ rest).length = r.size := by
    rw [← hrest]
    simp only [AttachRequest.payload, AttachRequest.size, List.length_append, length_le,
      CName.length_cStr, hunfilled]
    omega
  obtain ⟨hindex, hmsgSize, older, hbuf⟩ := received_first hlength hlt
  have hdecode : MsgProcessor.decode ((Connection.create.received (le 2 r.size ++ rest)).buf.drop
      2) = some (.srvMsgAttach, r.request) := by
    rw [hbuf, ← hrest, List.append_assoc, List.append_assoc]
    exact MsgProcessor.decode_append (t := .srvMsgAttach) r.decode_payload _
  have hopen : (Connection.dispatch (fun _ => response)
      (Connection.create.received (le 2 r.size ++ rest))).closed = false := by
    rw [← Bool.not_eq_true, dispatch_closed_iff _ rfl]
    intro hnone
    cases hdecode.symm.trans hnone
  obtain ⟨hzero, hstale, -⟩ := Connection.dispatch_open hopen
  have hadmitted : (Completion.received (le 2 r.size ++ rest)).Admitted .create := by
    refine ⟨?_, ?_, ?_⟩
    · show 0 + (le 2 r.size ++ rest).length ≤ BUFFER_SIZE
      omega
    · intro hnil
      rw [hnil, List.length_nil] at hlength
      omega
    · intro hfull
      exact absurd hfull (by decide)
  refine ⟨_, ?_, hzero, hstale.trans hmsgSize⟩
  rw [start, attach, hrest, step_received hadmitted]
  refine congrArg some (after_complete_eq_reading.mpr (.inr ⟨?_, ?_, hopen, rfl⟩))
  · rw [hindex, hmsgSize]
    exact Nat.lt_irrefl _
  · exact Option.some_ne_none _

/-- A client that attaches and hangs up leaves a thread that reads forever. -/
theorem spins_after_attach (r : AttachRequest) {unfilled : Bytes} (hunfilled : unfilled.length = 2)
    (response : Bytes) :
    ∃ c, step start (attach r unfilled response) = some (.reading c) ∧
      (∀ n, run step (.reading c) (List.replicate n ⟨.eof, none⟩) = some (.reading c)) ∧
      ¬ Along step Sound start [attach r unfilled response, ⟨.eof, none⟩] := by
  obtain ⟨c, hstep, hindex, hsize⟩ := step_attach r hunfilled response
  have hinv : c.Inv := inv_step hasRoom_start.inv hstep
  have hroom : c.index < BUFFER_SIZE := by
    rw [hindex]
    decide
  have hpending : ¬ (c.index = 0 ∧ c.msgSize = 0) := by
    rw [hsize, AttachRequest.size]
    omega
  refine ⟨c, hstep, spins_at_eof hinv hroom hpending, ?_⟩
  intro h
  exact hpending ((sound_eof_iff hinv none).mp (h.tail hstep).1)

/-- The request of `Client::attach`. -/
def rahul : AttachRequest where
  userName := ⟨[82, 97, 104, 117, 108], by decide, by decide⟩
  appName := ⟨[115, 101, 99, 100, 98], by decide, by decide⟩
  version := 1
  revision := 2

def rahulAttached : ReadEvent := attach rahul [0, 0] (SrvAttach.encode SrvAttach.response)

/-- A connection that is reset after its attach has moved on all the time. -/
theorem attached_progresses :
    ∃ l, run step start [rahulAttached, ⟨.error, none⟩] = some l ∧
      (Along step Sound start [rahulAttached, ⟨.error, none⟩] ↔
        Along step Progresses start [rahulAttached, ⟨.error, none⟩]) := by
  obtain ⟨c, hstep, -⟩ : ∃ c, step start rahulAttached = some (.reading c) ∧ _ :=
    step_attach rahul rfl (SrvAttach.encode SrvAttach.response)
  have hrun : run step start [rahulAttached, ⟨.error, none⟩] = some .stopped :=
    run_cons_eq_some.mpr ⟨.reading c, hstep, rfl⟩
  exact ⟨.stopped, hrun, (progress_iff hrun).1⟩

theorem rahul_spins :
    ∃ c, step start rahulAttached = some (.reading c) ∧
      (∀ n, run step (.reading c) (List.replicate n ⟨.eof, none⟩) = some (.reading c)) ∧
      ¬ Along step Sound start [rahulAttached, ⟨.eof, none⟩] :=
  spins_after_attach rahul rfl (SrvAttach.encode SrvAttach.response)

end ReadLoop

end AuroraSizing.Wire
