import AuroraSizing.Wire.Connection

/-!
# Which segmentations the framing survives

TCP may cut the bytes of a client anywhere. The reader drops what a chunk holds
beyond the message it completes, and takes a lone first byte for a complete
message of size 0. `framing_iff` says that these are the only cuts it fails on.
-/

namespace AuroraSizing.Wire

open Foundation.Bytes Foundation.Segments

/-! ## Well-formed streams -/

/-- A client frame: its length in `headerSize` bytes, the type, and a payload its
message can decode. -/
structure Frame (headerSize : ℕ) where
  type : MessageType
  payload : Bytes
  request : Request
  decodes : type.decode payload = some request
  size_le : headerSize + 2 + payload.length ≤ BUFFER_SIZE

namespace Frame

variable {headerSize : ℕ}

def size (f : Frame headerSize) : ℕ := headerSize + 2 + f.payload.length

def bytes (f : Frame headerSize) : Bytes :=
  le headerSize f.size ++ (le 2 f.type.code ++ f.payload)

theorem length_bytes (f : Frame headerSize) : f.bytes.length = f.size := by
  simp only [bytes, size, List.length_append, length_le]
  omega

theorem bytes_ne_nil (f : Frame headerSize) : f.bytes ≠ [] := by
  apply List.ne_nil_of_length_pos
  rw [length_bytes, size]
  omega

theorem size_lt (f : Frame headerSize) (h2 : 2 ≤ headerSize) : f.size < 256 ^ headerSize := by
  have hle : f.size ≤ BUFFER_SIZE := f.size_le
  have hpow : 256 ^ 2 ≤ 256 ^ headerSize := Nat.pow_le_pow_right (by decide) h2
  have hbuf : BUFFER_SIZE < 256 ^ 2 := by decide
  omega

theorem headerSize_lt (f : Frame headerSize) : headerSize + 2 ≤ f.size := Nat.le_add_right _ _

def decoded (f : Frame headerSize) : Decoded := ⟨f.bytes, f.request⟩

end Frame

/-- The frames of one client: the attach frame, then frames with a 4-byte length. -/
structure ClientStream where
  attach : Frame 2
  attach_type : attach.type = .srvMsgAttach
  rest : List (Frame 4)

namespace ClientStream

def frames (s : ClientStream) : List Bytes := s.attach.bytes :: s.rest.map Frame.bytes

def expected (s : ClientStream) : List Decoded := s.attach.decoded :: s.rest.map Frame.decoded

theorem frames_ne_nil (s : ClientStream) : ∀ f ∈ s.frames, f ≠ [] := by
  intro f hf
  simp only [frames, List.mem_cons, List.mem_map] at hf
  rcases hf with rfl | ⟨g, -, rfl⟩
  · exact s.attach.bytes_ne_nil
  · exact g.bytes_ne_nil

theorem expected_frames (s : ClientStream) : s.expected.map Decoded.frame = s.frames := by
  simp only [expected, frames, List.map_cons, List.map_map]
  rfl

end ClientStream

/-- A way of cutting the bytes of a stream. -/
structure Segmentation (s : ClientStream) where
  chunks : List Bytes
  nonempty : ∀ c ∈ chunks, c ≠ []
  flatten : chunks.flatten = s.frames.flatten

/-- The server decodes exactly the frames of the stream, once each and in order. -/
def DecodesExactly (written : ℕ → Bytes) (s : ClientStream) (g : Segmentation s) : Prop :=
  ∃ c, Connection.run written .create g.chunks = some c ∧ c.decoded = s.expected

namespace Connection

/-! ## What a run can consume -/

def decodedSize (c : Connection) : ℕ := (c.decoded.map fun d => d.frame.length).sum

/-- A message is decoded out of bytes that arrived after the one before it. -/
theorem read_consumes {written : ℕ → Bytes} {c c' : Connection} {chunk : Bytes}
    (h : c.read written chunk = some c') :
    c'.decodedSize + c'.index ≤ c.decodedSize + c.index + chunk.length := by
  rcases read_cases h with ⟨-, rfl⟩ | ⟨-, rfl, -⟩ | ⟨-, rfl, hcomplete⟩
  · omega
  · show c.decodedSize + (c.index + chunk.length) ≤ _
    omega
  · obtain ⟨hindex, ⟨-, hsame⟩ | ⟨request, hdecoded⟩⟩ := dispatch_cases written (c.received chunk)
    · have hsize : (dispatch written (c.received chunk)).decodedSize = c.decodedSize := by
        rw [decodedSize, hsame]
        rfl
      omega
    · have hsize : (dispatch written (c.received chunk)).decodedSize =
          c.decodedSize + ((c.received chunk).buf.take (c.received chunk).msgSize).length := by
        rw [decodedSize, hdecoded]
        simp [decodedSize, received]
      have htake := List.length_take_le (c.received chunk).msgSize (c.received chunk).buf
      have hrec : (c.received chunk).index = c.index + chunk.length := rfl
      omega

theorem run_consumes {written : ℕ → Bytes} {c c' : Connection} {chunks : List Bytes}
    (h : run written c chunks = some c') :
    c'.decodedSize + c'.index ≤ c.decodedSize + c.index + chunks.flatten.length := by
  induction chunks generalizing c with
  | nil =>
      simp only [run, Option.some.injEq] at h
      subst h
      simp
  | cons chunk chunks ih =>
      obtain ⟨c₁, hread, hrun⟩ := Option.bind_eq_some_iff.mp h
      have hfirst := read_consumes hread
      have hrest := ih hrun
      simp only [List.flatten_cons, List.length_append]
      omega

theorem take_received {c : Connection} (h : c.index ≤ c.buf.length) (chunk : Bytes) :
    (c.received chunk).buf.take (c.received chunk).index = c.buf.take c.index ++ chunk :=
  take_overwrite h

theorem run_closed {written : ℕ → Bytes} {c : Connection} (h : c.closed = true)
    (chunks : List Bytes) : run written c chunks = some c := by
  induction chunks with
  | nil => rfl
  | cons chunk chunks ih =>
      have hread : c.read written chunk = some c := by rw [read, if_pos h]
      rw [run, hread]
      exact ih

/-- A run that decodes every byte it received has cut at the ends of its chunks. -/
theorem cuts_of_run {written : ℕ → Bytes} {c c' : Connection} {chunks : List Bytes}
    (h : run written c chunks = some c') (hne : ∀ x ∈ chunks, x ≠ [])
    (hbuf : c.index ≤ c.buf.length)
    (hsum : c'.decodedSize = c.decodedSize + c.index + chunks.flatten.length) :
    ∃ ds, c'.decoded = c.decoded ++ ds ∧
      Cuts (c.buf.take c.index) chunks (ds.map Decoded.frame) := by
  induction chunks generalizing c with
  | nil =>
      simp only [run, Option.some.injEq] at h
      subst h
      have hindex : c.index = 0 := by
        simp only [List.flatten_nil, List.length_nil] at hsum
        omega
      exact ⟨[], by simp, by simpa [hindex] using Cuts.done⟩
  | cons chunk chunks ih =>
      obtain ⟨c₁, hread, hrun⟩ := Option.bind_eq_some_iff.mp h
      have hchunk : chunk ≠ [] := hne chunk List.mem_cons_self
      have hpos := List.length_pos_iff.mpr hchunk
      have hrest := run_consumes hrun
      simp only [List.flatten_cons, List.length_append] at hsum
      have hle : (c.received chunk).index ≤ (c.received chunk).buf.length := by
        show c.index + chunk.length ≤ (overwrite c.buf c.index chunk).length
        simp only [overwrite, List.length_append, List.length_take]
        omega
      have ih := fun c₁ hrun => ih (c := c₁) hrun
        (fun x hx => hne x (List.mem_cons_of_mem chunk hx))
      rcases read_cases hread with ⟨-, rfl⟩ | ⟨-, rfl, -⟩ | ⟨-, rfl, hcomplete⟩
      · omega
      · -- the message goes on
        have hsize : (c.received chunk).decodedSize = c.decodedSize := rfl
        have hrec : (c.received chunk).index = c.index + chunk.length := rfl
        obtain ⟨ds, hdecoded, hcuts⟩ := ih _ hrun hle (by omega)
        rw [take_received hbuf] at hcuts
        exact ⟨ds, hdecoded, Cuts.more hchunk hcuts⟩
      · obtain ⟨hindex, ⟨-, hsame⟩ | ⟨request, hdecoded⟩⟩ :=
          dispatch_cases written (c.received chunk)
        · have hsize : (dispatch written (c.received chunk)).decodedSize = c.decodedSize := by
            rw [decodedSize, hsame]
            rfl
          omega
        · -- nothing of the chunk may lie beyond the message
          have hsize : (dispatch written (c.received chunk)).decodedSize =
              c.decodedSize + ((c.received chunk).buf.take (c.received chunk).msgSize).length := by
            rw [decodedSize, hdecoded]
            simp [decodedSize, received]
          have htake := List.length_take_le (c.received chunk).msgSize (c.received chunk).buf
          have hrec : (c.received chunk).index = c.index + chunk.length := rfl
          have hmsg : (c.received chunk).msgSize = (c.received chunk).index := by omega
          obtain ⟨ds, hds, hcuts⟩ := ih _ hrun (by omega) (by omega)
          rw [hindex, List.take_zero] at hcuts
          rw [hmsg, take_received hbuf] at hdecoded
          refine ⟨⟨c.buf.take c.index ++ chunk, request⟩ :: ds, ?_, Cuts.last hchunk hcuts⟩
          rw [hds, hdecoded, List.append_assoc]
          rfl

/-! ## Chunks that keep to one frame -/

/-- The connection waits for the rest of a frame, `pending` of which has arrived. -/
structure Awaits (c : Connection) (headerSize : ℕ) (pending : Bytes) : Prop where
  isOpen : c.closed = false
  header : c.headerSize = headerSize
  index : c.index = pending.length
  buf : c.buf.take c.index = pending
  msgSize_lt : c.msgSize < 256 ^ headerSize

variable (written : ℕ → Bytes) {c : Connection} {headerSize : ℕ} {pending chunk : Bytes}

theorem Awaits.fits (h : Awaits c headerSize pending) : c.index ≤ c.buf.length := by
  have hlen := congrArg List.length h.buf
  rw [List.length_take, ← h.index] at hlen
  omega

theorem Awaits.received_buf (h : Awaits c headerSize pending) :
    (c.received chunk).buf.take (pending ++ chunk).length = pending ++ chunk := by
  have htake := take_received h.fits chunk
  rw [h.buf] at htake
  rw [List.length_append, ← h.index]
  exact htake

/-- Once its header is there the size is the frame's own. -/
theorem Awaits.received_msgSize (h : Awaits c headerSize pending) (h2 : 2 ≤ headerSize)
    {f : Frame headerSize} {more : Bytes} (hf : f.bytes = (pending ++ chunk) ++ more)
    (hheader : headerSize ≤ (pending ++ chunk).length) :
    (c.received chunk).msgSize = f.size := by
  have hlow : (c.received chunk).buf.take headerSize = le headerSize f.size := by
    have hcut : ((c.received chunk).buf.take (pending ++ chunk).length).take headerSize =
        (f.bytes).take headerSize := by
      rw [h.received_buf, hf, List.take_append_of_le_length hheader]
    rw [List.take_take, Nat.min_eq_left hheader, Frame.bytes] at hcut
    rw [hcut]
    exact List.take_left' (length_le headerSize f.size)
  have hthere : c.headerSize ≤ c.index + chunk.length := by
    rw [h.header, h.index, ← List.length_append]
    exact hheader
  have hmsg : (c.received chunk).msgSize =
      ofLe ((c.received chunk).buf.take c.headerSize ++ (le 8 c.msgSize).drop c.headerSize) :=
    if_pos hthere
  have hdrop : (le 8 c.msgSize).drop headerSize =
      (le 8 c.msgSize).drop (le headerSize f.size).length := by rw [length_le]
  rw [hmsg, h.header, hlow, hdrop, ofLe_low (by rw [length_le]; exact h.msgSize_lt), ofLe_le,
    Nat.mod_eq_of_lt (f.size_lt h2)]

theorem Awaits.room (h : Awaits c headerSize pending) {f : Frame headerSize} {more : Bytes}
    (hf : f.bytes = (pending ++ chunk) ++ more) : c.index + chunk.length ≤ BUFFER_SIZE := by
  have hlen := congrArg List.length hf
  rw [f.length_bytes, List.length_append, List.length_append, ← h.index] at hlen
  have hle : f.size ≤ BUFFER_SIZE := f.size_le
  omega

/-- A chunk inside the frame is kept. A size left over from the message before does
no harm as long as it is not below the header's. -/
theorem Awaits.read_more (h : Awaits c headerSize pending) (h2 : 2 ≤ headerSize)
    {f : Frame headerSize} {more : Bytes} (hf : f.bytes = (pending ++ chunk) ++ more)
    (hmore : more ≠ []) (hstale : headerSize ≤ c.msgSize ∨
      headerSize ≤ (pending ++ chunk).length) :
    c.read written chunk = some (c.received chunk) ∧
      Awaits (c.received chunk) headerSize (pending ++ chunk) ∧
      headerSize ≤ (c.received chunk).msgSize := by
  have hindex : (c.received chunk).index = (pending ++ chunk).length := by
    show c.index + chunk.length = _
    rw [h.index, List.length_append]
  have hpos := List.length_pos_iff.mpr hmore
  have hlen := congrArg List.length hf
  rw [f.length_bytes, List.length_append] at hlen
  have hsize := f.headerSize_lt
  -- the size is the frame's once the header is there, and the old one before
  have hmsg : (c.received chunk).index < (c.received chunk).msgSize ∧
      headerSize ≤ (c.received chunk).msgSize ∧
      (c.received chunk).msgSize < 256 ^ headerSize := by
    by_cases hheader : headerSize ≤ (pending ++ chunk).length
    · rw [h.received_msgSize h2 hf hheader, hindex]
      exact ⟨by omega, by omega, f.size_lt h2⟩
    · have hold : (c.received chunk).msgSize = c.msgSize := by
        apply if_neg
        show ¬ c.headerSize ≤ (c.received chunk).index
        rw [h.header, hindex]
        exact hheader
      have hle := hstale.resolve_right hheader
      rw [hold, hindex]
      exact ⟨by omega, hle, h.msgSize_lt⟩
  refine ⟨?_, ⟨h.isOpen, h.header, hindex, ?_, hmsg.2.2⟩, hmsg.2.1⟩
  · rw [read_open h.isOpen (h.room hf), if_pos hmsg.1]
  · rw [hindex, h.received_buf]

/-- The chunk that ends the frame has it decoded, and the next frame is awaited. -/
theorem Awaits.read_last (h : Awaits c headerSize pending) (h2 : 2 ≤ headerSize)
    {f : Frame headerSize} (hf : f.bytes = pending ++ chunk)
    (hnext : headerSize = 4 ∨ f.type = .srvMsgAttach) :
    ∃ c', c.read written chunk = some c' ∧ Awaits c' 4 [] ∧ 4 ≤ c'.msgSize ∧
      c'.decoded = c.decoded ++ [f.decoded] := by
  have hf' : f.bytes = (pending ++ chunk) ++ [] := by rw [hf, List.append_nil]
  have hlen : (pending ++ chunk).length = f.size := by rw [← hf, f.length_bytes]
  have hsize := f.headerSize_lt
  have hmsg : (c.received chunk).msgSize = f.size := h.received_msgSize h2 hf' (by omega)
  have hindex : (c.received chunk).index = f.size := by
    show c.index + chunk.length = _
    rw [h.index, ← List.length_append, hlen]
  have htake : (c.received chunk).buf.take f.size = f.bytes := by
    rw [← hlen, h.received_buf, hf]
  -- the buffer is the frame and whatever lay behind it
  obtain ⟨behind, hbuf⟩ : ∃ behind, (c.received chunk).buf = f.bytes ++ behind :=
    ⟨_, by rw [← htake, List.take_append_drop]⟩
  have hdata : (c.received chunk).buf.drop (c.received chunk).headerSize =
      le 2 f.type.code ++ (f.payload ++ behind) := by
    have hheader : (c.received chunk).headerSize = headerSize := h.header
    rw [hheader, hbuf, Frame.bytes, List.append_assoc, List.append_assoc,
      List.drop_left' (length_le headerSize f.size)]
  have htype : MessageType.ofCode
      (ofLe (((c.received chunk).buf.drop (c.received chunk).headerSize).take 2)) =
        some f.type := by
    have hcode : f.type.code < 256 ^ 2 := by cases f.type <;> decide
    rw [hdata, List.take_left' (length_le 2 _), ofLe_le, Nat.mod_eq_of_lt hcode,
      MessageType.ofCode_code]
  have hpayload : f.type.decode
      (((c.received chunk).buf.drop (c.received chunk).headerSize).drop 2) = some f.request := by
    rw [hdata, List.drop_left' (length_le 2 _)]
    exact MessageType.decode_extend f.decodes behind
  have hclosed : (c.received chunk).closed = false := h.isOpen
  have hdecoded : (c.received chunk).decoded = c.decoded := rfl
  have hheader : (c.received chunk).headerSize = headerSize := h.header
  refine ⟨dispatch written (c.received chunk), ?_, ?_⟩
  · rw [read_open h.isOpen (h.room hf'), if_neg (by omega)]
  · have hdispatch : dispatch written (c.received chunk) =
        { c.received chunk with
          index := 0
          headerSize := if f.type = .srvMsgAttach then 4 else (c.received chunk).headerSize
          buf := overwrite (c.received chunk).buf 0 (written (c.received chunk).decoded.length)
          decoded := (c.received chunk).decoded ++
            [⟨(c.received chunk).buf.take (c.received chunk).msgSize, f.request⟩] } := by
      simp only [dispatch, htype, hpayload]
    have hfour : (if f.type = .srvMsgAttach then 4 else headerSize) = 4 := by
      rcases hnext with h4 | hattach
      · subst h4
        exact ite_self 4
      · rw [if_pos hattach]
    have hlt : f.size < 256 ^ 4 := by
      have hle : f.size ≤ BUFFER_SIZE := f.size_le
      have hbound : BUFFER_SIZE < 256 ^ 4 := by decide
      omega
    rw [hdispatch, hmsg, htake, hheader, hfour]
    exact ⟨⟨hclosed, rfl, rfl, List.take_zero, by show (c.received chunk).msgSize < _; omega⟩,
      by show 4 ≤ f.size; omega, by rw [hdecoded]; rfl⟩

/-- **Frames cut at chunk ends are all decoded.** The induction is on the chunks; a
frame's header may still be missing when its first chunks are read. -/
theorem run_of_cuts {chunks : List Bytes} {frames : List Bytes}
    (hcuts : Cuts pending chunks frames) (f : Frame headerSize) (rest : List (Frame 4))
    (hframes : frames = f.bytes :: rest.map Frame.bytes) (h : Awaits c headerSize pending)
    (h2 : 2 ≤ headerSize) (hnext : headerSize = 4 ∨ f.type = .srvMsgAttach)
    (hstale : headerSize ≤ c.msgSize ∨
      ∀ chunk ∈ chunks.head?, headerSize ≤ (pending ++ chunk).length) :
    ∃ c', run written c chunks = some c' ∧
      c'.decoded = c.decoded ++ f.decoded :: rest.map Frame.decoded := by
  induction hcuts generalizing c headerSize rest with
  | done => cases hframes
  | @more pending chunk chunks frames hchunk hcuts ih =>
      subst hframes
      obtain ⟨more, hmore, hf⟩ := hcuts.pending_lt
      obtain ⟨hread, hawaits, hmsg⟩ := h.read_more written h2 hf hmore
        (hstale.imp_right fun hall => hall chunk rfl)
      obtain ⟨c', hrun, hdecoded⟩ := ih f rest rfl hawaits h2 hnext (.inl hmsg)
      refine ⟨c', ?_, hdecoded⟩
      rw [run, hread]
      exact hrun
  | @last pending chunk chunks frames hchunk hcuts ih =>
      simp only [List.cons.injEq] at hframes
      rcases hframes with ⟨hf, rfl⟩
      obtain ⟨c₁, hread, hawaits, hmsg, hdecoded⟩ :=
        h.read_last written h2 hf.symm hnext
      have hrun : run written c (chunk :: chunks) = run written c₁ chunks := by
        rw [run, hread]
        rfl
      rw [hrun]
      cases rest with
      | nil =>
          obtain ⟨-, rfl⟩ := hcuts.nil_frames
          exact ⟨c₁, rfl, hdecoded⟩
      | cons g rest =>
          obtain ⟨c', hrest, hall⟩ := ih g rest rfl hawaits (by decide) (.inl rfl) (.inl hmsg)
          refine ⟨c', hrest, ?_⟩
          rw [hall, hdecoded, List.append_assoc]
          rfl

/-- One byte is below the header, so the size is still 0 and the message counts as
complete; the type is read from the zeros behind it. -/
theorem read_lone_byte (written : ℕ → Bytes) (b : UInt8) :
    ∃ c, create.read written [b] = some c ∧ c.closed = true ∧ c.decoded = [] := by
  have hmsg : (create.received [b]).msgSize = 0 := rfl
  have hdata : ((create.received [b]).buf.drop 2).take 2 = [0, 0] := by
    show ((overwrite (List.replicate BUFFER_SIZE 0) 0 [b]).drop 2).take 2 = _
    rw [overwrite, List.drop_replicate]
    rfl
  have hdispatch : dispatch written (create.received [b]) =
      { create.received [b] with index := 0, closed := true } := by
    have hcode : ofLe [0, 0] = 0 := rfl
    have hheader : (create.received [b]).headerSize = 2 := rfl
    have hnone : MessageType.ofCode 0 = none := rfl
    simp only [dispatch, hheader, hdata, hcode, hnone]
  refine ⟨dispatch written (create.received [b]), ?_, ?_, ?_⟩
  · rw [read_open rfl (by show 1 ≤ BUFFER_SIZE; decide), hmsg, if_neg (Nat.not_lt_zero _)]
  · rw [hdispatch]
  · rw [hdispatch]
    rfl

theorem awaits_create : Awaits create 2 [] :=
  ⟨rfl, rfl, rfl, List.take_zero, by decide⟩

end Connection

/-! ## The segmentations that work -/

variable {s : ClientStream} {written : ℕ → Bytes}

theorem whole_of_decodes {g : Segmentation s} (h : DecodesExactly written s g) :
    WholeChunks g.chunks s.frames := by
  rcases h with ⟨c, hrun, hdecoded⟩
  have hsize : c.decodedSize = g.chunks.flatten.length := by
    rw [g.flatten, List.length_flatten, ← s.expected_frames, List.map_map,
      Connection.decodedSize, hdecoded]
    rfl
  obtain ⟨ds, hds, hcuts⟩ := Connection.cuts_of_run hrun g.nonempty (Nat.zero_le _)
    (by rw [hsize]; show _ = 0 + 0 + _; omega)
  have heq : ds = s.expected := by
    rw [← hdecoded, hds]
    rfl
  rw [heq, s.expected_frames] at hcuts
  exact hcuts.whole

theorem two_of_decodes {g : Segmentation s} (h : DecodesExactly written s g) :
    ∀ c ∈ g.chunks.head?, 2 ≤ c.length := by
  intro chunk hhead
  rcases h with ⟨c, hrun, hdecoded⟩
  cases hchunks : g.chunks with
  | nil =>
      rw [hchunks] at hhead
      cases hhead
  | cons x chunks =>
      rw [hchunks] at hhead hrun
      obtain rfl : x = chunk := by simpa using hhead
      have hpos := List.length_pos_iff.mpr
        (g.nonempty x (by rw [hchunks]; exact List.mem_cons_self))
      by_contra hlt
      obtain ⟨b, rfl⟩ := List.length_eq_one_iff.mp (show x.length = 1 by omega)
      obtain ⟨c₁, hread, hclosed, hnone⟩ := Connection.read_lone_byte written b
      rw [Connection.run, hread] at hrun
      change Connection.run written c₁ chunks = some c at hrun
      rw [Connection.run_closed hclosed] at hrun
      simp only [Option.some.injEq] at hrun
      subst hrun
      rw [hnone] at hdecoded
      cases hdecoded

/-- **Framing survives a segmentation exactly when no chunk holds bytes of two
frames and the first chunk is not a lone byte.** -/
theorem framing_iff (written : ℕ → Bytes) (s : ClientStream) (g : Segmentation s) :
    DecodesExactly written s g ↔
      WholeChunks g.chunks s.frames ∧ ∀ c ∈ g.chunks.head?, 2 ≤ c.length := by
  constructor
  · intro h
    exact ⟨whole_of_decodes h, two_of_decodes h⟩
  · rintro ⟨hwhole, htwo⟩
    have hcuts := hwhole.cuts g.nonempty s.frames_ne_nil
    obtain ⟨c, hrun, hdecoded⟩ := Connection.run_of_cuts written hcuts s.attach s.rest
      rfl Connection.awaits_create (Nat.le_refl 2) (.inr s.attach_type)
      (.inr fun chunk hchunk => by simpa using htwo chunk hchunk)
    exact ⟨c, hrun, hdecoded⟩

/-! ## Two frames in one chunk -/

def sampleAttach : Frame 2 where
  type := .srvMsgAttach
  payload := [117, 0, 97, 0, 1, 0, 13, 1]
  request := .attach [117] [97] 1 269
  decodes := by decide
  size_le := by decide

def sampleGetByName : Frame 4 where
  type := .srvMsgGetByName
  payload := [65, 0]
  request := .getByName [65]
  decodes := by decide
  size_le := by decide

/-- An attach and a get-by-name request, sent without waiting for the first answer. -/
def sampleStream : ClientStream where
  attach := sampleAttach
  attach_type := rfl
  rest := [sampleGetByName]

def oneChunk : Segmentation sampleStream where
  chunks := [sampleStream.frames.flatten]
  nonempty := by decide
  flatten := by decide

/-- The second request of a chunk is dropped. -/
theorem coalesced_request_dropped : ¬ DecodesExactly (fun _ => []) sampleStream oneChunk := by
  intro h
  have hlen := (whole_of_decodes h).length_le sampleStream.frames_ne_nil
  revert hlen
  decide

end AuroraSizing.Wire
