import AuroraSizing.Wire.Capacity
import AuroraSizing.Wire.Framing

/-!
# What the decoder sees behind the frame

`MsgProcessor::decode` gets a pointer into the connection's buffer and no length. Behind the
frame the buffer holds what earlier requests and responses left there, and a message whose
fields do not end inside the frame takes the rest from that. Only a type no message has is
ever rejected. `depends_on_frame_iff` says which frames do not notice.
-/

namespace AuroraSizing.Wire

open Foundation.Bytes Foundation.Utf8 Lookup

/-! ## Outcomes -/

/-- What a call of `MsgProcessor::decode` comes to. -/
inductive Outcome where
  | decoded (type : MessageType) (request : Request)
  /-- No message has the type, and the socket is closed. -/
  | rejected
  /-- `memchr` found no NUL, and a string is made of the distance from there to null. -/
  | strayed
deriving DecidableEq, Repr

def MsgProcessor.outcome (data : Bytes) : Outcome :=
  match MessageType.ofCode (ofLe (data.take 2)) with
  | none => .rejected
  | some type =>
      match type.decode (data.drop 2) with
      | none => .strayed
      | some request => .decoded type request

namespace MsgProcessor

theorem decode_eq_outcome (data : Bytes) :
    decode data = match outcome data with
      | .decoded type request => some (type, request)
      | .rejected => none
      | .strayed => none := by
  unfold decode outcome
  cases htype : MessageType.ofCode (ofLe (data.take 2)) with
  | none => rfl
  | some type =>
      cases hrequest : type.decode (data.drop 2) with
      | none => simp only [hrequest, Option.bind_eq_bind, Option.bind_some, Option.bind_none]
      | some request =>
          simp only [hrequest, Option.bind_eq_bind, Option.bind_some]
          rfl

theorem outcome_eq_rejected_iff {data : Bytes} :
    outcome data = .rejected ↔ MessageType.ofCode (ofLe (data.take 2)) = none := by
  unfold outcome
  cases MessageType.ofCode (ofLe (data.take 2)) with
  | none => simp
  | some type =>
      cases hrequest : type.decode (data.drop 2) with
      | none => simp [hrequest]
      | some request => simp [hrequest]

theorem outcome_of_type {t : MessageType} {data : Bytes} (h : data.take 2 = le 2 t.code) :
    outcome data = match t.decode (data.drop 2) with
      | none => .strayed
      | some request => .decoded t request := by
  rw [outcome, h, ofLe_le, Nat.mod_eq_of_lt t.code_lt, MessageType.ofCode_code]

end MsgProcessor

theorem MessageType.code_of_ofCode {n : ℕ} {t : MessageType} (h : MessageType.ofCode n = some t) :
    n = t.code := by
  unfold MessageType.ofCode at h
  split at h <;> cases h <;> rfl

/-! ## Fields inside the frame -/

/-- The string of the message, or one of them, has no NUL inside the payload and its
window. -/
def MessageType.Unterminated : MessageType → Bytes → Prop
  | .srvMsgAttach, payload =>
      0 ∉ payload.take USER_NAME_SIZE ∨
        ∃ userName rest, payload = userName ++ 0 :: rest ∧ userName.length < USER_NAME_SIZE ∧
          0 ∉ userName ∧ 0 ∉ rest.take APP_NAME_SIZE
  | .srvMsgGetByName, payload => 0 ∉ payload.take SEC_NAME_SIZE
  | .srvMsgNameLookup, payload => 0 ∉ (payload.drop 4).take SEC_NAME_SIZE

/-- Every field of the message ends inside the payload. -/
inductive MessageType.Contained : MessageType → Bytes → Prop where
  | attach {userName appName rest : Bytes} :
      userName.length < USER_NAME_SIZE → 0 ∉ userName → appName.length < APP_NAME_SIZE →
      0 ∉ appName → 4 ≤ rest.length →
      Contained .srvMsgAttach (userName ++ 0 :: (appName ++ 0 :: rest))
  | getByName {securityName rest : Bytes} :
      securityName.length < SEC_NAME_SIZE → 0 ∉ securityName →
      Contained .srvMsgGetByName (securityName ++ 0 :: rest)
  | nameLookup {fields namePrefix rest : Bytes} :
      fields.length = 4 → namePrefix.length < SEC_NAME_SIZE → 0 ∉ namePrefix →
      Contained .srvMsgNameLookup (fields ++ (namePrefix ++ 0 :: rest))

theorem SrvAttach.decode_fields (userName appName rest : Bytes)
    (huser : userName.length < USER_NAME_SIZE ∧ 0 ∉ userName)
    (happ : appName.length < APP_NAME_SIZE ∧ 0 ∉ appName) (hrest : 4 ≤ rest.length) :
    SrvAttach.decode (userName ++ 0 :: (appName ++ 0 :: rest)) =
      some (.attach userName appName (leBits 16 (rest.take 2))
        (leBits 16 ((rest.drop 2).take 2))) := by
  have hversion : readN 2 rest = some (rest.take 2, rest.drop 2) := if_pos (by omega)
  have hrevision : readN 2 (rest.drop 2) = some ((rest.drop 2).take 2, (rest.drop 2).drop 2) := by
    apply if_pos
    rw [List.length_drop]
    omega
  simp only [SrvAttach.decode, cString_append huser.1 huser.2, cString_append happ.1 happ.2,
    hversion, hrevision, Option.bind_eq_bind, Option.bind_some]
  rfl

/-- A message reads its fields inside the payload exactly when they end there. -/
theorem MessageType.Contained.decode {t : MessageType} {payload : Bytes}
    (h : t.Contained payload) : ∃ request, t.decode payload = some request := by
  cases h with
  | attach huser huserNul happ happNul hrest =>
      exact ⟨_, SrvAttach.decode_fields _ _ _ ⟨huser, huserNul⟩ ⟨happ, happNul⟩ hrest⟩
  | @getByName securityName rest hname hnul =>
      refine ⟨.getByName securityName, ?_⟩
      simp only [MessageType.decode, SrvMsgGetByName.decode, cString_append hname hnul,
        Option.bind_eq_bind, Option.bind_some]
      rfl
  | @nameLookup fields namePrefix rest hfields hname hnul =>
      obtain ⟨type, count, rfl, htype, hcount⟩ : ∃ type count, fields = type ++ count ∧
          type.length = 2 ∧ count.length = 2 :=
        ⟨fields.take 2, fields.drop 2, (List.take_append_drop 2 fields).symm, by simp [hfields],
          by simp [hfields]⟩
      refine ⟨.nameLookup (leBits 16 type) (leBits 16 count) namePrefix, ?_⟩
      simp only [MessageType.decode, SRVMsgNameLookup.decode, List.append_assoc,
        readN_append htype, readN_append hcount, cString_append hname hnul, Option.bind_eq_bind,
        Option.bind_some]
      rfl

theorem MessageType.Contained.not_unterminated {t : MessageType} {payload : Bytes}
    (h : t.Contained payload) : ¬ t.Unterminated payload := by
  cases h with
  | @attach userName appName rest huser huserNul happ happNul hrest =>
      rintro (hnone | ⟨userName', rest', heq, huser', huserNul', hnone⟩)
      · rw [← cString_eq_none_iff, cString_append huser huserNul] at hnone
        cases hnone
      · have hsame := cString_eq_some_iff.mpr ⟨heq, huser', huserNul'⟩
        rw [cString_append huser huserNul] at hsame
        cases hsame
        rw [← cString_eq_none_iff, cString_append happ happNul] at hnone
        cases hnone
  | getByName hname hnul =>
      intro hnone
      rw [MessageType.Unterminated, ← cString_eq_none_iff, cString_append hname hnul] at hnone
      cases hnone
  | nameLookup hfields hname hnul =>
      intro hnone
      rw [MessageType.Unterminated, List.drop_left' hfields, ← cString_eq_none_iff,
        cString_append hname hnul] at hnone
      cases hnone

/-- A payload that does not contain its message has a string without its NUL, or the two
numbers of an attach run over its end. -/
theorem MessageType.not_contained {t : MessageType} {payload : Bytes} (h : ¬ t.Contained payload) :
    t.Unterminated payload ∨
      t = .srvMsgAttach ∧ ∃ userName appName rest,
        payload = userName ++ 0 :: (appName ++ 0 :: rest) ∧
        (userName.length < USER_NAME_SIZE ∧ 0 ∉ userName) ∧
        (appName.length < APP_NAME_SIZE ∧ 0 ∉ appName) ∧ rest.length < 4 := by
  cases t with
  | srvMsgAttach =>
      cases huser : cString USER_NAME_SIZE payload with
      | none => exact .inl (.inl (cString_eq_none_iff.mp huser))
      | some p =>
          obtain ⟨userName, data⟩ := p
          obtain ⟨rfl, huserLt, huserNul⟩ := cString_eq_some_iff.mp huser
          cases happ : cString APP_NAME_SIZE data with
          | none =>
              exact .inl (.inr ⟨userName, data, rfl, huserLt, huserNul,
                cString_eq_none_iff.mp happ⟩)
          | some q =>
              obtain ⟨appName, rest⟩ := q
              obtain ⟨rfl, happLt, happNul⟩ := cString_eq_some_iff.mp happ
              refine .inr ⟨rfl, userName, appName, rest, rfl, ⟨huserLt, huserNul⟩,
                ⟨happLt, happNul⟩, ?_⟩
              by_contra hrest
              exact h (.attach huserLt huserNul happLt happNul (by omega))
  | srvMsgGetByName =>
      left
      show 0 ∉ payload.take SEC_NAME_SIZE
      rw [← cString_eq_none_iff]
      cases hname : cString SEC_NAME_SIZE payload with
      | none => rfl
      | some p =>
          obtain ⟨rfl, hlt, hnul⟩ := cString_eq_some_iff.mp hname
          exact absurd (.getByName hlt hnul) h
  | srvMsgNameLookup =>
      left
      show 0 ∉ (payload.drop 4).take SEC_NAME_SIZE
      rw [← cString_eq_none_iff]
      cases hname : cString SEC_NAME_SIZE (payload.drop 4) with
      | none => rfl
      | some p =>
          obtain ⟨hdrop, hlt, hnul⟩ := cString_eq_some_iff.mp hname
          have hfour : (payload.take 4).length = 4 := by
            have hpos := congrArg List.length hdrop
            simp only [List.length_drop, List.length_append, List.length_cons] at hpos
            rw [List.length_take]
            omega
          have hcontained : Contained .srvMsgNameLookup (payload.take 4 ++ (p.1 ++ 0 :: p.2)) :=
            .nameLookup hfour hlt hnul
          rw [← hdrop, List.take_append_drop] at hcontained
          exact absurd hcontained h

/-! ## Histories -/

/-- What a connection went through, an attach among it: any chunks of a client, answered with
what the middleware encodes for its requests. -/
structure History where
  col : Collation
  data : ℕ
  memory : Memory
  table : StoredTable
  written : ℕ → Bytes
  chunks : List Bytes
  connection : Connection
  run : Connection.run written .create chunks = some connection
  answered : ∀ n d, connection.decoded[n]? = some d →
    Encodes col data memory table d.request (written n)
  isOpen : connection.closed = false
  attached : connection.headerSize = 4

/-- A message after attach: any bytes, behind a length that counts them. -/
structure RawFrame where
  bytes : Bytes
  header : 4 ≤ bytes.length
  fits : bytes.length ≤ BUFFER_SIZE
  declared : ofLe (bytes.take 4) = bytes.length

namespace RawFrame

def data (f : RawFrame) : Bytes := f.bytes.drop 4

/-- The message its type selects has a string without a NUL in the frame and the window. -/
def Unterminated (f : RawFrame) : Prop :=
  ∃ t : MessageType, f.data.take 2 = le 2 t.code ∧ t.Unterminated (f.data.drop 2)

/-- No message has its type, whatever bytes would complete it. -/
def Unknown (f : RawFrame) : Prop := ∀ t : MessageType, ¬ f.data.take 2 <+: le 2 t.code

/-- Its type and all fields of the message that has it end inside the frame. -/
def Contained (f : RawFrame) : Prop :=
  ∃ t : MessageType, f.data.take 2 = le 2 t.code ∧ t.Contained (f.data.drop 2)

end RawFrame

namespace History

/-- The chunk completes the frame, whose first bytes the history may have left pending. -/
structure Completes (h : History) (chunk : Bytes) (f : RawFrame) : Prop where
  room : h.connection.index + chunk.length ≤ BUFFER_SIZE
  complete : (h.connection.received chunk).msgSize ≤ (h.connection.received chunk).index
  frame : (h.connection.received chunk).buf.take (h.connection.received chunk).msgSize = f.bytes

/-- What decoding comes to when the chunk has completed a frame. -/
def outcome (h : History) (chunk : Bytes) : Outcome :=
  MsgProcessor.outcome ((h.connection.received chunk).buf.drop 4)

/-- `Connection::read` on the chunk: a request is handed on, and nothing else is. -/
theorem Completes.read {h : History} {chunk : Bytes} {f : RawFrame} (hc : h.Completes chunk f) :
    ∃ c, h.connection.read h.written chunk = some c ∧
      c.decoded = h.connection.decoded ++ match h.outcome chunk with
        | .decoded _ request => [⟨f.bytes, request⟩]
        | .rejected => []
        | .strayed => [] := by
  refine ⟨Connection.dispatch h.written (h.connection.received chunk), ?_, ?_⟩
  · rw [Connection.read_open h.isOpen hc.room, if_neg (Nat.not_lt.mpr hc.complete)]
  · have hheader : (h.connection.received chunk).headerSize = 4 := h.attached
    rw [Connection.dispatch_eq, hheader, MsgProcessor.decode_eq_outcome, hc.frame]
    have hsame : (h.connection.received chunk).decoded = h.connection.decoded := rfl
    unfold outcome
    cases MsgProcessor.outcome ((h.connection.received chunk).buf.drop 4) with
    | decoded type request => rfl
    | rejected => exact (List.append_nil _).symm
    | strayed => exact (List.append_nil _).symm

/-- The decoder sees the frame, and behind it what the buffer holds. -/
theorem Completes.outcome_eq {h : History} {chunk : Bytes} {f : RawFrame}
    (hc : h.Completes chunk f) :
    ∃ stale, h.outcome chunk = MsgProcessor.outcome (f.data ++ stale) := by
  refine ⟨(h.connection.received chunk).buf.drop (h.connection.received chunk).msgSize, ?_⟩
  rw [outcome]
  nth_rewrite 1 [← List.take_append_drop (h.connection.received chunk).msgSize
    (h.connection.received chunk).buf]
  rw [hc.frame, List.drop_append_of_le_length f.header]
  rfl

end History

/-- **Decoding depends only on the frame**: any two histories come to the same, and a string
without its NUL has the frame rejected. -/
structure RawFrame.DependsOnFrame (f : RawFrame) : Prop where
  same : ∀ h₁ chunk₁ h₂ chunk₂, History.Completes h₁ chunk₁ f → History.Completes h₂ chunk₂ f →
    h₁.outcome chunk₁ = h₂.outcome chunk₂
  unterminated : f.Unterminated → ∀ h chunk, History.Completes h chunk f →
    h.outcome chunk = .rejected

/-! ## Frames that contain their message -/

/-- Whatever follows it, a type no message has is rejected. -/
theorem RawFrame.Unknown.outcome {f : RawFrame} (h : f.Unknown) (stale : Bytes) :
    MsgProcessor.outcome (f.data ++ stale) = .rejected := by
  rw [MsgProcessor.outcome_eq_rejected_iff]
  by_contra hsome
  obtain ⟨t, ht⟩ := Option.ne_none_iff_exists'.mp hsome
  have hcode := MessageType.code_of_ofCode ht
  have htype : (f.data ++ stale).take 2 <+: le 2 t.code := by
    rw [← hcode]
    exact le_prefix_ofLe (List.length_take_le 2 _)
  have hdata : f.data.take 2 <+: (f.data ++ stale).take 2 := by
    rw [List.take_append]
    exact List.prefix_append _ _
  exact h t (hdata.trans htype)

theorem RawFrame.Contained.outcome {f : RawFrame} (h : f.Contained) :
    ∃ t request, ∀ stale, MsgProcessor.outcome (f.data ++ stale) = .decoded t request := by
  obtain ⟨t, htype, hfields⟩ := h
  obtain ⟨request, hrequest⟩ := hfields.decode
  refine ⟨t, request, ?_⟩
  intro stale
  have hlen : 2 ≤ f.data.length := by
    have htwo := congrArg List.length htype
    rw [List.length_take, length_le] at htwo
    omega
  have htake : (f.data ++ stale).take 2 = le 2 t.code := by
    rw [List.take_append_of_le_length hlen, htype]
  have hdrop : (f.data ++ stale).drop 2 = f.data.drop 2 ++ stale :=
    List.drop_append_of_le_length hlen
  rw [MsgProcessor.outcome_of_type htake, hdrop, MessageType.decode_extend hrequest]

theorem MessageType.code_inj {t t' : MessageType} (h : le 2 t.code = le 2 t'.code) : t = t' := by
  cases t <;> cases t' <;> first | rfl | exact absurd h (by decide)

theorem RawFrame.Contained.not_unterminated {f : RawFrame} (h : f.Contained) :
    ¬ f.Unterminated := by
  rintro ⟨t', htype', hunterminated⟩
  obtain ⟨t, htype, hfields⟩ := h
  obtain rfl := MessageType.code_inj (htype.symm.trans htype')
  exact hfields.not_unterminated hunterminated

theorem RawFrame.Unknown.dependsOnFrame {f : RawFrame} (h : f.Unknown) : f.DependsOnFrame where
  same h₁ chunk₁ h₂ chunk₂ hc₁ hc₂ := by
    obtain ⟨stale₁, hout₁⟩ := hc₁.outcome_eq
    obtain ⟨stale₂, hout₂⟩ := hc₂.outcome_eq
    rw [hout₁, hout₂, h.outcome, h.outcome]
  unterminated _ h₁ chunk hc := by
    obtain ⟨stale, hout⟩ := hc.outcome_eq
    rw [hout, h.outcome]

theorem RawFrame.Contained.dependsOnFrame {f : RawFrame} (h : f.Contained) :
    f.DependsOnFrame where
  same h₁ chunk₁ h₂ chunk₂ hc₁ hc₂ := by
    obtain ⟨stale₁, hout₁⟩ := hc₁.outcome_eq
    obtain ⟨stale₂, hout₂⟩ := hc₂.outcome_eq
    obtain ⟨t, request, hall⟩ := h.outcome
    rw [hout₁, hout₂, hall, hall]
  unterminated hunterminated := absurd hunterminated h.not_unterminated

/-! ## What clients may leave in the buffer -/

theorem Connection.dispatch_buf {written : ℕ → Bytes} {c : Connection}
    (hopen : (dispatch written c).closed = false) :
    (dispatch written c).buf = overwrite c.buf 0 (written c.decoded.length) := by
  rw [Connection.dispatch_eq] at hopen ⊢
  cases hdecode : MsgProcessor.decode (c.buf.drop c.headerSize) with
  | none =>
      rw [hdecode] at hopen
      cases hopen
  | some p => rfl

/-- A frame in one chunk leaves itself in the buffer, and over that the response. -/
theorem Connection.Awaits.read_frame {c : Connection} {headerSize : ℕ}
    (h : Awaits c headerSize []) (written : ℕ → Bytes) (h2 : 2 ≤ headerSize)
    (f : Frame headerSize) (hnext : headerSize = 4 ∨ f.type = .srvMsgAttach) :
    ∃ c', c.read written f.bytes = some c' ∧ Awaits c' 4 [] ∧
      c'.decoded = c.decoded ++ [f.decoded] ∧
      c'.buf = overwrite (f.bytes ++ c.buf.drop f.bytes.length) 0 (written c.decoded.length) := by
  obtain ⟨c', hread, hawaits, -, hdecoded⟩ :=
    h.read_last written h2 (show f.bytes = [] ++ f.bytes from rfl) hnext
  refine ⟨c', hread, hawaits, hdecoded, ?_⟩
  have hlonger : c.decoded.length ≠ c'.decoded.length := by
    rw [hdecoded, List.length_append, List.length_singleton]
    omega
  have hindex : c.index = 0 := h.index
  rcases Connection.read_cases hread with ⟨-, rfl⟩ | ⟨-, rfl, -⟩ | ⟨-, rfl, -⟩
  · exact absurd rfl hlonger
  · exact absurd rfl hlonger
  · rw [Connection.dispatch_buf hawaits.isOpen, Wire.received_buf hindex]
    rfl

/-- An attach of two empty names with bytes of the client's choice behind it. -/
def attachWith (junk : Bytes) (h2 : 2 ≤ junk.length) (hroom : 8 + junk.length ≤ BUFFER_SIZE) :
    Frame 2 where
  type := .srvMsgAttach
  payload := [0, 0, 1, 0] ++ junk
  request := .attach [] [] 1 (leBits 16 (junk.take 2))
  decodes := by
    have hrest : 4 ≤ ([1, 0] ++ junk : Bytes).length := by
      rw [List.length_append]
      exact Nat.add_le_add_left h2 2
    exact SrvAttach.decode_fields [] [] ([1, 0] ++ junk) ⟨by decide, by decide⟩
      ⟨by decide, by decide⟩ hrest
  size_le := by
    rw [List.length_append]
    show 2 + 2 + (4 + junk.length) ≤ BUFFER_SIZE
    omega

/-- What the buffer holds after that attach and its response. -/
def leftBy (junk : Bytes) : Bytes :=
  SrvAttach.encode SrvAttach.response ++
    (junk ++ List.replicate (BUFFER_SIZE - (8 + junk.length)) 0)

theorem length_attachResponse : (SrvAttach.encode SrvAttach.response).length = 8 := by decide

theorem read_attachWith (written : ℕ → Bytes)
    (hwritten : written 0 = SrvAttach.encode SrvAttach.response) (junk : Bytes)
    (h2 : 2 ≤ junk.length) (hroom : 8 + junk.length ≤ BUFFER_SIZE) :
    ∃ c, Connection.create.read written (attachWith junk h2 hroom).bytes = some c ∧
      c.Awaits 4 [] ∧ c.decoded = [(attachWith junk h2 hroom).decoded] ∧
      c.buf = leftBy junk := by
  obtain ⟨c, hread, hawaits, hdecoded, hbuf⟩ := Connection.awaits_create.read_frame written
    (Nat.le_refl 2) (attachWith junk h2 hroom) (.inr rfl)
  refine ⟨c, hread, hawaits, hdecoded, ?_⟩
  -- the first eight bytes go under the response
  have hsize : (attachWith junk h2 hroom).bytes.length = 8 + junk.length := by
    rw [Frame.length_bytes, Frame.size, attachWith, List.length_append]
    show 2 + 2 + (4 + junk.length) = _
    omega
  have hbytes : (attachWith junk h2 hroom).bytes = (le 2 (8 + junk.length) ++
      (le 2 MessageType.srvMsgAttach.code ++ [0, 0, 1, 0])) ++ junk := by
    rw [← hsize, Frame.length_bytes, Frame.bytes, attachWith]
    simp only [List.append_assoc]
  have hzeros : Connection.create.buf.drop (8 + junk.length) =
      List.replicate (BUFFER_SIZE - (8 + junk.length)) 0 := List.drop_replicate
  have hlen : (le 2 (8 + junk.length) ++
      (le 2 MessageType.srvMsgAttach.code ++ [0, 0, 1, 0])).length =
        (SrvAttach.encode SrvAttach.response).length := by
    rw [length_attachResponse, List.length_append, List.length_append, length_le, length_le]
    rfl
  have hnone : Connection.create.decoded.length = 0 := rfl
  rw [hbuf, hsize, hbytes, hzeros, hnone, hwritten, List.append_assoc, overwrite_front hlen, leftBy]

/-- A history of an attach only. -/
theorem exists_attached (junk : Bytes) (h2 : 2 ≤ junk.length)
    (hroom : 8 + junk.length ≤ BUFFER_SIZE) :
    ∃ h : History, h.connection.Awaits 4 [] ∧ h.connection.buf = leftBy junk := by
  obtain ⟨c, hread, hawaits, hdecoded, hbuf⟩ :=
    read_attachWith (fun _ => SrvAttach.encode SrvAttach.response) rfl junk h2 hroom
  refine ⟨⟨.codePoints, 0, fun _ => 0, largeTable, fun _ => SrvAttach.encode SrvAttach.response,
    [(attachWith junk h2 hroom).bytes], c, ?_, ?_, hawaits.isOpen, hawaits.header⟩, hawaits, hbuf⟩
  · rw [Connection.run, hread]
    rfl
  · intro n d hd
    rw [hdecoded, List.getElem?_singleton] at hd
    split at hd
    · cases hd
      exact .attach _ _ _ _
    · cases hd

/-- A history of an attach and a request, over which its response is written. -/
theorem exists_answered {col : Collation} {data : ℕ} {memory : Memory} {table : StoredTable}
    (g : Frame 4) {response : Bytes} (hanswer : Encodes col data memory table g.request response) :
    ∃ h : History, h.connection.Awaits 4 [] ∧ ∃ before, h.connection.buf =
      overwrite before 0 response := by
  obtain ⟨written, hzero, hone⟩ : ∃ written : ℕ → Bytes,
      written 0 = SrvAttach.encode SrvAttach.response ∧ written 1 = response :=
    ⟨fun n => if n = 0 then SrvAttach.encode SrvAttach.response else response, rfl, rfl⟩
  obtain ⟨c, hread, hawaits, hdecoded, -⟩ :=
    read_attachWith written hzero [0, 0] (by decide) (by decide)
  obtain ⟨c', hread', hawaits', hdecoded', hbuf'⟩ :=
    hawaits.read_frame written (by decide) g (.inl rfl)
  have hlen : c.decoded.length = 1 := by rw [hdecoded, List.length_singleton]
  refine ⟨⟨col, data, memory, table, written,
    [(attachWith [0, 0] (by decide) (by decide)).bytes, g.bytes], c', ?_, ?_, hawaits'.isOpen,
    hawaits'.header⟩, hawaits', g.bytes ++ c.buf.drop g.bytes.length, ?_⟩
  · rw [Connection.run, hread, Option.bind_some, Connection.run, hread']
    rfl
  · intro n d hd
    rw [hdecoded', hdecoded] at hd
    rcases n with _ | _ | n
    · cases hd
      rw [hzero]
      exact .attach _ _ _ _
    · cases hd
      rw [hone]
      exact hanswer
    · cases hd
  · rw [hbuf', hlen, hone]

/-- Any frame can follow, in one chunk. -/
theorem History.completes {h : History} (hawaits : h.connection.Awaits 4 []) (f : RawFrame) :
    h.Completes f.bytes f ∧
      h.outcome f.bytes =
        MsgProcessor.outcome (f.data ++ h.connection.buf.drop f.bytes.length) := by
  have hindex : h.connection.index = 0 := hawaits.index
  have hbuf : (h.connection.received f.bytes).buf =
      f.bytes ++ h.connection.buf.drop f.bytes.length := received_buf hindex _
  have hsize : (h.connection.received f.bytes).msgSize = f.bytes.length := by
    have hthere : h.connection.headerSize ≤ h.connection.index + f.bytes.length := by
      rw [h.attached, hindex, Nat.zero_add]
      exact f.header
    have hmsg : (h.connection.received f.bytes).msgSize =
        ofLe ((h.connection.received f.bytes).buf.take h.connection.headerSize ++
          (le 8 h.connection.msgSize).drop h.connection.headerSize) := if_pos hthere
    have hfour : (f.bytes.take 4).length = 4 := by rw [List.length_take, Nat.min_eq_left f.header]
    have hlow : ofLe (f.bytes.take 4 ++ (le 8 h.connection.msgSize).drop (f.bytes.take 4).length) =
        ofLe (f.bytes.take 4) := by
      apply ofLe_low
      rw [hfour]
      exact hawaits.msgSize_lt
    rw [hmsg, hbuf, h.attached, List.take_append_of_le_length f.header, ← f.declared, ← hlow, hfour]
  have hall : (h.connection.received f.bytes).index = f.bytes.length := by
    show h.connection.index + f.bytes.length = _
    rw [hindex, Nat.zero_add]
  refine ⟨⟨?_, ?_, ?_⟩, ?_⟩
  · rw [hindex, Nat.zero_add]
    exact f.fits
  · rw [hsize, hall]
  · rw [hsize, hbuf, List.take_left]
  · rw [History.outcome, hbuf, List.drop_append_of_le_length f.header]
    rfl

/-! ## Frames that do not contain their message -/

theorem MsgProcessor.outcome_ne_rejected {t : MessageType} {data : Bytes}
    (h : data.take 2 = le 2 t.code) : outcome data ≠ .rejected := by
  rw [outcome_of_type h]
  cases hrequest : t.decode (data.drop 2) with
  | none => simp
  | some request => simp

/-- A frame with its type is never rejected, so its strings must end in it. -/
theorem RawFrame.DependsOnFrame.terminated {f : RawFrame} (h : f.DependsOnFrame) :
    ¬ f.Unterminated := by
  intro hunterminated
  have ⟨t, htype, _⟩ := hunterminated
  obtain ⟨past, hawaits, -⟩ := exists_attached [0, 0] (by decide) (by decide)
  obtain ⟨hcompletes, houtcome⟩ := past.completes hawaits f
  have hrejected := h.unterminated hunterminated past f.bytes hcompletes
  have hlen : 2 ≤ f.data.length := by
    have htwo := congrArg List.length htype
    rw [List.length_take, length_le] at htwo
    omega
  rw [houtcome] at hrejected
  have htake : (f.data ++ past.connection.buf.drop f.bytes.length).take 2 = le 2 t.code := by
    rw [List.take_append_of_le_length hlen, htype]
  exact MsgProcessor.outcome_ne_rejected htake hrejected

/-- What one client's byte leaves behind a short frame. -/
theorem drop_leftBy {z : UInt8} {n : ℕ} (h8 : 8 ≤ n) (hn : n ≤ 84) :
    ∃ more, (leftBy (List.replicate 80 z)).drop n = List.replicate 4 z ++ more := by
  obtain ⟨k, rfl⟩ : ∃ k, n = 8 + k := ⟨n - 8, by omega⟩
  have hsplit : (List.replicate 80 z).drop k = List.replicate 4 z ++ List.replicate (76 - k) z := by
    rw [List.drop_replicate, ← List.replicate_add]
    congr 1
    omega
  refine ⟨List.replicate (76 - k) z ++
    List.replicate (BUFFER_SIZE - (8 + (List.replicate 80 z).length)) 0, ?_⟩
  rw [leftBy, ← List.drop_drop, List.drop_left' length_attachResponse, ← List.append_assoc,
    ← hsplit, List.drop_append_of_le_length (by rw [List.length_replicate]; omega)]

/-- The high byte of a revision whose first bytes are `rest`. -/
theorem high_byte {rest : Bytes} (hrest : rest.length < 4) (z : UInt8) (more : Bytes) :
    (((rest ++ (List.replicate 4 z ++ more)).drop 2).take 2).length = 2 ∧
      (((rest ++ (List.replicate 4 z ++ more)).drop 2).take 2)[1]? = some z := by
  constructor
  · rw [List.length_take, List.length_drop, List.length_append, List.length_append,
      List.length_replicate]
    omega
  · rw [List.getElem?_take_of_lt (by decide), List.getElem?_drop,
      List.getElem?_append_right (by omega), List.getElem?_append_left (by
        rw [List.length_replicate]
        omega), List.getElem?_replicate, if_pos (by omega)]

/-- A short attach after another one that left bytes `z` behind it. -/
theorem RawFrame.outcome_of_short {f : RawFrame} {userName appName rest : Bytes}
    (htype : f.data.take 2 = le 2 MessageType.srvMsgAttach.code)
    (hdata : f.data.drop 2 = userName ++ 0 :: (appName ++ 0 :: rest))
    (huser : userName.length < USER_NAME_SIZE ∧ 0 ∉ userName)
    (happ : appName.length < APP_NAME_SIZE ∧ 0 ∉ appName) (hrest : rest.length < 4) (z : UInt8) :
    ∃ (past : History) (more : Bytes), past.Completes f.bytes f ∧
      past.outcome f.bytes = .decoded .srvMsgAttach (.attach userName appName
        (leBits 16 ((rest ++ (List.replicate 4 z ++ more)).take 2))
        (leBits 16 (((rest ++ (List.replicate 4 z ++ more)).drop 2).take 2))) := by
  have hlen : f.bytes.length = 6 + (userName.length + 1 + (appName.length + 1 + rest.length)) := by
    have hall := congrArg List.length (List.take_append_drop 2 f.data)
    have hheader := f.header
    rw [htype, hdata, data] at hall
    simp only [List.length_append, List.length_cons, length_le, List.length_drop] at hall
    omega
  have huserLt : userName.length < 32 := huser.1
  have happLt : appName.length < 32 := happ.1
  obtain ⟨past, hawaits, hbuf⟩ := exists_attached (List.replicate 80 z) (by simp) (by
    rw [List.length_replicate]
    decide)
  obtain ⟨hcompletes, houtcome⟩ := past.completes hawaits f
  obtain ⟨more, hmore⟩ := drop_leftBy (z := z) (n := f.bytes.length) (by omega) (by omega)
  refine ⟨past, more, hcompletes, ?_⟩
  have htwo : 2 ≤ f.data.length := by
    rw [data, List.length_drop]
    omega
  have htake : (f.data ++ (List.replicate 4 z ++ more)).take 2 =
      le 2 MessageType.srvMsgAttach.code := by
    rw [List.take_append_of_le_length htwo, htype]
  have hdrop : (f.data ++ (List.replicate 4 z ++ more)).drop 2 =
      userName ++ 0 :: (appName ++ 0 :: (rest ++ (List.replicate 4 z ++ more))) := by
    rw [List.drop_append_of_le_length htwo, hdata]
    simp only [List.append_assoc, List.cons_append]
  rw [houtcome, hbuf, hmore, MsgProcessor.outcome_of_type htake, hdrop, MessageType.decode,
    SrvAttach.decode_fields _ _ _ huser happ (by
      rw [List.length_append, List.length_append, List.length_replicate]
      omega)]

/-- An attach whose revision runs over the frame takes its high byte from there. -/
theorem RawFrame.DependsOnFrame.not_short {f : RawFrame} (h : f.DependsOnFrame)
    {userName appName rest : Bytes} (htype : f.data.take 2 = le 2 MessageType.srvMsgAttach.code)
    (hdata : f.data.drop 2 = userName ++ 0 :: (appName ++ 0 :: rest))
    (huser : userName.length < USER_NAME_SIZE ∧ 0 ∉ userName)
    (happ : appName.length < APP_NAME_SIZE ∧ 0 ∉ appName) : 4 ≤ rest.length := by
  by_contra hlong
  have hrest : rest.length < 4 := Nat.lt_of_not_le hlong
  obtain ⟨past₀, more₀, hcompletes₀, houtcome₀⟩ :=
    f.outcome_of_short htype hdata huser happ hrest 0
  obtain ⟨past₁, more₁, hcompletes₁, houtcome₁⟩ :=
    f.outcome_of_short htype hdata huser happ hrest 1
  have hsame := h.same past₀ f.bytes past₁ f.bytes hcompletes₀ hcompletes₁
  rw [houtcome₀, houtcome₁, Outcome.decoded.injEq, Request.attach.injEq] at hsame
  have hbytes := leBits_inj (show 16 = 8 * 2 by rfl) (high_byte hrest 0 more₀).1
    (high_byte hrest 1 more₁).1 hsame.2.2.2.2
  have hzero := (high_byte hrest 0 more₀).2
  rw [hbytes, (high_byte hrest 1 more₁).2] at hzero
  exact absurd hzero (by decide)

/-! ## Frames without their type -/

/-- One object with nothing in it. -/
def smallTable : StoredTable where
  rows := [{ largeRow with mem := [] }]
  objectTypeidName := List.nodup_singleton _
  objectLowerName := List.nodup_singleton _
  objectName := List.nodup_singleton _
  name_lt := by
    intro r hr
    rw [List.mem_singleton.mp hr]
    decide
  mem_lt := by
    intro r hr
    rw [List.mem_singleton.mp hr]
    decide

/-- The client asks for it. -/
def getSmall : Frame 4 where
  type := .srvMsgGetByName
  payload := encode "a" ++ [0]
  request := .getByName (encode "a")
  decodes := by decide
  size_le := by decide

/-- The answer leaves its status where the next frame's type goes. -/
theorem exists_found : ∃ h : History, h.connection.Awaits 4 [] ∧
    ∃ more, h.connection.buf.drop 4 = le 2 MessageType.srvMsgAttach.code ++ more := by
  have hlookup : Foundation.KeyedRows.lookup ObjectRow.nameLower smallTable.rows "a" =
      some { largeRow with mem := [] } := by decide
  have hanswer : Encodes .codePoints 0 (fun _ => 0) smallTable (.getByName (encode "a")) _ :=
    .getByName "a"
  obtain ⟨h, hawaits, before, hbuf⟩ := exists_answered getSmall hanswer
  rw [hlookup, Option.map_some, encode_security] at hbuf
  refine ⟨h, hawaits, ?_⟩
  rw [hbuf, overwrite, List.take_zero, List.nil_append, List.append_assoc,
    List.drop_left' (length_le 4 _), List.append_assoc]
  exact ⟨_, rfl⟩

theorem MessageType.ofCode_of_large {n : ℕ} (h : 11 < n) : MessageType.ofCode n = none := by
  cases hcode : MessageType.ofCode n with
  | none => rfl
  | some t =>
      have hn := MessageType.code_of_ofCode hcode
      have hle : t.code ≤ 11 := by cases t <;> decide
      omega

/-- A frame that ends before its type does takes the rest from the last response. -/
theorem RawFrame.DependsOnFrame.typed {f : RawFrame} (h : f.DependsOnFrame) {t : MessageType}
    (hpre : f.data.take 2 <+: le 2 t.code) : f.data.take 2 = le 2 t.code := by
  by_contra hne
  have hshort : f.data.length < 2 := by
    by_contra hlong
    refine hne (hpre.eq_of_length ?_)
    rw [List.length_take, length_le]
    omega
  have hall : f.data.take 2 = f.data := List.take_of_length_le hshort.le
  rw [hall] at hpre
  have hlen : f.bytes.length = 4 + f.data.length := by
    have hheader := f.header
    rw [data, List.length_drop]
    omega
  -- after an attach the type is none
  obtain ⟨past₀, hawaits₀, hbuf₀⟩ := exists_attached [0, 0] (by decide) (by decide)
  obtain ⟨hcompletes₀, houtcome₀⟩ := past₀.completes hawaits₀ f
  -- after an answered get-by-name it is one
  obtain ⟨past₁, hawaits₁, more, hbuf₁⟩ := exists_found
  obtain ⟨hcompletes₁, houtcome₁⟩ := past₁.completes hawaits₁ f
  have hsame := h.same past₀ f.bytes past₁ f.bytes hcompletes₀ hcompletes₁
  have hleft : (leftBy [0, 0]).drop 4 = [9, 128] ++ ([33, 0] ++
      ([0, 0] ++ List.replicate (BUFFER_SIZE - 10) 0)) := rfl
  have hrejected : past₀.outcome f.bytes = .rejected := by
    rw [houtcome₀, MsgProcessor.outcome_eq_rejected_iff, hbuf₀, hlen, ← List.drop_drop, hleft]
    apply MessageType.ofCode_of_large
    match hdata : f.data with
    | [] => decide
    | [b] =>
        show 11 < b.toNat + 256 * (128 + 256 * 0)
        omega
    | b :: b' :: rest =>
        rw [hdata, List.length_cons, List.length_cons] at hshort
        omega
  have hknown : past₁.outcome f.bytes ≠ .rejected := by
    rw [houtcome₁, hlen, ← List.drop_drop, hbuf₁]
    match hdata : f.data with
    | [] => exact MsgProcessor.outcome_ne_rejected (t := .srvMsgAttach) rfl
    | [b] =>
        rw [hdata] at hpre
        apply MsgProcessor.outcome_ne_rejected (t := t)
        cases t <;> obtain ⟨rest, hrest⟩ := hpre <;> cases hrest <;> rfl
    | b :: b' :: rest =>
        rw [hdata, List.length_cons, List.length_cons] at hshort
        omega
  exact hknown (hsame ▸ hrejected)

/-- **Decoding depends only on the frame exactly when** the frame holds its type and every
field of that message, or no message could have its type. -/
theorem depends_on_frame_iff (f : RawFrame) : f.DependsOnFrame ↔ f.Unknown ∨ f.Contained := by
  constructor
  · intro h
    by_cases hunknown : f.Unknown
    · exact .inl hunknown
    · right
      rw [RawFrame.Unknown] at hunknown
      obtain ⟨t, hpre⟩ := not_forall.mp hunknown
      have hpre := not_not.mp hpre
      have htype := h.typed hpre
      refine ⟨t, htype, ?_⟩
      by_contra hnot
      rcases MessageType.not_contained hnot with
        hunterminated | ⟨rfl, userName, appName, rest, hdata, huser, happ, hrest⟩
      · exact h.terminated ⟨t, htype, hunterminated⟩
      · have hfour := h.not_short htype hdata huser happ
        omega
  · rintro (hunknown | hcontained)
    · exact hunknown.dependsOnFrame
    · exact hcontained.dependsOnFrame

/-- A get-by-name whose name goes to the end of the frame, without a NUL. -/
def unterminatedName : RawFrame where
  bytes := [8, 0, 0, 0, 4, 0, 65, 66]
  header := by decide
  fits := by decide
  declared := by decide

/-- The name is AB in one history and ABC in another, and is never rejected. -/
theorem unterminatedName_depends_on_history :
    (∃ h₁ h₂ : History, h₁.Completes unterminatedName.bytes unterminatedName ∧
        h₂.Completes unterminatedName.bytes unterminatedName ∧
        h₁.outcome unterminatedName.bytes = .decoded .srvMsgGetByName (.getByName [65, 66]) ∧
        h₂.outcome unterminatedName.bytes = .decoded .srvMsgGetByName (.getByName [65, 66, 67])) ∧
      unterminatedName.Unterminated ∧ ¬ unterminatedName.DependsOnFrame := by
  obtain ⟨h₁, hawaits₁, hbuf₁⟩ := exists_attached [0, 0] (by decide) (by decide)
  obtain ⟨h₂, hawaits₂, hbuf₂⟩ := exists_attached [67, 0] (by decide) (by decide)
  obtain ⟨hcompletes₁, houtcome₁⟩ := h₁.completes hawaits₁ unterminatedName
  obtain ⟨hcompletes₂, houtcome₂⟩ := h₂.completes hawaits₂ unterminatedName
  have hleft : ∀ x y : UInt8, (leftBy [x, y]).drop 8 =
      x :: y :: List.replicate (BUFFER_SIZE - 10) 0 := fun _ _ => rfl
  have hlen : unterminatedName.bytes.length = 8 := rfl
  rw [hbuf₁, hlen, hleft] at houtcome₁
  rw [hbuf₂, hlen, hleft] at houtcome₂
  have hfirst : h₁.outcome unterminatedName.bytes =
      .decoded .srvMsgGetByName (.getByName [65, 66]) := houtcome₁
  have hsecond : h₂.outcome unterminatedName.bytes =
      .decoded .srvMsgGetByName (.getByName [65, 66, 67]) := houtcome₂
  refine ⟨⟨h₁, h₂, hcompletes₁, hcompletes₂, hfirst, hsecond⟩,
    ⟨.srvMsgGetByName, rfl, by unfold MessageType.Unterminated; decide⟩, ?_⟩
  intro h
  have hsame := h.same h₁ unterminatedName.bytes h₂ unterminatedName.bytes hcompletes₁ hcompletes₂
  rw [hfirst, hsecond] at hsame
  revert hsame
  decide

end AuroraSizing.Wire
