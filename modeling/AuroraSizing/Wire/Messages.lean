import AuroraSizing.Foundation.Bytes
import AuroraSizing.Objects.Messages

/-!
# The requests of the TCP middleware

`MsgProcessor::decode` reads a 2-byte type and hands the rest to the message of
that type. A message decodes in place, out of the connection's buffer: it never
looks at the length of the frame, and its strings end at the first NUL within a
window. `MessageType.decode` answers `none` where `memchr` finds no NUL, after
which the code computes with a null pointer.
-/

namespace AuroraSizing.Wire

open Foundation.Bytes

/-- The types `MsgProcessor::decode` has a message for. -/
inductive MessageType where
  | srvMsgAttach
  | srvMsgGetByName
  | srvMsgNameLookup
deriving DecidableEq, Repr

def MessageType.code : MessageType → ℕ
  | .srvMsgAttach => 1
  | .srvMsgGetByName => 4
  | .srvMsgNameLookup => 11

def MessageType.ofCode : ℕ → Option MessageType
  | 1 => some .srvMsgAttach
  | 4 => some .srvMsgGetByName
  | 11 => some .srvMsgNameLookup
  | _ => none

theorem MessageType.ofCode_code (t : MessageType) : ofCode t.code = some t := by
  cases t <;> rfl

/-- The fields of `AttachRequest`, `GetByNameRequest` and `NameLookupRequest`. -/
inductive Request where
  | attach (userName appName : Bytes) (version revision : BitVec 16)
  | getByName (securityName : Bytes)
  | nameLookup (type count : BitVec 16) (namePrefix : Bytes)
deriving DecidableEq, Repr

def USER_NAME_SIZE : ℕ := 32
def APP_NAME_SIZE : ℕ := 32
def SEC_NAME_SIZE : ℕ := 32

def SrvAttach.decode (data : Bytes) : Option Request := do
  let (userName, data) ← cString USER_NAME_SIZE data
  let (appName, data) ← cString APP_NAME_SIZE data
  let (version, data) ← readN 2 data
  let (revision, _) ← readN 2 data
  return .attach userName appName (leBits 16 version) (leBits 16 revision)

def SrvMsgGetByName.decode (data : Bytes) : Option Request := do
  let (securityName, _) ← cString SEC_NAME_SIZE data
  return .getByName securityName

def SRVMsgNameLookup.decode (data : Bytes) : Option Request := do
  let (type, data) ← readN 2 data
  let (count, data) ← readN 2 data
  let (namePrefix, _) ← cString SEC_NAME_SIZE data
  return .nameLookup (leBits 16 type) (leBits 16 count) namePrefix

def MessageType.decode : MessageType → Bytes → Option Request
  | .srvMsgAttach => SrvAttach.decode
  | .srvMsgGetByName => SrvMsgGetByName.decode
  | .srvMsgNameLookup => SRVMsgNameLookup.decode

/-- Decoding in a buffer sees nothing of what lies behind the request. -/
theorem MessageType.decode_extend {t : MessageType} {payload : Bytes} {r : Request}
    (h : t.decode payload = some r) (more : Bytes) : t.decode (payload ++ more) = some r := by
  cases t with
  | srvMsgAttach =>
      simp only [MessageType.decode, SrvAttach.decode, Option.bind_eq_bind,
        Option.bind_eq_some_iff, Prod.exists] at h ⊢
      rcases h with
        ⟨user, d1, huser, app, d2, happ, version, d3, hversion, revision, d4, hrevision, hr⟩
      exact ⟨user, _, cString_extend huser more, app, _, cString_extend happ more,
        version, _, readN_extend hversion more, revision, _, readN_extend hrevision more, hr⟩
  | srvMsgGetByName =>
      simp only [MessageType.decode, SrvMsgGetByName.decode, Option.bind_eq_bind,
        Option.bind_eq_some_iff, Prod.exists] at h ⊢
      rcases h with ⟨name, d1, hname, hr⟩
      exact ⟨name, _, cString_extend hname more, hr⟩
  | srvMsgNameLookup =>
      simp only [MessageType.decode, SRVMsgNameLookup.decode, Option.bind_eq_bind,
        Option.bind_eq_some_iff, Prod.exists] at h ⊢
      rcases h with ⟨type, d1, htype, count, d2, hcount, pre, d3, hpre, hr⟩
      exact ⟨type, _, readN_extend htype more, count, _, readN_extend hcount more,
        pre, _, cString_extend hpre more, hr⟩

end AuroraSizing.Wire
