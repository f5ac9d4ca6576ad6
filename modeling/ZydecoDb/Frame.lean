import Mathlib
import ZydecoDb.Lib.Reader
import ZydecoDb.Manifest

namespace ZydecoDb

open Lib

structure ProtocolError where
  msg : String
deriving DecidableEq, Repr

abbrev FrameResult (α : Type) : Type := Except (Fault ProtocolError) α

def protocolError {α : Type} (msg : String) : FrameResult α := .error (.refused ⟨msg⟩)

def protoVersion : UInt8 := 0x01
def envelopeHeaderLen : Nat := 6

inductive Command
  | put | get | del
  | begin | commit | rollback
  | query | docPut | docDel | find | update | delete | count
  | docGetRev | findRev | docPutIfMatch | docUpdateIfMatch | aggregate | watch
  | indexDef | schemaDef
  | sessionInit | setContext | adminDropTenant | adminSealWal
  | ping | stats
deriving DecidableEq, Repr

namespace Command

def asU8 : Command → UInt8
  | put => 0x01
  | get => 0x02
  | del => 0x03
  | begin => 0x10
  | commit => 0x11
  | rollback => 0x12
  | query => 0x20
  | docPut => 0x21
  | docDel => 0x22
  | find => 0x23
  | update => 0x24
  | delete => 0x25
  | count => 0x26
  | docGetRev => 0x27
  | findRev => 0x28
  | docPutIfMatch => 0x29
  | docUpdateIfMatch => 0x2A
  | aggregate => 0x2B
  | watch => 0x2C
  | indexDef => 0x30
  | schemaDef => 0x31
  | sessionInit => 0x40
  | setContext => 0x41
  | adminDropTenant => 0x42
  | adminSealWal => 0x43
  | ping => 0xF0
  | stats => 0xF1

def fromU8 : UInt8 → Option Command
  | 0x01 => some put
  | 0x02 => some get
  | 0x03 => some del
  | 0x10 => some begin
  | 0x11 => some commit
  | 0x12 => some rollback
  | 0x20 => some query
  | 0x21 => some docPut
  | 0x22 => some docDel
  | 0x23 => some find
  | 0x24 => some update
  | 0x25 => some delete
  | 0x26 => some count
  | 0x27 => some docGetRev
  | 0x28 => some findRev
  | 0x29 => some docPutIfMatch
  | 0x2A => some docUpdateIfMatch
  | 0x2B => some aggregate
  | 0x2C => some watch
  | 0x30 => some indexDef
  | 0x31 => some schemaDef
  | 0x40 => some sessionInit
  | 0x41 => some setContext
  | 0x42 => some adminDropTenant
  | 0x43 => some adminSealWal
  | 0xF0 => some ping
  | 0xF1 => some stats
  | _ => none

theorem fromU8_asU8 (c : Command) : fromU8 c.asU8 = some c := by
  cases c <;> rfl

end Command

structure RequestEnvelope where
  command : Command
  payload : Bytes
deriving DecidableEq, Repr

inductive RequestHeader
  | known (command : Command) (len : Nat)
  | unknown (opcode : UInt8) (len : Nat)
deriving DecidableEq, Repr

def parseRequestHeader (header : Bytes) : FrameResult RequestHeader :=
  if header.length < envelopeHeaderLen then protocolError "short header"
  else do
    let version ← byteAt header 0
    if version ≠ protoVersion then
      protocolError ("unsupported protocol version 0x" ++ hexDigits version)
    else do
      let opcode ← byteAt header 1
      let len ← fieldAt 4 2 header
      match Command.fromU8 opcode with
      | some command => .ok (.known command len)
      | none => .ok (.unknown opcode len)

namespace RequestEnvelope

def encode (r : RequestEnvelope) : Bytes :=
  [protoVersion] ++ ([r.command.asU8] ++ (toBe 4 r.payload.length ++ r.payload))

def parseHeader (header : Bytes) : FrameResult (Command × Nat) := do
  match ← parseRequestHeader header with
  | .known command len => .ok (command, len)
  | .unknown opcode _ => protocolError ("unknown command 0x" ++ hexDigits opcode)

def decode (buf : Bytes) : FrameResult RequestEnvelope := do
  let (command, len) ← parseHeader buf
  let body ← slice buf envelopeHeaderLen buf.length
  if body.length < len then protocolError "truncated payload"
  else do
    let payload ← slice body 0 len
    .ok ⟨command, payload⟩

end RequestEnvelope

@[ext] structure RoutingKey where
  bytes : Bytes
  length_eq : bytes.length = 16
deriving Repr

instance decidableEqRoutingKey : DecidableEq RoutingKey := fun _ _ =>
  decidable_of_iff _ RoutingKey.ext_iff.symm

def RoutingKey.copyFrom (b : Bytes) : FrameResult RoutingKey :=
  if h : b.length = 16 then .ok ⟨b, h⟩ else .error .outOfBounds

structure PutPayload where
  routingKey : RoutingKey
  txid : UInt64
  expiresAt : UInt64
  key : Bytes
  value : Bytes
deriving DecidableEq, Repr

namespace PutPayload

def fixed : Nat := 16 + 8 + 8 + 4 + 4

def encode (p : PutPayload) : Bytes :=
  p.routingKey.bytes ++ (toBe 8 p.txid.toNat ++ (toBe 8 p.expiresAt.toNat ++
    (toBe 4 p.key.length ++ (toBe 4 p.value.length ++ (p.key ++ p.value)))))

def decode (p : Bytes) : FrameResult PutPayload :=
  if p.length < fixed then protocolError "PUT payload too short"
  else do
    let routingKey ← RoutingKey.copyFrom (← slice p 0 16)
    let txid ← fieldAt 8 16 p
    let expiresAt ← fieldAt 8 24 p
    let keyLen ← fieldAt 4 32 p
    let valueLen ← fieldAt 4 36 p
    if p.length ≠ fixed + keyLen + valueLen then protocolError "PUT payload length mismatch"
    else do
      let key ← slice p fixed (fixed + keyLen)
      let value ← slice p (fixed + keyLen) p.length
      .ok ⟨routingKey, UInt64.ofNat txid, UInt64.ofNat expiresAt, key, value⟩

end PutPayload

structure KeyPayload where
  routingKey : RoutingKey
  snapshotSeq : UInt64
  key : Bytes
deriving DecidableEq, Repr

namespace KeyPayload

def fixed : Nat := 16 + 8 + 4

def encode (p : KeyPayload) : Bytes :=
  p.routingKey.bytes ++ (toBe 8 p.snapshotSeq.toNat ++ (toBe 4 p.key.length ++ p.key))

def decode (p : Bytes) : FrameResult KeyPayload :=
  if p.length < fixed then protocolError "key payload too short"
  else do
    let routingKey ← RoutingKey.copyFrom (← slice p 0 16)
    let snapshotSeq ← fieldAt 8 16 p
    let keyLen ← fieldAt 4 24 p
    if p.length ≠ fixed + keyLen then protocolError "key payload length mismatch"
    else do
      let key ← slice p fixed p.length
      .ok ⟨routingKey, UInt64.ofNat snapshotSeq, key⟩

end KeyPayload

end ZydecoDb
