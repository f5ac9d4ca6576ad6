import ZydecoDb.Sstable
import ZydecoDb.Lib.FrameLog

namespace ZydecoDb

open Lib

inductive ManifestRecord
  | sstableAdd (m : SstableMeta)
  | sstableRemove (id : Nat)
  | seqCheckpoint (lastDurableSeq : Nat)
  | walTruncate (upToSegmentId : Nat)
deriving DecidableEq, Repr

def recSstableAdd : UInt8 := 0x01
def recSstableRemove : UInt8 := 0x02
def recSeqCheckpoint : UInt8 := 0x03
def recWalTruncate : UInt8 := 0x04

namespace ManifestRecord

def payload : ManifestRecord → Bytes
  | .sstableAdd m =>
    toBe 8 m.id ++ [UInt8.ofNat m.level] ++ toBe 4 m.minKey.length ++ m.minKey ++
      toBe 4 m.maxKey.length ++ m.maxKey ++ toBe 8 m.minSeq ++ toBe 8 m.maxSeq ++ toBe 8 m.sizeBytes
  | .sstableRemove id => toBe 8 id
  | .seqCheckpoint lastDurableSeq => toBe 8 lastDurableSeq
  | .walTruncate upToSegmentId => toBe 8 upToSegmentId

def typeByte : ManifestRecord → UInt8
  | .sstableAdd _ => recSstableAdd
  | .sstableRemove _ => recSstableRemove
  | .seqCheckpoint _ => recSeqCheckpoint
  | .walTruncate _ => recWalTruncate

end ManifestRecord

def frameBody (rtype : UInt8) (payload : Bytes) : Bytes :=
  rtype :: (toBe 4 payload.length ++ payload)

def manifestShort : EngineError := .io "manifest: short record payload"

def readU64 (p : Bytes) (off : Nat) : Except EngineError Nat :=
  if off + 8 ≤ p.length then .ok (ofBe ((p.drop off).take 8)) else .error manifestShort

def readU8 (p : Bytes) (off : Nat) : Except EngineError Nat :=
  match p[off]? with
  | some b => .ok b.toNat
  | none => .error manifestShort

def readBytes (p : Bytes) (off : Nat) : Except EngineError (Bytes × Nat) :=
  if off + 4 ≤ p.length then
    let len := ofBe ((p.drop off).take 4)
    if off + 4 + len ≤ p.length then .ok ((p.drop (off + 4)).take len, 4 + len)
    else .error manifestShort
  else .error manifestShort

def decodeSstableMeta (p : Bytes) : Except EngineError SstableMeta :=
  (readU64 p 0).bind fun id =>
  (readU8 p 8).bind fun level =>
  (readBytes p 9).bind fun minKey =>
  (readBytes p (9 + minKey.2)).bind fun maxKey =>
  (readU64 p (9 + minKey.2 + maxKey.2)).bind fun minSeq =>
  (readU64 p (9 + minKey.2 + maxKey.2 + 8)).bind fun maxSeq =>
  (readU64 p (9 + minKey.2 + maxKey.2 + 16)).map fun sizeBytes =>
    ⟨id, level, minKey.1, maxKey.1, minSeq, maxSeq, sizeBytes⟩

def hexDigits (b : UInt8) : String :=
  String.ofList [Nat.digitChar (b.toNat / 16), Nat.digitChar (b.toNat % 16)]

def decodePayload (rtype : UInt8) (p : Bytes) : Except EngineError ManifestRecord :=
  if rtype = recSstableAdd then (decodeSstableMeta p).map .sstableAdd
  else if rtype = recSstableRemove then (readU64 p 0).map .sstableRemove
  else if rtype = recSeqCheckpoint then (readU64 p 0).map .seqCheckpoint
  else if rtype = recWalTruncate then (readU64 p 0).map .walTruncate
  else .error (.unsupportedFormat ("manifest: unknown record type 0x" ++ hexDigits rtype))

section Crc

-- `crc32fast::hash` is code outside the repository; nothing is assumed of it.
variable (crc : Bytes → UInt32)

def ManifestRecord.encode (r : ManifestRecord) : Bytes :=
  frameBody r.typeByte r.payload ++ toBe 4 (crc (frameBody r.typeByte r.payload)).toNat

def ManifestRecord.decodeOne (buf : Bytes) : Except EngineError (Option (ManifestRecord × Nat)) :=
  match buf with
  | [] => .ok none
  | rtype :: rest =>
    if buf.length < 5 then .ok none
    else
      let len := ofBe (rest.take 4)
      if buf.length < 5 + len + 4 then .ok none
      else if (crc (buf.take (5 + len))).toNat ≠ ofBe ((buf.drop (5 + len)).take 4) then
        .error (.io "manifest: CRC mismatch")
      else (decodePayload rtype ((buf.take (5 + len)).drop 5)).map fun r => some (r, 5 + len + 4)

end Crc

def SstableMeta.Fits (m : SstableMeta) : Prop :=
  m.id < 256 ^ 8 ∧ m.level < 256 ∧ m.minKey.length ≤ maxKeyBytes ∧ m.maxKey.length ≤ maxKeyBytes ∧
    m.minSeq < 256 ^ 8 ∧ m.maxSeq < 256 ^ 8 ∧ m.sizeBytes < 256 ^ 8

instance (m : SstableMeta) : Decidable m.Fits :=
  inferInstanceAs (Decidable (_ ∧ _ ∧ _ ∧ _ ∧ _ ∧ _ ∧ _))

def ManifestRecord.Fits : ManifestRecord → Prop
  | .sstableAdd m => m.Fits
  | .sstableRemove id => id < 256 ^ 8
  | .seqCheckpoint lastDurableSeq => lastDurableSeq < 256 ^ 8
  | .walTruncate upToSegmentId => upToSegmentId < 256 ^ 8

instance : (r : ManifestRecord) → Decidable r.Fits
  | .sstableAdd m => inferInstanceAs (Decidable m.Fits)
  | .sstableRemove id => inferInstanceAs (Decidable (id < 256 ^ 8))
  | .seqCheckpoint seq => inferInstanceAs (Decidable (seq < 256 ^ 8))
  | .walTruncate id => inferInstanceAs (Decidable (id < 256 ^ 8))

structure ManifestState where
  liveSstables : List SstableMeta
  lastDurableSeq : Nat
  walTruncatedUpTo : Nat
deriving DecidableEq, Repr

def ManifestState.default : ManifestState := ⟨[], 0, 0⟩

def ManifestState.apply (s : ManifestState) : ManifestRecord → ManifestState
  | .sstableAdd m =>
    { s with lastDurableSeq := max s.lastDurableSeq m.maxSeq, liveSstables := s.liveSstables ++ [m] }
  | .sstableRemove id => { s with liveSstables := s.liveSstables.filter fun m => m.id ≠ id }
  | .seqCheckpoint lastDurableSeq =>
    { s with lastDurableSeq := max s.lastDurableSeq lastDurableSeq }
  | .walTruncate upToSegmentId =>
    { s with walTruncatedUpTo := max s.walTruncatedUpTo upToSegmentId }

def compactionRecords (newMetas inputMetas : List SstableMeta) : List ManifestRecord :=
  newMetas.map .sstableAdd ++ inputMetas.map fun m => .sstableRemove m.id

def ManifestState.ofRecords (recs : List ManifestRecord) : ManifestState :=
  recs.foldl ManifestState.apply .default

end ZydecoDb
