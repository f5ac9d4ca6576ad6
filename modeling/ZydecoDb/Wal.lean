import ZydecoDb.Engine
import ZydecoDb.Lib.FrameLog

namespace ZydecoDb

open Lib

def walPut : UInt8 := 0x01
def walDel : UInt8 := 0x02
def walBatch : UInt8 := 0x03

def entryFixed : Nat := 25
def batchHeader : Nat := 13
def batchOpFixed : Nat := 17

def walFormatVersion : UInt8 := 0x02
def segmentHeaderLen : Nat := 9

structure WalRecord where
  command : UInt8
  seq : Nat
  expiresAt : Nat
  key : Bytes
  value : Bytes
deriving DecidableEq, Repr

structure WalOp where
  command : UInt8
  expiresAt : Nat
  key : Bytes
  value : Bytes
deriving DecidableEq, Repr

structure WalBatch where
  seq : Nat
  ops : List WalOp
deriving DecidableEq, Repr

inductive WalEntry
  | single (record : WalRecord)
  | batch (batch : WalBatch)
deriving DecidableEq, Repr

def opToMemtablePair (seq : Nat) (op : WalOp) : Version :=
  if op.command = walDel then ⟨op.key, seq, .tombstone⟩
  else ⟨op.key, seq, .value op.value (if op.expiresAt = 0 then none else some op.expiresAt)⟩

def WalRecord.toMemtablePair (r : WalRecord) : Version :=
  opToMemtablePair r.seq ⟨r.command, r.expiresAt, r.key, r.value⟩

namespace WalEntry

def seq : WalEntry → Nat
  | .single r => r.seq
  | .batch b => b.seq

def intoMemtablePairs : WalEntry → List Version
  | .single r => [r.toMemtablePair]
  | .batch b => b.ops.map (opToMemtablePair b.seq)

end WalEntry

def WalRecord.body (r : WalRecord) : Bytes :=
  r.command :: (toBe 8 r.seq ++ (toBe 8 r.expiresAt ++ (toBe 4 r.key.length ++
    (toBe 4 r.value.length ++ (r.key ++ r.value)))))

def WalOp.bytes (op : WalOp) : Bytes :=
  op.command :: (toBe 8 op.expiresAt ++ (toBe 4 op.key.length ++
    (toBe 4 op.value.length ++ (op.key ++ op.value))))

def WalBatch.body (b : WalBatch) : Bytes :=
  walBatch :: (toBe 8 b.seq ++ (toBe 4 b.ops.length ++ b.ops.flatMap WalOp.bytes))

def WalEntry.body : WalEntry → Bytes
  | .single r => r.body
  | .batch b => b.body

def decodeOps (buf : Bytes) : Nat → Nat → Except EngineError (Option (List WalOp × Nat))
  | 0, offset => .ok (some ([], offset))
  | count + 1, offset =>
    if buf.length < offset + batchOpFixed then .ok none
    else
      let command := buf.getD offset 0
      let keyLen := beAt 4 (offset + 9) buf
      let valueLen := beAt 4 (offset + 13) buf
      let opEnd := offset + batchOpFixed + keyLen + valueLen
      if buf.length < opEnd then .ok none
      else if command ≠ walPut ∧ command ≠ walDel then
        .error (.io "WAL: bad batch op command byte")
      else
        (decodeOps buf count opEnd).map fun rest => rest.map fun p =>
          (⟨command, beAt 8 (offset + 1) buf, (buf.drop (offset + batchOpFixed)).take keyLen,
            (buf.drop (offset + batchOpFixed + keyLen)).take valueLen⟩ :: p.1, p.2)

section Crc

-- `crc32fast::hash` is code outside the repository; nothing is assumed of it.
variable (crc : Bytes → UInt32)

def WalEntry.encode (e : WalEntry) : Bytes := e.body ++ toBe 4 (crc e.body).toNat

def decodeSingle (buf : Bytes) : Except EngineError (Option (WalEntry × Nat)) :=
  if buf.length < entryFixed + 4 then .ok none
  else
    let keyLen := beAt 4 17 buf
    let valueLen := beAt 4 21 buf
    let bodyEnd := entryFixed + keyLen + valueLen
    if buf.length < bodyEnd + 4 then .ok none
    else if beAt 4 bodyEnd buf ≠ (crc (buf.take bodyEnd)).toNat then
      .error (.io "WAL: CRC mismatch (torn write)")
    else
      .ok (some (.single ⟨buf.getD 0 0, beAt 8 1 buf, beAt 8 9 buf,
        (buf.drop entryFixed).take keyLen, (buf.drop (entryFixed + keyLen)).take valueLen⟩,
        bodyEnd + 4))

def decodeBatch (buf : Bytes) : Except EngineError (Option (WalEntry × Nat)) :=
  if buf.length < batchHeader then .ok none
  else
    match decodeOps buf (beAt 4 9 buf) batchHeader with
    | .error e => .error e
    | .ok none => .ok none
    | .ok (some (ops, offset)) =>
      if buf.length < offset + 4 then .ok none
      else if beAt 4 offset buf ≠ (crc (buf.take offset)).toNat then
        .error (.io "WAL: batch CRC mismatch (torn write)")
      else .ok (some (.batch ⟨beAt 8 1 buf, ops⟩, offset + 4))

def WalEntry.decodeOne (buf : Bytes) : Except EngineError (Option (WalEntry × Nat)) :=
  match buf with
  | [] => .ok none
  | command :: _ =>
    if command = walBatch then decodeBatch crc buf
    else if command = walPut ∨ command = walDel then decodeSingle crc buf
    else .error (.io "WAL: bad command byte")

end Crc

def frameOps (buf : Bytes) : Nat → Nat → Option Nat
  | 0, offset => some offset
  | count + 1, offset =>
    if buf.length < offset + batchOpFixed then none
    else frameOps buf count
      (offset + batchOpFixed + beAt 4 (offset + 9) buf + beAt 4 (offset + 13) buf)

/-- The length of the frame at the front by its length fields, whatever its checksum. The sums are
of 32-bit fields within a buffer, so none of the checked additions fails. -/
def frameLen (buf : Bytes) : Option Nat :=
  match buf with
  | [] => none
  | command :: _ =>
    if command = walPut ∨ command = walDel then
      if buf.length < entryFixed then none
      else some (entryFixed + beAt 4 17 buf + beAt 4 21 buf + 4)
    else if command = walBatch then
      if buf.length < batchHeader then none
      else (frameOps buf (beAt 4 9 buf) batchHeader).map (· + 4)
    else none

inductive ReplayOutcome
  | clean
  | tornTail
  | corruption
deriving DecidableEq, Repr

def WalRecord.Fits (r : WalRecord) : Prop :=
  (r.command = walPut ∨ r.command = walDel) ∧ r.seq < 256 ^ 8 ∧ r.expiresAt < 256 ^ 8 ∧
    r.key.length < 256 ^ 4 ∧ r.value.length < 256 ^ 4

def WalOp.Fits (op : WalOp) : Prop :=
  (op.command = walPut ∨ op.command = walDel) ∧ op.expiresAt < 256 ^ 8 ∧
    op.key.length < 256 ^ 4 ∧ op.value.length < 256 ^ 4

def WalEntry.Fits : WalEntry → Prop
  | .single r => r.Fits
  | .batch b => b.seq < 256 ^ 8 ∧ b.ops.length < 256 ^ 4 ∧ ∀ op ∈ b.ops, op.Fits

instance WalRecord.decidableFits (r : WalRecord) : Decidable r.Fits :=
  inferInstanceAs (Decidable (_ ∧ _ ∧ _ ∧ _ ∧ _))

instance WalOp.decidableFits (op : WalOp) : Decidable op.Fits :=
  inferInstanceAs (Decidable (_ ∧ _ ∧ _ ∧ _))

instance WalEntry.decidableFits : (e : WalEntry) → Decidable e.Fits
  | .single r => inferInstanceAs (Decidable r.Fits)
  | .batch b => inferInstanceAs (Decidable (_ ∧ _ ∧ ∀ op ∈ b.ops, op.Fits))

end ZydecoDb
