import ZydecoDb.Document.IndexViews
import ZydecoDb.Lib.Chunks

namespace ZydecoDb

open Lib ZDocBuilder ValueView

def ttlExpiry (secs : Nat) : Option Nat → Nat
  | some ms => min (ms + min (secs * 1000) u64Max) u64Max
  | none => 0

def numberMillis : Value → Option Nat
  | .number (.posInt n) => some n.toNat
  | .number n => some (f64BitsToU64 n.asF64.toNat)
  | _ => none

def deriveTtlExpiresAtJson (doc : Value) (idx : IndexMeta) : Nat :=
  match idx.expireAfterSeconds, idx.fields.head? with
  | some secs, some field => ttlExpiry secs (numberMillis (extractPath doc field))
  | _, _ => 0

def deriveTtlExpiresAtView (view : ValueView) (idx : IndexMeta) : Nat :=
  match idx.expireAfterSeconds, idx.fields.head? with
  | some secs, some field =>
    match getPath view field with
    | some v => ttlExpiry secs (((asF64 v).map fun bits => f64BitsToU64 bits.toNat).or
        ((asI64 v).map fun i => i.toUInt64.toNat))
    | none => 0
  | _, _ => 0

section

variable (parseJson : Bytes → Except String Value) (storagePrefix : Bytes) (collectionId : UInt32)
  (idx : IndexMeta)

def backfillEntry : Bytes → DocResult (Option (Bytes × Nat))
  | [] => .error (.corrupt "empty stored document body")
  | kind :: payload =>
    if kind = vkZdoc then
      .ok (some (encodeFieldsFromViewWithDirections payload idx.fields idx.ascending,
        deriveTtlExpiresAtView payload idx))
    else match parseJson payload with
      | .error _ => .ok none
      | .ok doc => .ok (some (encodedFields idx doc, deriveTtlExpiresAtJson doc idx))

def stampTtlInline : Bool := idx.expireAfterSeconds.isSome && !idx.unique

def backfillRow (row : Bytes × Bytes) : DocResult (List BatchOp) :=
  (backfillEntry parseJson idx row.2).map fun
    | none => []
    | some (enc, expiresAt) =>
      let docId := row.1.drop (docPrefix storagePrefix collectionId).length
      .put (indexKey storagePrefix collectionId idx.id enc docId) docId expiresAt ::
        if stampTtlInline idx ∧ expiresAt ≠ 0 then [.put row.1 row.2 expiresAt] else []

def stampRow (row : Bytes × Bytes) : DocResult (List BatchOp) :=
  (backfillEntry parseJson idx row.2).map fun
    | none => []
    | some (_, expiresAt) => if expiresAt = 0 then [] else [.put row.1 row.2 expiresAt]

def removeRow (row : Bytes × Bytes) : DocResult (List BatchOp) := .ok [.del row.1]

structure BackfillEngine where
  scan : List (List BatchOp) → Bytes → Bytes → List (DocResult (Bytes × Bytes))
  writeBatch : List (List BatchOp) → List BatchOp → Except EngineError Unit

variable (engine : BackfillEngine)

def submitBatch {α : Type} (sent : List (List BatchOp)) (ops : List BatchOp) (a : α) :
    List (List BatchOp) × DocResult α :=
  (sent ++ [ops], match engine.writeBatch sent ops with
    | .ok () => .ok a
    | .error e => .error (.engine e))

/-- The loop the backfill, the stamps and the removal share: the operations of the rows are
gathered, and written once `MAX_BATCH_KEYS` of them are there or the rows end. -/
def writeRows (rowOps : Bytes × Bytes → DocResult (List BatchOp)) :
    List (List BatchOp) → List BatchOp → Nat → List (DocResult (Bytes × Bytes)) →
      List (List BatchOp) × DocResult Nat
  | sent, pending, n, [] =>
    if pending = [] then (sent, .ok n) else submitBatch engine sent pending n
  | sent, pending, n, item :: items =>
    match item.bind rowOps with
    | .error e => (sent, .error e)
    | .ok ops =>
      let n := if ops = [] then n else n + 1
      if maxBatchKeys ≤ (pending ++ ops).length then
        match submitBatch engine sent (pending ++ ops) n with
        | (sent, .error e) => (sent, .error e)
        | (sent, .ok n) => writeRows rowOps sent [] n items
      else writeRows rowOps sent (pending ++ ops) n items

def hasDuplicate (header : Nat) : Option Bytes → List (DocResult (Bytes × Bytes)) → DocResult Bool
  | _, [] => .ok false
  | prev, item :: items => item.bind fun row =>
    let enc := (row.1.take (row.1.length - row.2.length)).drop header
    if prev = some enc then .ok true else hasDuplicate header (some enc) items

-- a character that is not ASCII counts as printable
def debugByte (b : UInt8) : Bytes :=
  match b with
  | 0x00 => text "\\0"
  | 0x09 => text "\\t"
  | 0x0A => text "\\n"
  | 0x0D => text "\\r"
  | 0x22 => text "\\\""
  | 0x5C => text "\\\\"
  | b =>
    if b < 0x20 ∨ b = 0x7F then
      text "\\u\x7b" ++ text (String.ofList (Nat.toDigits 16 b.toNat)) ++ text "\x7d"
    else [b]

def debugFields (fields : List Bytes) : Bytes :=
  text "[" ++ ((fields.map fun f => text "\"" ++ f.flatMap debugByte ++ text "\"").intersperse
    (text ", ")).flatten ++ text "]"

def duplicateKeyMessage : Bytes :=
  text "unique index '" ++ idx.name ++ text "' on " ++ debugFields idx.fields ++
    text ": existing documents share a value"

def backfillIndex : List (List BatchOp) × DocResult Nat :=
  let docs := docPrefix storagePrefix collectionId
  let range := indexPrefix storagePrefix collectionId idx.id
  match writeRows engine (backfillRow parseJson storagePrefix collectionId idx) [] [] 0
      (engine.scan [] docs (prefixUpperBound docs)) with
  | (sent, .error e) => (sent, .error e)
  | (sent, .ok entries) =>
    if idx.unique then
      match hasDuplicate range.length none (engine.scan sent range (prefixUpperBound range)) with
      | .error e => (sent, .error e)
      | .ok true =>
        match writeRows engine removeRow sent [] 0
            (engine.scan sent range (prefixUpperBound range)) with
        | (sent, .error e) => (sent, .error e)
        | (sent, .ok _) => (sent, .error (.duplicateKey (duplicateKeyMessage idx)))
      | .ok false =>
        if idx.expireAfterSeconds.isSome then
          match writeRows engine (stampRow parseJson idx) sent [] 0
              (engine.scan sent docs (prefixUpperBound docs)) with
          | (sent, .error e) => (sent, .error e)
          | (sent, .ok _) => (sent, .ok entries)
        else (sent, .ok entries)
    else (sent, .ok entries)

end

end ZydecoDb
