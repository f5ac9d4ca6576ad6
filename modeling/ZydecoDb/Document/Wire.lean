import ZydecoDb.Document.ZDoc
import ZydecoDb.Lib.Reader
import ZydecoDb.Manifest

namespace ZydecoDb

open Lib

structure Utf8String where
  bytes : Bytes
  valid : validUtf8 bytes = true
deriving DecidableEq, Repr

namespace Wire

def modeById : UInt8 := 0x00
def modeIndexRange : UInt8 := 0x01

def maxIndexFields : Nat := 64
def maxSortFields : Nat := 64
def maxFieldList : Nat := 256

def flagRelaxed : UInt8 := 0x01
def flagUpsert : UInt8 := 0x02

abbrev DocReader : Type → Type := Reader DocError

def lengthOverflow : DocError := .protocol "length overflow"
def payloadTruncated : DocError := .protocol "payload truncated"

def u8 : DocReader UInt8 := Reader.u8 lengthOverflow payloadTruncated

def u32 : DocReader Nat := Reader.word lengthOverflow payloadTruncated 4

def u64 : DocReader UInt64 := do
  let n ← Reader.word lengthOverflow payloadTruncated 8
  pure (UInt64.ofNat n)

def lp : DocReader Bytes := Reader.lp lengthOverflow payloadTruncated

def lpString : DocReader Utf8String := do
  let b ← lp
  if h : validUtf8 b = true then pure ⟨b, h⟩ else Reader.refuse (.protocol "invalid utf-8")

def optU64 : DocReader UInt64 := do
  let left ← Reader.remaining
  if 8 ≤ left then u64 else pure 0

def bool : DocReader Bool := do
  let b ← u8
  pure (b ≠ 0)

def checkWriteFlags (flags allowed : UInt8) : DocReader Unit :=
  let unknown := flags &&& ~~~allowed
  if unknown ≠ 0 then
    Reader.refuse (.protocol ("unused write flag bits set: 0x" ++ hexDigits unknown))
  else pure ()

def countUpTo (what : String) (max : Nat) : DocReader Nat := do
  let count ← u32
  if max < count then
    Reader.refuse (.protocol (what ++ toString count ++ " exceeds max " ++ toString max))
  else pure count

def putLp (b : Bytes) : Bytes := toBe 4 b.length ++ b

def putBool (b : Bool) : UInt8 := if b then 1 else 0

def relaxedFlags (relaxed : Bool) : UInt8 := if relaxed then flagRelaxed else 0

def putOptU64 (n : UInt64) : Bytes := if n ≠ 0 then toBe 8 n.toNat else []

def putFieldList (fields : List Utf8String) : Bytes :=
  toBe 4 fields.length ++ fields.flatMap fun f => putLp f.bytes

def takeFieldList : DocReader (List Utf8String) := do
  let n ← countUpTo "field list count " maxFieldList
  Reader.times lpString n

def collectionAndBytes : DocReader (Utf8String × Bytes) := do
  let collection ← lpString
  let bytes ← lp
  pure (collection, bytes)

end Wire

open Wire

structure DocPutPayload where
  collection : Utf8String
  docId : Bytes
  body : Bytes
  relaxed : Bool
  expiresAt : UInt64
deriving DecidableEq, Repr

namespace DocPutPayload

def encode (p : DocPutPayload) : Bytes :=
  putLp p.collection.bytes ++ (putLp p.docId ++ (putLp p.body ++
    ([relaxedFlags p.relaxed] ++ putOptU64 p.expiresAt)))

def reader : DocReader DocPutPayload := do
  let collection ← lpString
  let docId ← lp
  let body ← lp
  let flags ← Reader.optU8
  checkWriteFlags flags flagRelaxed
  let expiresAt ← optU64
  pure ⟨collection, docId, body, flags &&& flagRelaxed ≠ 0, expiresAt⟩

def decode (p : Bytes) : Except (Fault DocError) DocPutPayload := reader.decode p

end DocPutPayload

structure DocDelPayload where
  collection : Utf8String
  docId : Bytes
deriving DecidableEq, Repr

namespace DocDelPayload

def encode (p : DocDelPayload) : Bytes := putLp p.collection.bytes ++ putLp p.docId

def reader : DocReader DocDelPayload := do
  let p ← collectionAndBytes
  pure ⟨p.1, p.2⟩

def decode (p : Bytes) : Except (Fault DocError) DocDelPayload := reader.decode p

end DocDelPayload

def indexDirTag : UInt8 := 0x02

structure IndexDefPayload where
  collection : Utf8String
  indexName : Utf8String
  fields : List Utf8String
  unique : Bool
  expireAfterSeconds : UInt64
  /-- Ascending flags by field; none at all stand for ascending fields. -/
  directions : List Bool
deriving DecidableEq, Repr

namespace IndexDefPayload

def anyDescending (p : IndexDefPayload) : Bool := p.directions.any fun a => !a

def writeDirs (p : IndexDefPayload) : Bool :=
  p.anyDescending && p.directions.length = p.fields.length

def encode (p : IndexDefPayload) : Bytes :=
  putLp p.collection.bytes ++ (putLp p.indexName.bytes ++ ([putBool p.unique] ++
    (putFieldList p.fields ++
      ((if p.expireAfterSeconds ≠ 0 ∨ p.writeDirs then toBe 8 p.expireAfterSeconds.toNat else []) ++
        if p.writeDirs then [indexDirTag] ++ p.directions.map putBool else []))))

/-- The direction trailer is read only behind its tag and when a byte for each field follows. -/
def directionsReader (count : Nat) : DocReader (List Bool) := do
  let left ← Reader.remaining
  let next ← Reader.peek
  if count < left ∧ next = some indexDirTag then do
    let _ ← u8
    Reader.times bool count
  else pure (List.replicate count true)

def reader : DocReader IndexDefPayload := do
  let collection ← lpString
  let indexName ← lpString
  let unique ← bool
  let count ← countUpTo "index field count " maxIndexFields
  let fields ← Reader.times lpString count
  let expireAfterSeconds ← optU64
  let directions ← directionsReader count
  pure ⟨collection, indexName, fields, unique, expireAfterSeconds, directions⟩

def decode (p : Bytes) : Except (Fault DocError) IndexDefPayload := reader.decode p

end IndexDefPayload

inductive QueryPayload
  | byId (collection : Utf8String) (docId : Bytes)
  | indexRange (collection indexName : Utf8String) (lo hi cursor : Bytes) (limit : UInt32)
      (includeBodies : Bool)
deriving DecidableEq, Repr

namespace QueryPayload

def encode : QueryPayload → Bytes
  | .byId collection docId => [modeById] ++ (putLp collection.bytes ++ putLp docId)
  | .indexRange collection indexName lo hi cursor limit includeBodies =>
    [modeIndexRange] ++ (putLp collection.bytes ++ (putLp indexName.bytes ++
      (toBe 4 limit.toNat ++ (putLp lo ++ (putLp hi ++ (putLp cursor ++
        if includeBodies then [] else [0]))))))

def includeBodiesReader : DocReader Bool := do
  let left ← Reader.remaining
  if left = 0 then pure true else bool

def byIdReader : DocReader QueryPayload := do
  let p ← collectionAndBytes
  pure (.byId p.1 p.2)

def indexRangeReader : DocReader QueryPayload := do
  let collection ← lpString
  let indexName ← lpString
  let limit ← u32
  let lo ← lp
  let hi ← lp
  let cursor ← lp
  let includeBodies ← includeBodiesReader
  pure (.indexRange collection indexName lo hi cursor (UInt32.ofNat limit) includeBodies)

def reader : DocReader QueryPayload := do
  let mode ← u8
  if mode = modeById then byIdReader
  else if mode = modeIndexRange then indexRangeReader
  else Reader.refuse (.protocol ("unknown query mode 0x" ++ hexDigits mode))

def decode (p : Bytes) : Except (Fault DocError) QueryPayload := reader.decode p

end QueryPayload

inductive WireProjection
  | none
  | include (fields : List Utf8String)
  | exclude (fields : List Utf8String)
deriving DecidableEq, Repr

def projNone : UInt8 := 0x00
def projInclude : UInt8 := 0x01
def projExclude : UInt8 := 0x02

namespace WireProjection

def encode : WireProjection → Bytes
  | .none => [projNone]
  | .include fields => [projInclude] ++ putFieldList fields
  | .exclude fields => [projExclude] ++ putFieldList fields

def reader : DocReader WireProjection := do
  let mode ← u8
  if mode = projNone then pure .none
  else if mode = projInclude then do
    let fields ← takeFieldList
    pure (.include fields)
  else if mode = projExclude then do
    let fields ← takeFieldList
    pure (.exclude fields)
  else Reader.refuse (.protocol ("unknown projection mode 0x" ++ hexDigits mode))

end WireProjection

structure FindPayload where
  collection : Utf8String
  filter : Bytes
  sort : List (Utf8String × Bool)
  projection : WireProjection
  skip : UInt32
  limit : UInt32
  cursor : Bytes
deriving DecidableEq, Repr

namespace FindPayload

def encodeSort (s : Utf8String × Bool) : Bytes := putLp s.1.bytes ++ [putBool s.2]

def encode (p : FindPayload) : Bytes :=
  putLp p.collection.bytes ++ (putLp p.filter ++ (toBe 4 p.sort.length ++
    (p.sort.flatMap encodeSort ++ (p.projection.encode ++ (toBe 4 p.skip.toNat ++
      (toBe 4 p.limit.toNat ++ putLp p.cursor))))))

def sortReader : DocReader (Utf8String × Bool) := do
  let field ← lpString
  let asc ← bool
  pure (field, asc)

def reader : DocReader FindPayload := do
  let collection ← lpString
  let filter ← lp
  let sortCount ← countUpTo "sort field count " maxSortFields
  let sort ← Reader.times sortReader sortCount
  let projection ← WireProjection.reader
  let skip ← u32
  let limit ← u32
  let cursor ← lp
  pure ⟨collection, filter, sort, projection, UInt32.ofNat skip, UInt32.ofNat limit, cursor⟩

def decode (p : Bytes) : Except (Fault DocError) FindPayload := reader.decode p

end FindPayload

end ZydecoDb
