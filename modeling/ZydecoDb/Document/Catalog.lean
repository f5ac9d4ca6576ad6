import ZydecoDb.Document.KeyLayout
import ZydecoDb.Document.Error

namespace ZydecoDb

open Lib

/-- An index of a collection: its fields by dotted path, the direction of each (none given means all
ascending), and the expiry of a TTL index. -/
structure IndexMeta where
  id : UInt32
  name : Bytes
  fields : List Bytes
  directions : List Bool
  unique : Bool
  expireAfterSeconds : Option Nat
deriving DecidableEq

def IndexMeta.ascending (idx : IndexMeta) : List Bool :=
  if idx.directions = [] then List.replicate idx.fields.length true
  else if idx.directions.length = idx.fields.length then idx.directions
  else (idx.directions.take idx.fields.length).rightpad idx.fields.length true

structure CollectionMeta where
  id : UInt32
  storagePrefix : Bytes
  name : Bytes
  indexes : List IndexMeta
deriving DecidableEq

def CollectionMeta.ttlIndex (coll : CollectionMeta) : Option IndexMeta :=
  coll.indexes.find? fun idx => idx.expireAfterSeconds.isSome

structure DocCatalog where
  nextCollectionId : UInt32
  nextIndexId : UInt32
  collections : List CollectionMeta

def DocCatalog.collection (catalog : DocCatalog) (storagePrefix name : Bytes) : DocResult CollectionMeta :=
  match catalog.collections.find? fun c => c.storagePrefix = storagePrefix ∧ c.name = name with
  | some coll => .ok coll
  | none => .error (.collectionNotFound name)

def extractSegments : List Bytes → Value → Value
  | [], v => v
  | seg :: segs, .object members =>
    match members.lookup seg with
    | some v => extractSegments segs v
    | none => .null
  | _ :: _, _ => .null

def extractPath (doc : Value) (path : Bytes) : Value := extractSegments (path.splitOn 0x2E) doc

def encodedFields (idx : IndexMeta) (doc : Value) : Bytes :=
  encodeFieldsWithDirections (idx.fields.map (extractPath doc)) idx.ascending

def indexKeysFor (coll : CollectionMeta) (storagePrefix docId : Bytes) (doc : Value) : List Bytes :=
  coll.indexes.map fun idx => indexKey storagePrefix coll.id idx.id (encodedFields idx doc) docId

def deriveTtlExpiresAt (doc : Value) (idx : IndexMeta) : Nat :=
  match idx.expireAfterSeconds, idx.fields.head? with
  | some secs, some field =>
    match extractPath doc field with
    | .number n => min (f64BitsToU64 n.asF64.toNat + min (secs * 1000) u64Max) u64Max
    | _ => 0
  | _, _ => 0

end ZydecoDb
