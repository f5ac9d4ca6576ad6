import ZydecoDb.Document.Catalog
import ZydecoDb.VersionStore

namespace ZydecoDb

open Lib

def vkRaw : UInt8 := 0x00
def vkZdoc : UInt8 := 0x01

/-- How a document becomes the bytes of a body and is read back: the binary form, and the JSON text of
bodies kept from before it. -/
structure BodyCodec where
  fromValue : Value → Bytes
  toValue : Bytes → DocResult Value
  parseJson : Bytes → DocResult Value

structure WriteOps where
  ops : List BatchOp
  collectionId : UInt32
  docDelta : Int
deriving DecidableEq

section

variable (codec : BodyCodec) (engine : VersionStore) (catalog : DocCatalog) (storagePrefix : Bytes)

inductive Body
  | json (v : Value)
  | text (payload : Bytes)

def storedToJsonVec : Bytes → DocResult Body
  | [] => .error (.corrupt "empty stored document body")
  | kind :: payload =>
    if kind = vkZdoc then (codec.toValue payload).bind fun v => .ok (.json v) else .ok (.text payload)

def Body.parse : Body → DocResult Value
  | .json v => .ok v
  | .text payload => codec.parseJson payload

def storedToJson (stored : Bytes) : DocResult Value :=
  (storedToJsonVec codec stored).bind (Body.parse codec)

def docRevision (collection docId : Bytes) (nowMs : Nat) : DocResult (Option Nat) :=
  (catalog.collection storagePrefix collection).bind fun coll =>
    .ok ((engine.getWithSeq (docKey storagePrefix coll.id docId) nowMs).map Prod.snd)

def getByIdWithRevision (snap : SnapshotHandle) (collection docId : Bytes) (nowMs : Nat) :
    DocResult (Option (Body × Nat)) :=
  (catalog.collection storagePrefix collection).bind fun coll =>
    match snap.getWithSeq (docKey storagePrefix coll.id docId) nowMs with
    | some (stored, rev) => (storedToJsonVec codec stored).bind fun body => .ok (some (body, rev))
    | none => .ok none

def currentJsonBody (collection docId : Bytes) (nowMs : Nat) : DocResult (Option Value) :=
  (catalog.collection storagePrefix collection).bind fun coll =>
    match engine.get (docKey storagePrefix coll.id docId) nowMs with
    | some stored => (storedToJson codec stored).bind fun json => .ok (some json)
    | none => .ok none

def oldIndexKeys (coll : CollectionMeta) (docId : Bytes) : List Bytes × Bool :=
  match engine.getIncludingExpired (docKey storagePrefix coll.id docId) with
  | some (kind :: payload) =>
    match storedToJson codec (kind :: payload) with
    | .ok old => (indexKeysFor coll storagePrefix docId old, true)
    | .error _ => ([], true)
  | _ => ([], false)

/-- The batch that writes a document: its body, the index entries it leaves and those it takes. The
expiry of the index entries is the body's. -/
def upsertOpsWithoutUnique (collection docId zdoc : Bytes) (doc : Value) (expiresAt : Nat)
    (oldDoc : Option Value) : DocResult WriteOps :=
  (catalog.collection storagePrefix collection).bind fun coll =>
    let expiresAt := match coll.ttlIndex with
      | some ttl => deriveTtlExpiresAt doc ttl
      | none => expiresAt
    let prior := match oldDoc with
      | some old => (indexKeysFor coll storagePrefix docId old, true)
      | none => oldIndexKeys codec engine storagePrefix coll docId
    let newKeys := (indexKeysFor coll storagePrefix docId doc).dedup
    let ops := .put (docKey storagePrefix coll.id docId) (vkZdoc :: zdoc) expiresAt ::
      ((prior.1.dedup.filter fun k => !newKeys.contains k).map BatchOp.del ++
        newKeys.map fun k => .put k docId expiresAt)
    if ops.length + 1 > maxBatchKeys then .error (.batchTooLarge ops.length)
    else .ok ⟨ops, coll.id, if prior.2 then 0 else 1⟩

def deleteOps (collection docId : Bytes) (nowMs : Nat) : DocResult WriteOps :=
  (catalog.collection storagePrefix collection).bind fun coll =>
    match engine.get (docKey storagePrefix coll.id docId) nowMs with
    | none => .ok ⟨[], coll.id, 0⟩
    | some stored =>
      let oldKeys := match storedToJson codec stored with
        | .ok old => indexKeysFor coll storagePrefix docId old
        | .error _ => []
      let ops := .del (docKey storagePrefix coll.id docId) :: oldKeys.map BatchOp.del
      if ops.length + 1 > maxBatchKeys then .error (.batchTooLarge ops.length)
      else .ok ⟨ops, coll.id, -1⟩

def uniqueEncodingsForDoc (collection : Bytes) (doc : Value) :
    DocResult (List (Bytes × UInt32 × Bytes)) :=
  (catalog.collection storagePrefix collection).bind fun coll =>
    .ok ((coll.indexes.filter IndexMeta.unique).map fun idx =>
      (idx.name, idx.id, encodedFields idx doc))

-- the loop of `prefix_upper_bound`, on the bytes from the last one on
def popUpperBound : Bytes → Bytes
  | [] => []
  | last :: rest => if last = 0xFF then popUpperBound rest else ((last + 1) :: rest).reverse

def prefixUpperBound (p : Bytes) : Bytes := popUpperBound p.reverse

def uniqueOwner (collectionId indexId : UInt32) (encoded : Bytes) (nowMs : Nat) : Option Bytes :=
  let lo := indexPrefix storagePrefix collectionId indexId ++ encoded
  ((engine.snapshotOwned.scan lo (prefixUpperBound lo) nowMs).head?).map Prod.snd

end

end ZydecoDb
