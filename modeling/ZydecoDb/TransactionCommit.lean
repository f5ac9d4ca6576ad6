import ZydecoDb.Transaction

namespace ZydecoDb

open Lib

abbrev UniqueClaim : Type := Bytes × UInt32 × Bytes

namespace TransactionState

variable (codec : BodyCodec) (engine : VersionStore) (catalog : DocCatalog) (tx : TransactionState)
  (nowMs : Nat)

def validateDocuments : List (DocKey × StagedDocument) → DocResult Unit
  | [] => .ok ()
  | (dk, staged) :: rest =>
    (docRevision engine catalog tx.tenantPrefix (ofLex dk).1 (ofLex dk).2 nowMs).bind fun current =>
      if current ≠ staged.baseRevision then .error .staleRevision
      else if !ifMatchHolds staged.expectedIfMatch current then .error .staleRevision
      else validateDocuments rest

def validateKvBases : List (Bytes × Option Nat) → DocResult Unit
  | [] => .ok ()
  | (key, base) :: rest =>
    if (engine.getWithSeq key nowMs).map Prod.snd ≠ base then .error .staleRevision
    else validateKvBases rest

def finalClaims (dk : DocKey) (staged : StagedDocument) : DocResult (List (Bytes × UniqueClaim)) :=
  match staged.state with
  | .deleted => .ok []
  | .upsert _ json _ =>
    (uniqueEncodingsForDoc catalog tx.tenantPrefix (ofLex dk).1 json).bind fun claims =>
      .ok (claims.map fun (name, indexId, encoded) => (name, (ofLex dk).1, indexId, encoded))

def claimAll (docId : Bytes) : List (Bytes × UniqueClaim) → List (UniqueClaim × Bytes) →
    DocResult (List (UniqueClaim × Bytes))
  | [], claimed => .ok claimed
  | (name, claim) :: claims, claimed =>
    match claimed.lookup claim with
    | some other =>
      if other ≠ docId then
        .error (.duplicateKey (text "unique index '" ++ name ++ text "' conflict inside transaction"))
      else claimAll docId claims claimed
    | none => claimAll docId claims (claimed ++ [(claim, docId)])

def claimDocuments : List (DocKey × StagedDocument) → List (UniqueClaim × Bytes) →
    DocResult (List (UniqueClaim × Bytes))
  | [], claimed => .ok claimed
  | (dk, staged) :: rest, claimed =>
    (tx.finalClaims catalog dk staged).bind fun claims =>
      (claimAll (ofLex dk).2 claims claimed).bind fun claimed => claimDocuments rest claimed

def checkOwners : List (UniqueClaim × Bytes) → DocResult Unit
  | [] => .ok ()
  | ((collection, indexId, encoded), claimer) :: rest =>
    (catalog.collection tx.tenantPrefix collection).bind fun coll =>
      let conflict : DocError :=
        .duplicateKey (text "unique index conflict on collection '" ++ collection ++ text "'")
      match uniqueOwner engine tx.tenantPrefix coll.id indexId encoded nowMs with
      | none => checkOwners rest
      | some existing =>
        if existing = claimer then checkOwners rest
        else
          match tx.documents.get (toLex (collection, existing)) with
          | none => .error conflict
          | some staged =>
            (tx.finalClaims catalog (toLex (collection, existing)) staged).bind fun claims =>
              if (claims.map Prod.snd).contains (collection, indexId, encoded) then .error conflict
              else checkOwners rest

def validateUniqueIndexes : DocResult Unit :=
  (tx.claimDocuments catalog tx.documents.entries []).bind fun claimed =>
    tx.checkOwners engine catalog nowMs claimed

structure TxBatch where
  keyMap : SortedMap Bytes BatchOp
  deltas : SortedMap Nat Int

def TxBatch.empty : TxBatch := ⟨.empty, .empty⟩

def TxBatch.insertOp (batch : TxBatch) (op : BatchOp) : DocResult TxBatch :=
  if batch.keyMap.contains op.key then
    .error (.protocol ("duplicate storage key in transaction batch (" ++ toString op.key.length ++
      " bytes)"))
  else .ok { batch with keyMap := batch.keyMap.insert op.key op }

def TxBatch.insertOps : List BatchOp → TxBatch → DocResult TxBatch
  | [], batch => .ok batch
  | op :: ops, batch => (batch.insertOp op).bind (TxBatch.insertOps ops)

def TxBatch.count (batch : TxBatch) (w : WriteOps) : TxBatch :=
  { batch with
    deltas := batch.deltas.insert w.collectionId.toNat
      ((batch.deltas.get w.collectionId.toNat).getD 0 + w.docDelta) }

def documentOps (dk : DocKey) (staged : StagedDocument) : DocResult (Option WriteOps) :=
  let collection := (ofLex dk).1
  let docId := (ofLex dk).2
  match staged.state with
  | .deleted =>
    if staged.baseRevision.isNone then .ok none
    else (deleteOps codec engine catalog tx.tenantPrefix collection docId nowMs).bind fun w =>
      .ok (if w.ops.isEmpty then none else some w)
  | .upsert zdoc json expiresAt =>
    (currentJsonBody codec engine catalog tx.tenantPrefix collection docId nowMs).bind fun oldDoc =>
      (upsertOpsWithoutUnique codec engine catalog tx.tenantPrefix collection docId zdoc json expiresAt
        oldDoc).bind fun w => .ok (some w)

def documentBatch : List (DocKey × StagedDocument) → TxBatch → DocResult TxBatch
  | [], batch => .ok batch
  | (dk, staged) :: rest, batch =>
    (tx.documentOps codec engine catalog nowMs dk staged).bind fun w =>
      match w with
      | none => documentBatch rest batch
      | some w => (TxBatch.insertOps w.ops (batch.count w)).bind (documentBatch rest)

def kvOp (e : Bytes × StagedKv) : BatchOp :=
  match e.2 with
  | .put value expiresAt => .put e.1 value expiresAt
  | .del => .del e.1

def buildBatch : DocResult TxBatch :=
  (tx.documentBatch codec engine catalog nowMs tx.documents.entries .empty).bind
    (TxBatch.insertOps (tx.kv.entries.map kvOp))

def commitUnderLock : DocResult (VersionStore × Nat) :=
  (tx.validateDocuments engine catalog nowMs tx.documents.entries).bind fun _ =>
    (validateKvBases engine nowMs tx.kvBases.entries).bind fun _ =>
      (tx.validateUniqueIndexes engine catalog nowMs).bind fun _ =>
        (tx.buildBatch codec engine catalog nowMs).bind fun batch =>
          let ops := batch.keyMap.entries.map Prod.snd
          let counted := batch.deltas.entries.filter fun d => d.2 ≠ 0
          if ops.isEmpty then .ok (engine, engine.nextSeq - 1)
          else if ops.length + counted.length > maxBatchKeys then .error (.batchTooLarge ops.length)
          else (engine.writeBatch ops).mapError .engine

end TransactionState

end ZydecoDb
