import ZydecoDb.Document.Store
import ZydecoDb.Session
import ZydecoDb.Lib.SortedMap
import Mathlib.Data.Prod.Lex

namespace ZydecoDb

open Lib

def maxStagedOps : Nat := 256
def maxStagedBytes : Nat := 32 * 1024 * 1024
def maxTxDuration : Nat := 30 * 1000

abbrev DocKey : Type := Bytes ×ₗ Bytes

inductive StagedDocState
  | upsert (zdoc : Bytes) (json : Value) (expiresAt : Nat)
  | deleted

structure StagedDocument where
  baseRevision : Option Nat
  expectedIfMatch : Option Nat
  state : StagedDocState

inductive StagedKv
  | put (value : Bytes) (expiresAt : Nat)
  | del
deriving DecidableEq

structure TransactionState where
  id : Nat
  deadline : Nat
  snapshot : SnapshotHandle
  session : SessionState
  tenantPrefix : Bytes
  documents : SortedMap DocKey StagedDocument
  kv : SortedMap Bytes StagedKv
  kvBases : SortedMap Bytes (Option Nat)
  logicalOps : Nat
  stagedBytes : Nat

inductive TxError
  | doc (e : DocError)
  | engine (e : EngineError)
  | refused (status : Status) (message : String)
deriving DecidableEq

inductive Reply
  | ack (logicalOps estimatedKeys : Nat)
  | value (bytes : Bytes)
  | document (body : Body) (revision : Nat)
  | notFound
  | error (e : TxError)

def Reply.isError : Reply → Bool
  | .error _ => true
  | _ => false

inductive TxCommand
  | malformed (e : TxError)
  | get (key : Bytes)
  | put (key value : Bytes) (expiresAt : Nat)
  | del (key : Bytes)
  | docGetRev (collection docId : Bytes)
  | docPut (collection docId : Bytes) (body : DocResult Value) (expiresAt : Nat) (relaxed : Bool)
    (ifMatch : Option Nat)
  | docDel (collection docId : Bytes)
  | docUpdateIfMatch (collection docId : Bytes) (update : DocResult (Value → DocResult Value))
    (ifMatch : Nat) (relaxed : Bool)

namespace TransactionState

variable (codec : BodyCodec) (catalog : DocCatalog) (session : SessionState)
  (security : SecurityRuntime) (nowMs : Nat)

def estimatedKeys (tx : TransactionState) : Nat :=
  min (tx.kv.size + tx.documents.size * (1 + 128)) (maxBatchKeys + 1)

def stageAck (tx : TransactionState) : Reply := .ack tx.logicalOps tx.estimatedKeys

def bumpLogical (tx : TransactionState) (addBytes : Nat) : Except TxError TransactionState :=
  if maxStagedOps ≤ tx.logicalOps then
    .error (.refused .invalidValue "transaction exceeded max staged operations")
  else if maxStagedBytes < tx.stagedBytes + addBytes then
    .error (.refused .invalidValue "transaction exceeded max staged bytes")
  else .ok { tx with logicalOps := tx.logicalOps + 1, stagedBytes := tx.stagedBytes + addBytes }

def rawWriteDenied (clientKey : Bytes) : Option TxError :=
  if !keyPrefixAllowed session clientKey then some (.refused .forbidden "key prefix not allowed")
  else if reservedClientKey clientKey then
    some (.refused .invalidKey ("key prefix reserved: raw keys starting with 'd' or 'i' followed by " ++
      "0x00 alias the document/index keyspace"))
  else none

section

variable (tx : TransactionState)

def ensureKvBase (key : Bytes) : TransactionState :=
  if tx.kvBases.contains key then tx
  else { tx with
    kvBases := tx.kvBases.insert key ((tx.snapshot.getWithSeq key nowMs).map Prod.snd) }

def txGet (clientKey : Bytes) : Reply :=
  if !keyPrefixAllowed session clientKey then .error (.refused .forbidden "key prefix not allowed")
  else
    let key := storageKey session clientKey security.legacySingleTenant
    match tx.kv.get key with
    | some (.put value _) => .value value
    | some .del => .notFound
    | none =>
      match tx.snapshot.get key nowMs with
      | some value => .value value
      | none => .notFound

def stageKv (clientKey : Bytes) (addBytes : Nat) (staged : StagedKv) : TransactionState × Reply :=
  match rawWriteDenied session clientKey with
  | some e => (tx, .error e)
  | none =>
    let key := storageKey session clientKey security.legacySingleTenant
    let tx := tx.ensureKvBase nowMs key
    match tx.bumpLogical addBytes with
    | .error e => (tx, .error e)
    | .ok tx =>
      let tx := { tx with kv := tx.kv.insert key staged }
      (tx, tx.stageAck)

def txPut (clientKey value : Bytes) (expiresAt : Nat) : TransactionState × Reply :=
  tx.stageKv session security nowMs clientKey value.length (.put value expiresAt)

def txDel (clientKey : Bytes) : TransactionState × Reply :=
  tx.stageKv session security nowMs clientKey 0 .del

def txDocGetRev (collection docId : Bytes) : Reply :=
  if !collectionPrefixAllowed session collection then
    .error (.refused .forbidden "collection prefix not allowed")
  else
    match tx.documents.get (toLex (collection, docId)) with
    | some ⟨_, _, .deleted⟩ => .notFound
    | some ⟨_, _, .upsert _ json _⟩ => .document (.json json) 0
    | none =>
      match getByIdWithRevision codec catalog tx.tenantPrefix tx.snapshot collection docId nowMs with
      | .ok (some (body, rev)) => .document body rev
      | .ok none => .notFound
      | .error e => .error (.doc e)

end

def ifMatchHolds (ifMatch current : Option Nat) : Bool :=
  match ifMatch with
  | none => true
  | some expected => current = some expected

def seedState (base : Option (Body × Nat)) : DocResult StagedDocState :=
  match base with
  | some (body, _) => (body.parse codec).bind fun json => .ok (.upsert (codec.fromValue json) json 0)
  | none => .ok .deleted

section

variable (tx : TransactionState)

def ensureDocBase (dk : DocKey) (ifMatch : Option Nat) : DocResult TransactionState :=
  match tx.documents.get dk with
  | some existing => if ifMatchHolds ifMatch existing.baseRevision then .ok tx else .error .staleRevision
  | none =>
    (getByIdWithRevision codec catalog tx.tenantPrefix tx.snapshot (ofLex dk).1 (ofLex dk).2
        nowMs).bind fun base =>
      let baseRevision := base.map Prod.snd
      if ifMatchHolds ifMatch baseRevision then
        (seedState codec base).bind fun state =>
          .ok { tx with documents := tx.documents.insert dk ⟨baseRevision, ifMatch, state⟩ }
      else .error .staleRevision

def setDocument (dk : DocKey) (ifMatch : Option Nat) (state : StagedDocState) : TransactionState :=
  match tx.documents.get dk with
  | some entry =>
    let entry := ⟨entry.baseRevision, entry.expectedIfMatch.or ifMatch, state⟩
    { tx with documents := tx.documents.insert dk entry }
  | none => tx

def collectionDenied (collection : Bytes) : Option TxError :=
  match catalog.collection tx.tenantPrefix collection with
  | .ok _ => none
  | .error e => some (.doc e)

def txDocPut (collection docId : Bytes) (body : DocResult Value)
    (expiresAt : Nat) (relaxed : Bool) (ifMatch : Option Nat) : TransactionState × Reply :=
  if relaxed then
    (tx, .error (.refused .protocolError "relaxed durability not allowed inside a transaction"))
  else if !collectionPrefixAllowed session collection then
    (tx, .error (.refused .forbidden "collection prefix not allowed"))
  else
    match body with
    | .error e => (tx, .error (.doc e))
    | .ok json =>
      match tx.collectionDenied catalog collection with
      | some e => (tx, .error e)
      | none =>
        let dk := toLex (collection, docId)
        match tx.ensureDocBase codec catalog nowMs dk ifMatch with
        | .error e => (tx, .error (.doc e))
        | .ok tx =>
          let zdoc := codec.fromValue json
          match tx.bumpLogical zdoc.length with
          | .error e => (tx, .error e)
          | .ok tx =>
            let tx := tx.setDocument dk ifMatch (.upsert zdoc json expiresAt)
            (tx, tx.stageAck)

def txDocDel (collection docId : Bytes) : TransactionState × Reply :=
  if !collectionPrefixAllowed session collection then
    (tx, .error (.refused .forbidden "collection prefix not allowed"))
  else
    match tx.collectionDenied catalog collection with
    | some e => (tx, .error e)
    | none =>
      let dk := toLex (collection, docId)
      match tx.ensureDocBase codec catalog nowMs dk none with
      | .error e => (tx, .error (.doc e))
      | .ok tx =>
        match tx.bumpLogical 0 with
        | .error e => (tx, .error e)
        | .ok tx =>
          let tx := tx.setDocument dk none .deleted
          (tx, tx.stageAck)

def stagedBody (dk : DocKey) : DocResult Value :=
  match tx.documents.get dk with
  | some ⟨_, _, .upsert _ json _⟩ => .ok json
  | _ => .error .staleRevision

def txDocUpdateIfMatch (collection docId : Bytes)
    (update : DocResult (Value → DocResult Value)) (ifMatch : Nat) (relaxed : Bool) :
    TransactionState × Reply :=
  if relaxed then
    (tx, .error (.refused .protocolError "relaxed durability not allowed inside a transaction"))
  else if !collectionPrefixAllowed session collection then
    (tx, .error (.refused .forbidden "collection prefix not allowed"))
  else
    match update with
    | .error e => (tx, .error (.doc e))
    | .ok upd =>
      match tx.collectionDenied catalog collection with
      | some e => (tx, .error e)
      | none =>
        let dk := toLex (collection, docId)
        match tx.ensureDocBase codec catalog nowMs dk (some ifMatch) with
        | .error e => (tx, .error (.doc e))
        | .ok tx =>
          match (tx.stagedBody dk).bind upd with
          | .error e => (tx, .error (.doc e))
          | .ok json =>
            let zdoc := codec.fromValue json
            match tx.bumpLogical zdoc.length with
            | .error e => (tx, .error e)
            | .ok tx =>
              let tx := tx.setDocument dk (some ifMatch) (.upsert zdoc json 0)
              (tx, tx.stageAck)

def stage : TxCommand → TransactionState × Reply
  | .malformed e => (tx, .error e)
  | .get key => (tx, tx.txGet session security nowMs key)
  | .put key value expiresAt => tx.txPut session security nowMs key value expiresAt
  | .del key => tx.txDel session security nowMs key
  | .docGetRev collection docId => (tx, tx.txDocGetRev codec catalog session nowMs collection docId)
  | .docPut collection docId body expiresAt relaxed ifMatch =>
    tx.txDocPut codec catalog session nowMs collection docId body expiresAt relaxed ifMatch
  | .docDel collection docId => tx.txDocDel codec catalog session nowMs collection docId
  | .docUpdateIfMatch collection docId update ifMatch relaxed =>
    tx.txDocUpdateIfMatch codec catalog session nowMs collection docId update ifMatch relaxed

end

end TransactionState

end ZydecoDb
