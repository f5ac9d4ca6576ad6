import ZydecoDb.TransactionCommit

namespace ZydecoDb

open Lib

namespace TransactionState

variable {codec : BodyCodec} {catalog : DocCatalog} {session : SessionState}
  {security : SecurityRuntime} {nowMs : Nat} {tx tx' : TransactionState}

variable (codec catalog nowMs) in
/-- What a document write can come to: rejected before the base entry is made, rejected with it made,
or staged. -/
def DocOutcome (tx : TransactionState) (dk : DocKey) (ifMatch : Option Nat) (passes : Prop)
    (result : TransactionState × Reply) : Prop :=
  (∃ e, result = (tx, .error e) ∧
    ¬ (passes ∧ ∃ tx₁, tx.ensureDocBase codec catalog nowMs dk ifMatch = .ok tx₁)) ∨
  passes ∧ ∃ tx₁, tx.ensureDocBase codec catalog nowMs dk ifMatch = .ok tx₁ ∧
    ((∃ e, result = (tx₁, .error e)) ∨ result.2.isError = false)

def DocChecked (catalog : DocCatalog) (session : SessionState) (tx : TransactionState)
    (collection : Bytes) : Prop :=
  collectionPrefixAllowed session collection = true ∧ tx.collectionDenied catalog collection = none

variable {collection : Bytes} {passes : Prop} {dk : DocKey} {ifMatch : Option Nat}

theorem docOutcome_refused (hp : passes → collectionPrefixAllowed session collection = true)
    {result : TransactionState × Reply}
    (h : collectionPrefixAllowed session collection = true →
      DocOutcome codec catalog nowMs tx dk ifMatch passes result) :
    DocOutcome codec catalog nowMs tx dk ifMatch passes
      (if !collectionPrefixAllowed session collection then
        (tx, .error (.refused .forbidden "collection prefix not allowed"))
      else result) := by
  cases hacl : collectionPrefixAllowed session collection with
  | false => exact Or.inl ⟨_, rfl, fun hm => by simp [hacl] at hp; exact hp hm.1⟩
  | true => exact h hacl

/-- The steps the document writes share: the collection is looked up, the base entry made, and then
the write is staged or rejected. -/
theorem docOutcome_checked (hp : passes ↔ tx.collectionDenied catalog collection = none)
    {k : TransactionState → TransactionState × Reply}
    (hk : ∀ tx₁, (∃ e, k tx₁ = (tx₁, .error e)) ∨ (k tx₁).2.isError = false) :
    DocOutcome codec catalog nowMs tx dk ifMatch passes
      (match tx.collectionDenied catalog collection with
      | some e => (tx, .error e)
      | none =>
        match tx.ensureDocBase codec catalog nowMs dk ifMatch with
        | .error e => (tx, .error (.doc e))
        | .ok tx₁ => k tx₁) := by
  cases hden : tx.collectionDenied catalog collection with
  | some e => exact Or.inl ⟨e, rfl, fun hm => by simpa [hden] using hp.mp hm.1⟩
  | none =>
    cases hens : tx.ensureDocBase codec catalog nowMs dk ifMatch with
    | error e => exact Or.inl ⟨.doc e, rfl, by simp [hens]⟩
    | ok tx₁ => exact Or.inr ⟨hp.mpr hden, tx₁, hens, hk tx₁⟩

theorem bumpLogical_outcome (tx : TransactionState) (n : Nat)
    (next : TransactionState → TransactionState) :
    (∃ e, (match tx.bumpLogical n with
      | .error e => (tx, Reply.error e)
      | .ok tx₂ => (next tx₂, (next tx₂).stageAck)) = (tx, .error e)) ∨
    (match tx.bumpLogical n with
      | .error e => (tx, Reply.error e)
      | .ok tx₂ => (next tx₂, (next tx₂).stageAck)).2.isError = false := by
  cases tx.bumpLogical n with
  | error e => exact Or.inl ⟨e, rfl⟩
  | ok tx₂ => exact Or.inr rfl

theorem txDocPut_outcome (tx : TransactionState) (collection docId : Bytes) (body : DocResult Value)
    (expiresAt : Nat) (relaxed : Bool) (ifMatch : Option Nat) :
    DocOutcome codec catalog nowMs tx (toLex (collection, docId)) ifMatch
      (relaxed = false ∧ DocChecked catalog session tx collection ∧ ∃ json, body = .ok json)
      (tx.txDocPut codec catalog session nowMs collection docId body expiresAt relaxed ifMatch) := by
  unfold txDocPut
  cases relaxed with
  | true => exact Or.inl ⟨_, rfl, by simp⟩
  | false =>
    refine docOutcome_refused (fun hp => hp.2.1.1) fun hacl => ?_
    cases body with
    | error e => exact Or.inl ⟨.doc e, rfl, by simp⟩
    | ok json =>
      exact docOutcome_checked (by simp [DocChecked, hacl]) fun tx₁ => bumpLogical_outcome tx₁ _ _

theorem txDocDel_outcome (tx : TransactionState) (collection docId : Bytes) :
    DocOutcome codec catalog nowMs tx (toLex (collection, docId)) none
      (DocChecked catalog session tx collection)
      (tx.txDocDel codec catalog session nowMs collection docId) := by
  refine docOutcome_refused (fun hp => hp.1) fun hacl => ?_
  exact docOutcome_checked (by simp [DocChecked, hacl]) fun tx₁ => bumpLogical_outcome tx₁ _ _

theorem txDocUpdateIfMatch_outcome (tx : TransactionState) (collection docId : Bytes)
    (update : DocResult (Value → DocResult Value)) (ifMatch : Nat) (relaxed : Bool) :
    DocOutcome codec catalog nowMs tx (toLex (collection, docId)) (some ifMatch)
      (relaxed = false ∧ DocChecked catalog session tx collection ∧ ∃ upd, update = .ok upd)
      (tx.txDocUpdateIfMatch codec catalog session nowMs collection docId update ifMatch relaxed) := by
  unfold txDocUpdateIfMatch
  cases relaxed with
  | true => exact Or.inl ⟨_, rfl, by simp⟩
  | false =>
    refine docOutcome_refused (fun hp => hp.2.1.1) fun hacl => ?_
    cases update with
    | error e => exact Or.inl ⟨.doc e, rfl, by simp⟩
    | ok upd =>
      refine docOutcome_checked (by simp [DocChecked, hacl]) fun tx₁ => ?_
      cases (tx₁.stagedBody (toLex (collection, docId))).bind upd with
      | error e => exact Or.inl ⟨.doc e, rfl⟩
      | ok json => exact bumpLogical_outcome tx₁ _ _

variable (codec catalog session security nowMs) in
/-- The command is the first to write its key or document and gets as far as making the base entry:
whatever rejects it after that does so too late. -/
def MakesBase (tx : TransactionState) : TxCommand → Prop
  | .put key _ _ | .del key => rawWriteDenied session key = none ∧
    tx.kvBases.contains (storageKey session key security.legacySingleTenant) = false
  | .docPut collection docId body _ relaxed ifMatch =>
    (relaxed = false ∧ DocChecked catalog session tx collection ∧ ∃ json, body = .ok json) ∧
    tx.documents.get (toLex (collection, docId)) = none ∧
    ∃ tx', tx.ensureDocBase codec catalog nowMs (toLex (collection, docId)) ifMatch = .ok tx'
  | .docDel collection docId => DocChecked catalog session tx collection ∧
    tx.documents.get (toLex (collection, docId)) = none ∧
    ∃ tx', tx.ensureDocBase codec catalog nowMs (toLex (collection, docId)) none = .ok tx'
  | .docUpdateIfMatch collection docId update ifMatch relaxed =>
    (relaxed = false ∧ DocChecked catalog session tx collection ∧ ∃ upd, update = .ok upd) ∧
    tx.documents.get (toLex (collection, docId)) = none ∧
    ∃ tx', tx.ensureDocBase codec catalog nowMs (toLex (collection, docId)) (some ifMatch) = .ok tx'
  | _ => False

theorem ensureKvBase_eq_self {key : Bytes} :
    tx.ensureKvBase nowMs key = tx ↔ tx.kvBases.contains key = true := by
  unfold ensureKvBase
  split
  next h => exact iff_of_true rfl h
  next h =>
    refine iff_of_false (fun he => h ?_) h
    have hget := congrArg (fun t => t.kvBases.contains key) he
    simpa [SortedMap.contains] using hget.symm

theorem ensureDocBase_eq_self (h : tx.ensureDocBase codec catalog nowMs dk ifMatch = .ok tx') :
    tx' = tx ↔ tx.documents.get dk ≠ none := by
  unfold ensureDocBase at h
  split at h
  next existing hget =>
    split at h
    next => exact iff_of_true (Except.ok.inj h).symm (by simp [hget])
    next => simp at h
  next hget =>
    obtain ⟨base, -, h⟩ := except_bind_eq_ok.mp h
    dsimp only at h
    split at h
    next =>
      obtain ⟨state, -, h⟩ := except_bind_eq_ok.mp h
      cases Except.ok.inj h
      refine iff_of_false (fun he => ?_) (by simp [hget])
      have hins := congrArg (fun t => t.documents.get dk) he
      simp [hget] at hins
    next => simp at h

theorem stageKv_rejected {key : Bytes} {n : Nat} {staged : StagedKv}
    (h : (tx.stageKv session security nowMs key n staged).2.isError = true) :
    (tx.stageKv session security nowMs key n staged).1 = tx ↔
      ¬ (rawWriteDenied session key = none ∧
        tx.kvBases.contains (storageKey session key security.legacySingleTenant) = false) := by
  unfold stageKv at h ⊢
  cases hd : rawWriteDenied session key with
  | some e => simp
  | none =>
    simp only [hd] at h ⊢
    cases hb : (tx.ensureKvBase nowMs (storageKey session key security.legacySingleTenant)).bumpLogical n with
    | error e =>
      show tx.ensureKvBase nowMs _ = tx ↔ _
      rw [ensureKvBase_eq_self]
      simp
    | ok tx₂ => simp [hb, stageAck, Reply.isError] at h

theorem DocOutcome.rejected {result : TransactionState × Reply}
    (ho : DocOutcome codec catalog nowMs tx dk ifMatch passes result)
    (h : result.2.isError = true) :
    result.1 = tx ↔ ¬ (passes ∧ tx.documents.get dk = none ∧
      ∃ tx', tx.ensureDocBase codec catalog nowMs dk ifMatch = .ok tx') := by
  rcases ho with ⟨e, rfl, hnot⟩ | ⟨hp, tx₁, hens, ⟨e, rfl⟩ | hok⟩
  · exact iff_of_true rfl fun hm => hnot ⟨hm.1, hm.2.2⟩
  · rw [ensureDocBase_eq_self hens]
    refine not_congr ⟨fun hget => ⟨hp, hget, tx₁, hens⟩, fun hm => hm.2.1⟩
  · simp [hok] at h

/-- A command that is rejected leaves the transaction as it was exactly when it made no base entry, and
then every later commit is what it would have been. -/
theorem rejected_without_effect_iff (codec : BodyCodec) (catalog : DocCatalog)
    (session : SessionState) (security : SecurityRuntime) (nowMs : Nat) (tx : TransactionState)
    (cmd : TxCommand) (h : (tx.stage codec catalog session security nowMs cmd).2.isError = true) :
    ((tx.stage codec catalog session security nowMs cmd).1 = tx ↔
      ¬ tx.MakesBase codec catalog session security nowMs cmd) ∧
    (¬ tx.MakesBase codec catalog session security nowMs cmd → ∀ engine catalog' later,
      (tx.stage codec catalog session security nowMs cmd).1.commitUnderLock codec engine catalog' later =
        tx.commitUnderLock codec engine catalog' later) := by
  have hiff : (tx.stage codec catalog session security nowMs cmd).1 = tx ↔
      ¬ tx.MakesBase codec catalog session security nowMs cmd := by
    cases cmd with
    | malformed e => simp [stage, MakesBase]
    | get key => simp [stage, MakesBase]
    | put key value expiresAt => exact stageKv_rejected h
    | del key => exact stageKv_rejected h
    | docGetRev collection docId => simp [stage, MakesBase]
    | docPut collection docId body expiresAt relaxed ifMatch =>
      exact (txDocPut_outcome tx collection docId body expiresAt relaxed ifMatch).rejected h
    | docDel collection docId => exact (txDocDel_outcome tx collection docId).rejected h
    | docUpdateIfMatch collection docId update ifMatch relaxed =>
      exact (txDocUpdateIfMatch_outcome tx collection docId update ifMatch relaxed).rejected h
  exact ⟨hiff, fun hm engine catalog' later => by rw [hiff.mpr hm]⟩

def flagCodec : BodyCodec where
  fromValue
    | .null => [0]
    | .bool false => [1]
    | .bool true => [2]
    | _ => []
  toValue
    | [0] => .ok .null
    | [1] => .ok (.bool false)
    | [2] => .ok (.bool true)
    | _ => .error (.corrupt "not a flag")
  parseJson _ := .error (.invalidJson "not a text")

def flagCatalog : DocCatalog := ⟨2, 1, [⟨1, [ksUser], [0x63], []⟩]⟩

def openRuntime : SecurityRuntime := ⟨false, false, true⟩

def emptyTransaction (snapshot : SnapshotHandle) : TransactionState where
  id := 1
  deadline := maxTxDuration
  snapshot := snapshot
  session := .anonymous
  tenantPrefix := [ksUser]
  documents := .empty
  kv := .empty
  kvBases := .empty
  logicalOps := 0
  stagedBytes := 0

def expiringFlag : VersionStore :=
  ⟨[⟨docKey [ksUser] 1 [7], 1, .value [vkZdoc, 2] (some 1000)⟩], 2⟩

def refusedUpdate : TxCommand :=
  .docUpdateIfMatch [0x63] [7] (.ok fun _ => .error (.badUpdate "not an object")) 1 false

/-- An update that does not apply is rejected in an otherwise empty transaction: at the commit the
document is written again, and has lost its expiry. -/
theorem rejected_update_is_committed :
    let tx := emptyTransaction expiringFlag.snapshotOwned
    let result := tx.stage flagCodec flagCatalog .anonymous openRuntime 0 refusedUpdate
    result.2 = .error (.doc (.badUpdate "not an object")) ∧
      (tx.commitUnderLock flagCodec expiringFlag flagCatalog 0).toOption.map (fun r => r.1.versions) =
        some expiringFlag.versions ∧
      (result.1.commitUnderLock flagCodec expiringFlag flagCatalog 0).toOption.map
          (fun r => r.1.versions) =
        some (expiringFlag.versions ++ [⟨docKey [ksUser] 1 [7], 2, .value [vkZdoc, 2] none⟩]) :=
  ⟨rfl, by decide +kernel, by decide +kernel⟩

/-- A second update of a document the transaction has written already is rejected without effect. -/
theorem rejected_without_effect_second_update :
    let tx := ((emptyTransaction expiringFlag.snapshotOwned).stage flagCodec flagCatalog .anonymous
      openRuntime 0 (.docPut [0x63] [7] (.ok .null) 0 false none)).1
    (tx.stage flagCodec flagCatalog .anonymous openRuntime 0 refusedUpdate).1 = tx := by
  intro tx
  refine (rejected_without_effect_iff flagCodec flagCatalog .anonymous openRuntime 0 tx refusedUpdate
    (by decide +kernel)).1.mpr ?_
  rintro ⟨-, hget, -⟩
  have hsome : (tx.documents.get (toLex ([0x63], [7]))).isSome = true := by decide +kernel
  simp [hget] at hsome

end TransactionState

end ZydecoDb
