import ZydecoDb.ServedReads
import ZydecoDb.Session
import Mathlib.Algebra.BigOperators.Group.Finset.Basic

namespace ZydecoDb

open Lib

def tenantFromKey (key : Bytes) : Option Tenant :=
  if h : 1 + 16 ≤ key.length then
    if key.head? = some ksUser then
      some ⟨(key.drop 1).take 16, by simp only [List.length_take, List.length_drop]; omega⟩
    else none
  else none

structure TenantQuotaPolicy where
  defaultMaxBytes : Nat
  maxBytes : Tenant → Option Nat
  usage : Tenant → Nat

inductive QuotaError
  | engine (e : EngineError)
  | policyRejected (message : String)
deriving DecidableEq

namespace TenantQuotaPolicy

variable (p : TenantQuotaPolicy)

def capFor (t : Tenant) : Nat := (p.maxBytes t).getD p.defaultMaxBytes

def preWrite (key : Bytes) (valueLen : Nat) (existingValueLen : Option Nat) (isDelete : Bool) :
    Except QuotaError Unit :=
  if isDelete then .ok ()
  else
    match tenantFromKey key with
    | none => .ok ()
    | some t =>
      let cap := p.capFor t
      if cap = 0 then .ok ()
      else
        let newTotal := p.usage t - existingValueLen.getD 0 + valueLen
        if cap < newTotal then
          .error (.policyRejected ("tenant quota exceeded (" ++ toString newTotal ++ " > " ++
            toString cap ++ ")"))
        else .ok ()

def postWrite (key : Bytes) (valueLen : Nat) (existingValueLen : Option Nat) (isDelete : Bool) :
    TenantQuotaPolicy :=
  match tenantFromKey key with
  | none => p
  | some t =>
    let freed := existingValueLen.getD 0
    let newTotal := if isDelete then p.usage t - freed else p.usage t - freed + valueLen
    { p with usage := Function.update p.usage t newTotal }

end TenantQuotaPolicy

def BatchOp.isDelete : BatchOp → Bool
  | .put _ _ _ => false
  | .del _ => true

def VersionStore.tenantUsageBytes (st : VersionStore) (nowMs : Nat) (t : Tenant) : Nat :=
  (((st.snapshotOwned.scan [ksUser] [ksUser + 1] nowMs).filter fun e => tenantFromKey e.1 = some t).map
    fun e => e.2.length).sum

/-- The engine with the jobs it has finished and not published, and the policy it asks. -/
structure QuotaEngine where
  db : Queued EngineState Compacting
  nowMs : Nat
  policy : TenantQuotaPolicy

namespace QuotaEngine

variable (s : QuotaEngine)

-- the lookup of `get`, which cannot fail: the key has been validated by then
def existingLen (nowMs : Nat) (key : Bytes) : Option Nat :=
  (s.db.state.view.handleGet key u64Max nowMs).map List.length

def tenantUsageBytes (nowMs : Nat) (t : Tenant) : Nat :=
  ((((s.db.state.view.scan (s.db.state.nextSeq - 1) [ksUser] [ksUser + 1] nowMs).getD []).filter
    fun e => tenantFromKey e.1 = some t).map fun e => e.2.length).sum

def preWrites : List BatchOp → Except QuotaError Unit
  | [] => .ok ()
  | op :: ops =>
    (s.policy.preWrite op.key op.value.length (s.existingLen s.nowMs op.key) op.isDelete).bind fun _ =>
      preWrites ops

def admission (ops : List BatchOp) (sysPuts : List (Bytes × Bytes)) : Except QuotaError Unit :=
  ((validateBatch ops sysPuts).mapError .engine).bind fun _ => s.preWrites ops

def admissionOne (op : BatchOp) : Except QuotaError Unit :=
  ((validateOp op).mapError .engine).bind fun _ =>
    s.policy.preWrite op.key op.value.length (s.existingLen s.nowMs op.key) op.isDelete

def postWrites (ops : List BatchOp) : TenantQuotaPolicy :=
  ops.foldl (fun p op =>
    p.postWrite op.key op.value.length (s.existingLen s.nowMs op.key) op.isDelete) s.policy

/-- The engine after a write that the policy admits. It refuses one when it is out of numbers. -/
def written (cfg : CompactionConfig) (admitted : Except QuotaError Unit) (a : EngineAction) :
    Option (Queued EngineState Compacting) :=
  match admitted with
  | .ok _ => (EngineState.jobs cfg).queuedStep s.db (.base a)
  | .error _ => none

def write (cfg : CompactionConfig) (admitted : Except QuotaError Unit) (a : EngineAction)
    (ops : List BatchOp) : QuotaEngine :=
  match s.written cfg admitted a with
  | some db => { s with db, policy := s.postWrites ops }
  | none => s

end QuotaEngine

inductive QuotaAction
  | put (key value : Bytes) (expiresAt : Nat)
  | del (key : Bytes)
  | batch (ops : List BatchOp) (sysPuts : List (Bytes × Bytes))
  /-- A write that took its number and could not be appended to the log. -/
  | appendFailed
  /-- A step of the engine on its memtables, tables and jobs. -/
  | maintain (a : QueuedAction EngineAction)
  | tick (ms : Nat)

namespace QuotaEngine

variable (cfg : CompactionConfig)

def next (s : QuotaEngine) : QuotaAction → QuotaEngine
  | .put key value expiresAt =>
    s.write cfg (s.admissionOne (.put key value expiresAt)) (.put key value expiresAt)
      [.put key value expiresAt]
  | .del key => s.write cfg (s.admissionOne (.del key)) (.del key) [.del key]
  | .batch ops sysPuts => s.write cfg (s.admission ops sysPuts) (.writeBatch ops sysPuts) ops
  | .appendFailed =>
    if s.db.state.nextSeq < u64Max then
      { s with db.state := { s.db.state with nextSeq := s.db.state.nextSeq + 1 } }
    else s
  | .maintain a =>
    match (EngineState.jobs cfg).queuedStep s.db a with
    | some db => { s with db }
    | none => s
  | .tick ms => { s with nowMs := s.nowMs + ms }

def step (s : QuotaEngine) (a : QuotaAction) : Option QuotaEngine := some (s.next cfg a)

def init (defaultMaxBytes : Nat) (maxBytes : Tenant → Option Nat) : QuotaEngine :=
  ⟨⟨.init, []⟩, 0, ⟨defaultMaxBytes, maxBytes, fun _ => 0⟩⟩

theorem admissionOne_eq (s : QuotaEngine) (op : BatchOp) :
    s.admissionOne op = s.admission [op] [] := by
  have hv : validateBatch [op] [] = validateOp op := by
    unfold validateBatch
    rw [if_neg (by simp), if_neg (by simp [maxBatchKeys])]
    cases hop : validateOp op with
    | error e => simp [validateDistinct, hop, Except.bind]
    | ok u => simp [validateDistinct, hop, Except.bind]
  unfold admissionOne admission
  rw [hv]
  cases validateOp op with
  | error e => rfl
  | ok u =>
    show s.policy.preWrite op.key op.value.length (s.existingLen s.nowMs op.key) op.isDelete =
      (s.policy.preWrite op.key op.value.length (s.existingLen s.nowMs op.key) op.isDelete).bind _
    cases s.policy.preWrite op.key op.value.length (s.existingLen s.nowMs op.key) op.isDelete with
    | error e => rfl
    | ok u => rfl

end QuotaEngine

end ZydecoDb
