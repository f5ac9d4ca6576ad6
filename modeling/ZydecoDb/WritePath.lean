import ZydecoDb.FairShare
import ZydecoDb.Quota

namespace ZydecoDb

open Lib

inductive WriteError
  | engine (e : EngineError)
  | policyRejected (message : String)
  | engineBusy (message : String)
deriving DecidableEq

def QuotaError.toWriteError : QuotaError → WriteError
  | .engine e => .engine e
  | .policyRejected message => .policyRejected message

def maxInFlightWalBytes : Nat := 256 * 1024 * 1024

structure WriteConfig where
  memtableFlushThreshold : Nat
  maxImmutableMemtables : Nat
  l0WriteStallThreshold : Option Nat
  l0Trigger : Nat

namespace WriteConfig

variable (cfg : WriteConfig)

def immHard : Nat := max (cfg.maxImmutableMemtables * 2) (cfg.maxImmutableMemtables + 1)

def l0StallThreshold : Nat := cfg.l0WriteStallThreshold.getD (max (cfg.l0Trigger * 5) 20)

end WriteConfig

/-- What a call finds outside the memtables: the clock, the flags and depths the backpressure check
reads, and how appending the record to the log ends. -/
structure WriteEnv where
  nowMs : Nat
  freezeWrites : Bool
  inFlightWalBytes : Nat
  queueDepth : Nat
  forkB : Tenant → Bool
  append : Except EngineError Unit

structure WriteEngine where
  engine : EngineState
  fair : FairShareState
  policy : TenantQuotaPolicy

def FairShareState.shouldAttributeStall (s : FairShareState) (forkB : Bool) (t : Tenant) : Bool :=
  s.cfg.enabled && (s.tenants.get t).any fun u =>
    s.cfg.fairShareMemtable < u.memtableBytes || s.cfg.l0TokenBudget < u.l0TokenDebt || forkB

namespace WriteEngine

variable (cfg : WriteConfig) (s : WriteEngine) (env : WriteEnv)

def l0Count : Nat := (s.engine.sstables.filter fun t => t.metadata.level = 0).length

def attributeToNoisy (key : Bytes) : Bool :=
  s.fair.cfg.enabled &&
    (tenantFromKey key).any fun t => s.fair.shouldAttributeStall (env.forkB t) t

def noteStall (key : Bytes) : FairShareState :=
  match tenantFromKey key with
  | some t => if s.attributeToNoisy env key then s.fair.chargeL0Tokens t 1 else s.fair
  | none => s.fair

def checkBackpressureForKey (key : Bytes) : FairShareState × Except WriteError Unit :=
  let spared := s.fair.cfg.enabled && !s.attributeToNoisy env key
  let immLen := s.engine.immutable.length
  if env.freezeWrites then (s.fair, .error (.engineBusy "writes frozen"))
  else if maxInFlightWalBytes < env.inFlightWalBytes then
    (s.fair, .error (.engineBusy "WAL in-flight limit"))
  else if cfg.immHard ≤ immLen then (s.fair, .error (.engineBusy "flush queue full"))
  else if cfg.maxImmutableMemtables ≤ immLen && !spared then
    (s.noteStall env key, .error (.engineBusy "flush queue full"))
  else if 4 ≤ env.queueDepth && !spared then
    (s.noteStall env key,
      .error (.engineBusy ("compaction backlog (queue depth " ++ toString env.queueDepth ++ ")")))
  else if cfg.l0StallThreshold ≤ s.l0Count && !spared then
    (s.noteStall env key,
      .error (.engineBusy ("L0 compaction backlog (" ++ toString s.l0Count ++ " files)")))
  else (s.fair, .ok ())

def existingLen (key : Bytes) : Option Nat :=
  (s.engine.view.getWithSeq key u64Max env.nowMs).map fun r => r.1.length

def preWrites : List BatchOp → Except WriteError Unit
  | [] => .ok ()
  | op :: ops =>
    ((s.policy.preWrite op.key op.value.length (s.existingLen env op.key) op.isDelete).mapError
      QuotaError.toWriteError).bind fun _ => preWrites ops

def admitPuts (fair : FairShareState) : List BatchOp → FairShareState × Except WriteError Unit
  | [] => (fair, .ok ())
  | .del _ :: ops => admitPuts fair ops
  | .put key value _ :: ops =>
    match tenantFromKey key with
    | none => admitPuts fair ops
    | some t =>
      match fair.admitMemtable t value.length with
      | (fair, .error message) => (fair, .error (.engineBusy message))
      | (fair, .ok ()) => admitPuts fair ops

def maybeFreeze (engine : EngineState) : EngineState :=
  if engine.active.sizeBytes ≤ cfg.memtableFlushThreshold then engine
  else { engine with active := .empty, immutable := engine.immutable ++ [engine.active] }

def insertAll (ops : List BatchOp) (sysPuts : List (Bytes × Bytes)) : WriteEngine where
  engine := maybeFreeze cfg
    { s.engine with
      active := (ops ++ sysPuts.map fun p => BatchOp.put p.1 p.2 0).foldl
        (fun mt op => mt.insert (op.version s.engine.nextSeq)) s.engine.active
      nextSeq := s.engine.nextSeq + 1 }
  fair := s.fair
  policy := ops.foldl (fun p op =>
    p.postWrite op.key op.value.length (s.existingLen env op.key) op.isDelete) s.policy

def writeChecked (ops : List BatchOp) (sysPuts : List (Bytes × Bytes)) :
    WriteEngine × Except WriteError Nat :=
  match s.preWrites env ops with
  | .error e => (s, .error e)
  | .ok () =>
    match admitPuts s.fair ops with
    | (fair, .error e) => ({ s with fair := fair }, .error e)
    | (fair, .ok ()) =>
      match env.append with
      | .error e =>
        ({ s with fair := fair, engine := { s.engine with nextSeq := s.engine.nextSeq + 1 } },
          .error (.engine e))
      | .ok () => ({ s with fair := fair }.insertAll cfg env ops sysPuts, .ok s.engine.nextSeq)

def checkThenWrite (valid : Except EngineError Unit) (pressureKey : Bytes) (ops : List BatchOp)
    (sysPuts : List (Bytes × Bytes)) : WriteEngine × Except WriteError Nat :=
  match valid with
  | .error e => (s, .error (.engine e))
  | .ok () =>
    match s.checkBackpressureForKey cfg env pressureKey with
    | (fair, .error e) => ({ s with fair := fair }, .error e)
    | (fair, .ok ()) => { s with fair := fair }.writeChecked cfg env ops sysPuts

def put (key value : Bytes) (expiresAt : Nat) : WriteEngine × Except WriteError Nat :=
  s.checkThenWrite cfg env (validateOp (.put key value expiresAt)) key [.put key value expiresAt] []

def del (key : Bytes) : WriteEngine × Except WriteError Nat :=
  s.checkThenWrite cfg env (validateOp (.del key)) key [.del key] []

def writeBatchInner (ops : List BatchOp) (sysPuts : List (Bytes × Bytes)) :
    WriteEngine × Except WriteError Nat :=
  s.checkThenWrite cfg env (validateBatch ops sysPuts) ((ops.head?.map BatchOp.key).getD []) ops sysPuts

end WriteEngine

inductive WriteCall
  | put (key value : Bytes) (expiresAt : Nat)
  | del (key : Bytes)
  | batch (ops : List BatchOp) (sysPuts : List (Bytes × Bytes))
deriving DecidableEq

def WriteCall.ops : WriteCall → List BatchOp
  | .put key value expiresAt => [.put key value expiresAt]
  | .del key => [.del key]
  | .batch ops _ => ops

def WriteCall.sysPuts : WriteCall → List (Bytes × Bytes)
  | .batch _ sysPuts => sysPuts
  | _ => []

def WriteCall.validate : WriteCall → Except EngineError Unit
  | .put key value expiresAt => validateOp (.put key value expiresAt)
  | .del key => validateOp (.del key)
  | .batch ops sysPuts => validateBatch ops sysPuts

def WriteCall.pressureKey : WriteCall → Bytes
  | .put key _ _ => key
  | .del key => key
  | .batch ops _ => (ops.head?.map BatchOp.key).getD []

def WriteEngine.write (cfg : WriteConfig) (s : WriteEngine) (env : WriteEnv) :
    WriteCall → WriteEngine × Except WriteError Nat
  | .put key value expiresAt => s.put cfg env key value expiresAt
  | .del key => s.del cfg env key
  | .batch ops sysPuts => s.writeBatchInner cfg env ops sysPuts

namespace WriteEngine

variable {cfg : WriteConfig} {s : WriteEngine} {env : WriteEnv}

theorem write_eq_checkThenWrite (call : WriteCall) :
    s.write cfg env call =
      s.checkThenWrite cfg env call.validate call.pressureKey call.ops call.sysPuts := by
  cases call <;> rfl

theorem checkBackpressureForKey_ok {key : Bytes}
    (h : (s.checkBackpressureForKey cfg env key).2 = .ok ()) :
    (s.checkBackpressureForKey cfg env key).1 = s.fair ∧ s.engine.immutable.length < cfg.immHard := by
  unfold checkBackpressureForKey at h ⊢
  dsimp only at h ⊢
  split_ifs at h ⊢
  next => exact ⟨rfl, by omega⟩

theorem writeChecked_cases (cfg : WriteConfig) (s : WriteEngine) (env : WriteEnv) (ops : List BatchOp)
    (sysPuts : List (Bytes × Bytes)) :
    (∃ e, (s.writeChecked cfg env ops sysPuts).2 = .error e ∧ ∃ nextSeq, s.engine.nextSeq ≤ nextSeq ∧
      (s.writeChecked cfg env ops sysPuts).1.engine = { s.engine with nextSeq := nextSeq }) ∨
    (admitPuts s.fair ops).2 = .ok () ∧ env.append = .ok () ∧
      s.writeChecked cfg env ops sysPuts =
        ({ s with fair := (admitPuts s.fair ops).1 }.insertAll cfg env ops sysPuts,
          .ok s.engine.nextSeq) := by
  unfold writeChecked
  cases hpre : s.preWrites env ops with
  | error e => exact Or.inl ⟨_, rfl, _, le_rfl, rfl⟩
  | ok u =>
    cases hdrawn : admitPuts s.fair ops with
    | mk fair r =>
      cases r with
      | error e => exact Or.inl ⟨_, rfl, _, le_rfl, rfl⟩
      | ok u =>
        cases happ : env.append with
        | error e => exact Or.inl ⟨_, rfl, _, Nat.le_succ _, rfl⟩
        | ok u => exact Or.inr ⟨rfl, rfl, rfl⟩

/-- A write fails with at most numbers drawn, or does all its effects. -/
theorem write_cases (cfg : WriteConfig) (s : WriteEngine) (env : WriteEnv) (call : WriteCall) :
    (∃ e, (s.write cfg env call).2 = .error e ∧ ∃ nextSeq, s.engine.nextSeq ≤ nextSeq ∧
      (s.write cfg env call).1.engine = { s.engine with nextSeq := nextSeq }) ∨
    call.validate = .ok () ∧ (s.checkBackpressureForKey cfg env call.pressureKey).2 = .ok () ∧
      (admitPuts s.fair call.ops).2 = .ok () ∧ env.append = .ok () ∧
      s.write cfg env call =
        ({ s with fair := (admitPuts s.fair call.ops).1 }.insertAll cfg env call.ops call.sysPuts,
          .ok s.engine.nextSeq) := by
  rw [write_eq_checkThenWrite]
  unfold checkThenWrite
  cases hvalid : call.validate with
  | error e => exact Or.inl ⟨_, rfl, _, le_rfl, rfl⟩
  | ok u =>
    cases hpress : s.checkBackpressureForKey cfg env call.pressureKey with
    | mk fair r =>
      cases r with
      | error e => exact Or.inl ⟨_, rfl, _, le_rfl, rfl⟩
      | ok u =>
        have hfair : fair = s.fair := by
          have hok := (checkBackpressureForKey_ok (by rw [hpress])).1
          rwa [hpress] at hok
        subst hfair
        rcases writeChecked_cases cfg s env call.ops call.sysPuts with hfail | ⟨hdrawn, happ, heq⟩
        · exact Or.inl hfail
        · exact Or.inr ⟨rfl, rfl, hdrawn, happ, heq⟩

end WriteEngine

end ZydecoDb
