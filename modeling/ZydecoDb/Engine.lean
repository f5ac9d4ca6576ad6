import ZydecoDb.Scan
import ZydecoDb.CompactionRuns

namespace ZydecoDb

inductive BatchOp
  | put (key value : Bytes) (expiresAt : Nat)
  | del (key : Bytes)
deriving DecidableEq, Repr

namespace BatchOp

def key : BatchOp → Bytes
  | .put key _ _ => key
  | .del key => key

def value : BatchOp → Bytes
  | .put _ value _ => value
  | .del _ => []

def version (seq : Nat) : BatchOp → Version
  | .put key value expiresAt =>
    ⟨key, seq, .value value (if expiresAt = 0 then none else some expiresAt)⟩
  | .del key => ⟨key, seq, .tombstone⟩

@[simp] theorem version_userKey (seq : Nat) (op : BatchOp) :
    (op.version seq).userKey = op.key := by cases op <;> rfl

@[simp] theorem version_seq (seq : Nat) (op : BatchOp) : (op.version seq).seq = seq := by
  cases op <;> rfl

end BatchOp

def validateOp (op : BatchOp) : Except EngineError Unit := do
  validateUserKey op.key
  match op with
  | .put _ value _ => validateValue value
  | .del _ => pure ()

def validateSysPut (p : Bytes × Bytes) : Except EngineError Unit := do
  validateSystemKey p.1
  validateValue p.2

def validateDistinct {α : Type} (check : α → Except EngineError Unit) (key : α → Bytes) :
    List Bytes → List α → Except EngineError (List Bytes)
  | seen, [] => .ok seen
  | seen, a :: rest => (check a).bind fun _ =>
    if key a ∈ seen then .error (.invalidKey "duplicate key in batch")
    else validateDistinct check key (key a :: seen) rest

def validateBatch (ops : List BatchOp) (sysPuts : List (Bytes × Bytes)) :
    Except EngineError Unit :=
  if ops.isEmpty && sysPuts.isEmpty then .error (.invalidKey "empty batch")
  else if maxBatchKeys < ops.length + sysPuts.length then
    .error (.invalidKey ("batch size " ++ toString (ops.length + sysPuts.length) ++
      " exceeds MAX_BATCH_KEYS " ++ toString maxBatchKeys))
  else
    (validateDistinct validateOp BatchOp.key [] ops).bind fun seen =>
      (validateDistinct validateSysPut Prod.fst seen sysPuts).bind fun _ => .ok ()

structure Compacting where
  job : CompactionJob
  inputMetas : List SstableMeta
  pending : List (List Version)
  written : List LoadedSstable

/-- The engine as its readers and its background workers see it. `immutable` is the FIFO of frozen
memtables; `flushed` is the table the flush worker has written and the owner not yet published. -/
structure EngineState where
  active : Memtable
  immutable : List Memtable
  sstables : List LoadedSstable
  nextSeq : Nat
  bufferedSeq : Nat
  syncedSeq : Nat
  nextSstableId : Nat
  flushed : Option LoadedSstable
  compacting : Option Compacting
  liveSnapshotSeqs : List Nat

namespace EngineState

def init : EngineState where
  active := .empty
  immutable := []
  sstables := []
  nextSeq := 1
  bufferedSeq := 0
  syncedSeq := 0
  nextSstableId := 1
  flushed := none
  compacting := none
  liveSnapshotSeqs := []

section

variable (st : EngineState)

def view : ReadView := ⟨st.active, st.immutable, st.sstables⟩

def metas : List SstableMeta := st.sstables.map LoadedSstable.metadata

def commit (ops : List BatchOp) : Option EngineState :=
  if st.nextSeq < u64Max then
    some { st with
      active := ops.foldl (fun mt op => mt.insert (op.version st.nextSeq)) st.active
      nextSeq := st.nextSeq + 1
      bufferedSeq := max st.bufferedSeq st.nextSeq }
  else none

def put (key value : Bytes) (expiresAt : Nat) : Option EngineState :=
  match validateOp (.put key value expiresAt) with
  | .ok () => st.commit [.put key value expiresAt]
  | .error _ => none

def del (key : Bytes) : Option EngineState :=
  match validateOp (.del key) with
  | .ok () => st.commit [.del key]
  | .error _ => none

def writeBatchInner (ops : List BatchOp) (sysPuts : List (Bytes × Bytes)) : Option EngineState :=
  match validateBatch ops sysPuts with
  | .ok () => st.commit (ops ++ sysPuts.map fun p => .put p.1 p.2 0)
  | .error _ => none

def syncWal : EngineState :=
  { st with syncedSeq := max st.syncedSeq st.bufferedSeq }

def freeze : Option EngineState :=
  if st.active.isEmpty then none
  else some { st with active := .empty, immutable := st.immutable ++ [st.active] }

def flushExecute (bloom : Bytes → Bool) : Option EngineState :=
  match st.flushed, st.immutable with
  | none, mt :: _ =>
    if mt.entries.all fun v => bloom v.userKey then
      some { st with
        flushed := some (buildSstable st.nextSstableId 0 mt.entries (some bloom))
        nextSstableId := st.nextSstableId + 1 }
    else none
  | _, _ => none

end

def publishCatalog (removed : List Nat) (added sstables : List LoadedSstable) : List LoadedSstable :=
  ((sstables.filter fun t => t.metadata.id ∉ removed) ++ added).insertionSort
    fun a b => a.metadata.id ≤ b.metadata.id

def flushPublish (st : EngineState) : Option EngineState :=
  st.flushed.map fun t =>
    { st with
      sstables := publishCatalog [] [t] st.sstables
      immutable := st.immutable.tail
      flushed := none
      bufferedSeq := max st.bufferedSeq t.metadata.maxSeq
      syncedSeq := max st.syncedSeq t.metadata.maxSeq }

def flushFailed (st : EngineState) : EngineState := { st with flushed := none }

def compactionGcWatermark (st : EngineState) : Nat := (st.liveSnapshotSeqs.min?).getD st.syncedSeq

def compactionDropTombstones (st : EngineState) (cfg : CompactionConfig) (job : CompactionJob) :
    Bool :=
  job.outputLevel = cfg.maxLevel && st.liveSnapshotSeqs.isEmpty

def inputTables (st : EngineState) (ids : List Nat) : List LoadedSstable :=
  st.sstables.filter fun t => t.metadata.id ∈ ids

/-- `compacting` is the job being executed, one at a time. Finished jobs that are not yet published
wait in the queue of `QueuedEngine`, beside which `compact_once` may plan another one. -/
def submitCompaction (cfg : CompactionConfig) (st : EngineState) (nowMs : Nat) :
    Option EngineState :=
  match st.compacting with
  | some _ => none
  | none =>
    (planCompactionJob st.metas cfg).map fun plan =>
      let policy : GcPolicy :=
        ⟨st.compactionGcWatermark, st.compactionDropTombstones cfg plan.1, nowMs⟩
      let sources := (st.inputTables (plan.2.map SstableMeta.id)).map fun t => t.reader.entries
      { st with
        compacting := some ⟨plan.1, plan.2, compactionRuns policy cfg.targetFileBytes sources, []⟩ }

def writeCompactionOutput (cfg : CompactionConfig) (st : EngineState) (bloom : Bytes → Bool) :
    Option EngineState :=
  match st.compacting with
  | some ⟨job, inputMetas, run :: pending, written⟩ =>
    let withBloom := !(cfg.optimizeFiltersForHits && job.outputLevel = cfg.maxLevel)
    if run.all fun v => bloom v.userKey then
      let t := buildSstable st.nextSstableId job.outputLevel run (if withBloom then some bloom else none)
      some { st with
        compacting := some ⟨job, inputMetas, pending, written ++ [t]⟩
        nextSstableId := st.nextSstableId + 1 }
    else none
  | _ => none

def compactionPublish (st : EngineState) : Option EngineState :=
  match st.compacting with
  | some ⟨_, inputMetas, [], written⟩ =>
    some { st with
      sstables := publishCatalog (inputMetas.map SstableMeta.id) written st.sstables
      compacting := none }
  | _ => none

def compactionFailed (st : EngineState) : EngineState := { st with compacting := none }

def snapshotOwned (st : EngineState) : EngineState :=
  { st with liveSnapshotSeqs := (st.nextSeq - 1) :: st.liveSnapshotSeqs }

def snapshotDrop (st : EngineState) (seqUpper : Nat) : EngineState :=
  { st with liveSnapshotSeqs := st.liveSnapshotSeqs.erase seqUpper }

end EngineState

inductive EngineAction
  | put (key value : Bytes) (expiresAt : Nat)
  | del (key : Bytes)
  | writeBatch (ops : List BatchOp) (sysPuts : List (Bytes × Bytes))
  | syncWal
  | freeze
  | flushExecute (bloom : Bytes → Bool)
  | flushPublish
  | flushFailed
  | submitCompaction (nowMs : Nat)
  | writeCompactionOutput (bloom : Bytes → Bool)
  | compactionPublish
  | compactionFailed
  | snapshotOwned
  | snapshotDrop (seqUpper : Nat)

def EngineState.step (cfg : CompactionConfig) (st : EngineState) : EngineAction → Option EngineState
  | .put key value expiresAt => st.put key value expiresAt
  | .del key => st.del key
  | .writeBatch ops sysPuts => st.writeBatchInner ops sysPuts
  | .syncWal => some st.syncWal
  | .freeze => st.freeze
  | .flushExecute bloom => st.flushExecute bloom
  | .flushPublish => st.flushPublish
  | .flushFailed => some st.flushFailed
  | .submitCompaction nowMs => st.submitCompaction cfg nowMs
  | .writeCompactionOutput bloom => st.writeCompactionOutput cfg bloom
  | .compactionPublish => st.compactionPublish
  | .compactionFailed => some st.compactionFailed
  | .snapshotOwned => some st.snapshotOwned
  | .snapshotDrop seqUpper => some (st.snapshotDrop seqUpper)

def CompactionConfig.trigger (l0Trigger : Nat) : CompactionConfig :=
  { CompactionConfig.default with l0Trigger := l0Trigger }

def flushActions : List EngineAction := [.freeze, .flushExecute fun _ => true, .flushPublish]

def compactActions (nowMs : Nat) : List EngineAction :=
  [.submitCompaction nowMs, .writeCompactionOutput fun _ => true, .compactionPublish]

end ZydecoDb
