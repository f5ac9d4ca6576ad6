import ZydecoDb.Engine

namespace ZydecoDb

namespace CompactionPlanner

variable (metas : List SstableMeta) (cfg : CompactionConfig)

def levelScore (level : Nat) : Rat :=
  (((computeLevelScores metas cfg).find? fun p => p.1 = level).map Prod.snd).getD 0

def priorityScore : Rat :=
  (((levelsByScore metas cfg).find? fun level => (planForLevel metas cfg level).isSome).map
    (levelScore metas cfg)).getD 0

end CompactionPlanner

structure WorkItem where
  compacting : Compacting
  priorityScore : Rat

inductive CatalogApply
  | flush
  | compaction (c : Compacting)

/-- Where the compaction worker stands in its loop. A result is the job with its outputs, or an
error. -/
inductive CompactionWorker
  | waiting
  | running (c : Compacting)
  | finished (result : Option Compacting)
  | counted (result : Option Compacting)
  | cleared (result : Option Compacting)

/-- Where the apply worker stands: between `recv` and the append, or between the append and the
decrement of `pending_count`. -/
inductive ApplyWorker
  | waiting
  | handed (apply : CatalogApply)
  | appended

/-- Where the engine's owner stands. The states of `maybe_submit_compaction` are named for the read or
the step that comes next. -/
inductive CompactionPc
  | idle
  | pendingApplies
  | readyCount
  | stagedBusy
  | stagedPending
  | planCompactionJob
  | trySubmitBusy (item : WorkItem)
  | trySubmitPending (item : WorkItem)
  | compactOnce (c : Compacting)
  | drainCatalogApply (rest : List CatalogApply)
  | storeNextId (rest : List CatalogApply)

/-- The engine with its compaction and apply workers. `nextSstableId` is the owner's copy of the id
counter, `flushPolled` that the flushed table is with the apply worker, and `published` the jobs
whose outputs are in the catalog, latest first. -/
structure CompactionSystem where
  engine : EngineState
  nextSstableId : Nat
  pc : CompactionPc
  worker : CompactionWorker
  workerBusy : Bool
  resultsPending : Nat
  results : List (Option Compacting)
  staged : Option WorkItem
  applyWorker : ApplyWorker
  applyQueue : List CatalogApply
  pendingCount : Nat
  ready : List CatalogApply
  flushPolled : Bool
  published : List Compacting

def EngineState.workItem (cfg : CompactionConfig) (st : EngineState) (nowMs : Nat) :
    Option WorkItem :=
  (ZydecoDb.planCompactionJob st.metas cfg).map fun plan =>
    let policy : GcPolicy :=
      ⟨st.compactionGcWatermark, st.compactionDropTombstones cfg plan.1, nowMs⟩
    let sources := (st.inputTables (plan.2.map SstableMeta.id)).map fun t => t.reader.entries
    { compacting := ⟨plan.1, plan.2, compactionRuns policy cfg.targetFileBytes sources, []⟩
      priorityScore := CompactionPlanner.priorityScore st.metas cfg }

def EngineState.writeOutput (cfg : CompactionConfig) (st : EngineState) (bloom : Bytes → Bool) :
    Compacting → Option (EngineState × Compacting)
  | ⟨job, inputMetas, run :: pending, written⟩ =>
    let withBloom := !(cfg.optimizeFiltersForHits && job.outputLevel = cfg.maxLevel)
    if run.all fun v => bloom v.userKey then
      let t := buildSstable st.nextSstableId job.outputLevel run (if withBloom then some bloom else none)
      some ({ st with nextSstableId := st.nextSstableId + 1 }, ⟨job, inputMetas, pending, written ++ [t]⟩)
    else none
  | ⟨_, _, [], _⟩ => none

def EngineAction.outside : EngineAction → Bool
  | .flushExecute _ => true
  | .snapshotDrop _ => true
  | _ => false

def EngineAction.scheduled : EngineAction → Bool
  | .flushPublish => true
  | .flushFailed => true
  | .submitCompaction _ => true
  | .writeCompactionOutput _ => true
  | .compactionPublish => true
  | .compactionFailed => true
  | _ => false

inductive SchedulerAction
  | engine (action : EngineAction)
  | pollFlush (ok : Bool)
  | pollResults
  | drainCatalogApply
  | maybeSubmitCompaction
  | compactOnce (nowMs : Nat)
  | owner (nowMs : Nat)
  | compactOnceWrite (bloom : Bytes → Bool)
  | compactOnceEnd (ok : Bool)
  | workerWrite (bloom : Bytes → Bool)
  | workerEnd (ok : Bool)
  | workerReport
  | applyTake
  | applyAppend (ok : Bool)
  | applyCount

namespace CompactionSystem

def init : CompactionSystem where
  engine := .init
  nextSstableId := 1
  pc := .idle
  worker := .waiting
  workerBusy := false
  resultsPending := 0
  results := []
  staged := none
  applyWorker := .waiting
  applyQueue := []
  pendingCount := 0
  ready := []
  flushPolled := false
  published := []

def submitApply (s : CompactionSystem) (apply : CatalogApply) : CompactionSystem :=
  { s with applyQueue := s.applyQueue ++ [apply], pendingCount := s.pendingCount + 1 }

def submitWork (s : CompactionSystem) (item : WorkItem) : CompactionSystem :=
  { s with workerBusy := true, worker := .running item.compacting }

def stageIfBusy (s : CompactionSystem) (item : WorkItem) : CompactionSystem :=
  match s.staged with
  | some existing =>
    if existing.priorityScore < item.priorityScore then { s with staged := some item } else s
  | none => { s with staged := some item }

def publishCatalogApply (s : CompactionSystem) (rest : List CatalogApply) :
    CatalogApply → Option CompactionSystem
  | .flush =>
    s.engine.flushPublish.map fun engine =>
      let added := s.engine.flushed.toList
      { s with
        engine
        nextSstableId := added.foldl (fun next t => max next (t.metadata.id + 1))
          (max s.nextSstableId s.engine.nextSstableId)
        pc := .storeNextId rest
        flushPolled := false }
  | .compaction c =>
    some { s with
      engine := { s.engine with
        sstables := EngineState.publishCatalog (c.inputMetas.map SstableMeta.id) c.written
          s.engine.sstables }
      nextSstableId := c.written.foldl (fun next t => max next (t.metadata.id + 1))
        (max s.nextSstableId s.engine.nextSstableId)
      pc := .storeNextId rest
      published := c :: s.published }

def ownerStep (cfg : CompactionConfig) (s : CompactionSystem) (nowMs : Nat) :
    Option CompactionSystem :=
  match s.pc with
  | .idle => none
  | .pendingApplies => some { s with pc := if 0 < s.pendingCount then .idle else .readyCount }
  | .readyCount => some { s with pc := if s.ready.isEmpty then .stagedBusy else .idle }
  | .stagedBusy =>
    some { s with pc := if s.workerBusy then .planCompactionJob else .stagedPending }
  | .stagedPending =>
    if 0 < s.resultsPending then some { s with pc := .planCompactionJob }
    else match s.staged with
      | some item => some { s.submitWork item with staged := none, pc := .idle }
      | none => some { s with pc := .planCompactionJob }
  | .planCompactionJob =>
    match s.engine.workItem cfg nowMs with
    | some item => some { s with pc := .trySubmitBusy item }
    | none => some { s with pc := .idle }
  | .trySubmitBusy item =>
    if s.workerBusy then some { s.stageIfBusy item with pc := .idle }
    else some { s with pc := .trySubmitPending item }
  | .trySubmitPending item =>
    if 0 < s.resultsPending then some { s with pc := .idle }
    else some { s.submitWork item with pc := .idle }
  | .compactOnce _ => none
  | .drainCatalogApply [] => some { s with pc := .idle }
  | .drainCatalogApply (apply :: rest) => s.publishCatalogApply rest apply
  | .storeNextId rest =>
    some { s with
      engine := { s.engine with nextSstableId := s.nextSstableId }
      pc := .drainCatalogApply rest }

def whenIdle (s : CompactionSystem) (next : Option CompactionSystem) : Option CompactionSystem :=
  match s.pc with
  | .idle => next
  | _ => none

def engineStep (cfg : CompactionConfig) (s : CompactionSystem) (action : EngineAction) :
    Option CompactionSystem :=
  (s.engine.step cfg action).map fun engine => { s with engine }

def pollFlush (s : CompactionSystem) (ok : Bool) : Option CompactionSystem :=
  if s.flushPolled || s.engine.flushed.isNone then none
  else if ok then some { s.submitApply .flush with flushPolled := true }
  else some { s with engine := s.engine.flushFailed }

def pollResults (s : CompactionSystem) : CompactionSystem :=
  { s with
    results := []
    resultsPending := s.resultsPending - s.results.length
    staged := if s.results.isEmpty then s.staged else none
    applyQueue := s.applyQueue ++ (s.results.filterMap id).map .compaction
    pendingCount := s.pendingCount + (s.results.filterMap id).length }

def compactOnce (cfg : CompactionConfig) (s : CompactionSystem) (nowMs : Nat) : CompactionSystem :=
  if s.workerBusy then s
  else match s.engine.workItem cfg nowMs with
    | some item => { s with pc := .compactOnce item.compacting }
    | none => s

def compactOnceWrite (cfg : CompactionConfig) (s : CompactionSystem) (bloom : Bytes → Bool) :
    Option CompactionSystem :=
  match s.pc with
  | .compactOnce c =>
    (s.engine.writeOutput cfg bloom c).map fun p => { s with engine := p.1, pc := .compactOnce p.2 }
  | _ => none

def compactOnceEnd (s : CompactionSystem) (ok : Bool) : Option CompactionSystem :=
  match s.pc with
  | .compactOnce c =>
    if !ok then some { s with pc := .idle }
    else if c.pending.isEmpty then some { s.submitApply (.compaction c) with pc := .idle }
    else none
  | _ => none

def workerWrite (cfg : CompactionConfig) (s : CompactionSystem) (bloom : Bytes → Bool) :
    Option CompactionSystem :=
  match s.worker with
  | .running c =>
    (s.engine.writeOutput cfg bloom c).map fun p => { s with engine := p.1, worker := .running p.2 }
  | _ => none

section

variable (s : CompactionSystem)

def workerEnd (ok : Bool) : Option CompactionSystem :=
  match s.worker with
  | .running c =>
    if !ok then some { s with worker := .finished none }
    else if c.pending.isEmpty then some { s with worker := .finished (some c) }
    else none
  | _ => none

def workerReport : Option CompactionSystem :=
  match s.worker with
  | .finished result =>
    some { s with worker := .counted result, resultsPending := s.resultsPending + 1 }
  | .counted result => some { s with worker := .cleared result, workerBusy := false }
  | .cleared result => some { s with worker := .waiting, results := s.results ++ [result] }
  | _ => none

def applyTake : Option CompactionSystem :=
  match s.applyWorker, s.applyQueue with
  | .waiting, apply :: rest => some { s with applyWorker := .handed apply, applyQueue := rest }
  | _, _ => none

def applyAppend (ok : Bool) : Option CompactionSystem :=
  match s.applyWorker with
  | .handed apply =>
    some { s with applyWorker := .appended, ready := if ok then s.ready ++ [apply] else s.ready }
  | _ => none

def applyCount : Option CompactionSystem :=
  match s.applyWorker with
  | .appended => some { s with applyWorker := .waiting, pendingCount := s.pendingCount - 1 }
  | _ => none

end

def step (cfg : CompactionConfig) (s : CompactionSystem) :
    SchedulerAction → Option CompactionSystem
  | .engine action =>
    if action.outside then s.engineStep cfg action
    else if action.scheduled then none
    else s.whenIdle (s.engineStep cfg action)
  | .pollFlush ok => s.whenIdle (s.pollFlush ok)
  | .pollResults => s.whenIdle (some s.pollResults)
  | .drainCatalogApply =>
    s.whenIdle (some { s with ready := [], pc := .drainCatalogApply s.ready })
  | .maybeSubmitCompaction =>
    s.whenIdle (some { s with pc := if 0 < s.resultsPending then .idle else .pendingApplies })
  | .compactOnce nowMs => s.whenIdle (some (s.compactOnce cfg nowMs))
  | .owner nowMs => s.ownerStep cfg nowMs
  | .compactOnceWrite bloom => s.compactOnceWrite cfg bloom
  | .compactOnceEnd ok => s.compactOnceEnd ok
  | .workerWrite bloom => s.workerWrite cfg bloom
  | .workerEnd ok => s.workerEnd ok
  | .workerReport => s.workerReport
  | .applyTake => s.applyTake
  | .applyAppend ok => s.applyAppend ok
  | .applyCount => s.applyCount

end CompactionSystem

def applyActions : List SchedulerAction :=
  [.applyTake, .applyAppend true, .applyCount, .drainCatalogApply, .owner 0, .owner 0, .owner 0]

def flushedPut (key value : Bytes) : List SchedulerAction :=
  [.engine (.put key value 0), .engine .freeze, .engine (.flushExecute fun _ => true),
    .pollFlush true] ++ applyActions

def backgroundJob : List SchedulerAction :=
  .maybeSubmitCompaction :: List.replicate 7 (.owner 0) ++
    [.workerWrite fun _ => true, .workerEnd true, .workerReport, .workerReport]

def compactOnceJob : List SchedulerAction :=
  [.compactOnce 0, .compactOnceWrite fun _ => true, .compactOnceEnd true] ++ applyActions

end ZydecoDb
