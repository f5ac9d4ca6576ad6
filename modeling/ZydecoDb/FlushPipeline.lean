import ZydecoDb.WritePath

namespace ZydecoDb

open Lib

def attributeBytes : List Version → SortedMap Tenant Nat → SortedMap Tenant Nat
  | [], bytes => bytes
  | v :: entries, bytes =>
    match tenantFromKey v.userKey with
    | none => attributeBytes entries bytes
    | some t => attributeBytes entries (bytes.insert t ((bytes.get t).getD 0 + max v.entry.valueLen 1))

structure FlushJob where
  entries : List Version
  tenantBytes : SortedMap Tenant Nat

structure FlushResult where
  table : LoadedSstable
  tenantBytes : SortedMap Tenant Nat

/-- The flush thread. It is busy while it runs a job; it clears that flag before it sends the result,
which is `none` for a job that failed. -/
inductive FlushWorker
  | idle
  | running (job : FlushJob)
  | sending (result : Option FlushResult)

def FlushWorker.isBusy : FlushWorker → Bool
  | .running _ => true
  | _ => false

inductive ReadyCatalogApply
  | flush (table : LoadedSstable)
  | compaction (removed : List Nat) (added : List LoadedSstable)

/-- How far the owner gets with a change: all the way; not to opening the new tables; not to listing
the log's segments; or to all but the files whose unlinking was put off. -/
inductive PublishOutcome
  | done
  | openFailed
  | unlinkFailed
  | deferredFailed
deriving DecidableEq

/-- The engine with its flush thread and its apply thread, and the tables flushes have published so far,
in order. -/
structure FlushEngine where
  writes : WriteEngine
  flushInFlight : Bool
  worker : FlushWorker
  results : List (Option FlushResult)
  applyQueue : List ReadyCatalogApply
  ready : List ReadyCatalogApply
  applyFailed : Bool
  flushedTables : List LoadedSstable

namespace FlushEngine

variable (s : FlushEngine)

def active : Memtable := s.writes.engine.active

def immutable : List Memtable := s.writes.engine.immutable

def sstables : List LoadedSstable := s.writes.engine.sstables

def fair : FairShareState := s.writes.fair

def setEngine (engine : EngineState) : FlushEngine := { s with writes := { s.writes with engine := engine } }

def setFair (fair : FairShareState) : FlushEngine := { s with writes := { s.writes with fair := fair } }

/-- The oldest frozen memtable goes to the flush thread and stays in the queue; empty ones before it
are dropped. Nothing happens while another flush is on its way. -/
def trySubmitFlush : FlushEngine :=
  if s.flushInFlight || s.worker.isBusy then s
  else
    let s' := s.setEngine { s.writes.engine with immutable := s.immutable.dropWhile Memtable.isEmpty }
    match s'.immutable with
    | [] => s'
    | mt :: _ =>
      { s' with
        worker := .running ⟨mt.entries, attributeBytes mt.entries .empty⟩
        flushInFlight := true }

def releaseFlushed (fair : FairShareState) (fileSize totalAttr : Nat) :
    List (Tenant × Nat) → FairShareState
  | [] => fair
  | (t, bytes) :: rest =>
    releaseFlushed ((fair.releaseMemtable t bytes).chargeL0Tokens t ((bytes * fileSize / totalAttr : Nat) : Int))
      fileSize totalAttr rest

def settleFlush (result : FlushResult) : FlushEngine :=
  s.setFair
    (releaseFlushed s.fair result.table.metadata.sizeBytes (max (result.tenantBytes.sum id) 1)
      result.tenantBytes.entries)

-- the catalog apply is sent to the apply worker, which may be gone
def submitFlushApply (taken : Bool) (result : FlushResult) : FlushEngine × Bool :=
  let s := s.settleFlush result
  if taken then ({ s with applyQueue := s.applyQueue ++ [.flush result.table] }, true) else (s, false)

/-- The results are taken in turn, up to one that cannot be passed on. After a failed job the memtable
is still in the queue, to be submitted again later. -/
def takeResults (taken : Bool) : FlushEngine → List (Option FlushResult) → FlushEngine × Bool
  | s, [] => (s, true)
  | s, none :: rest => takeResults taken { s with flushInFlight := false } rest
  | s, some result :: rest =>
    match s.submitFlushApply taken result with
    | (s, true) => takeResults taken s rest
    | (s, false) => (s, false)

def publishCatalogApply (outcome : PublishOutcome) : ReadyCatalogApply → FlushEngine
  | .flush table =>
    let engine := s.writes.engine
    match outcome with
    | .openFailed => s
    | .unlinkFailed =>
      s.setEngine { engine with sstables := EngineState.publishCatalog [] [table] engine.sstables }
    | .done | .deferredFailed =>
      { s.setEngine
          { engine with
            sstables := EngineState.publishCatalog [] [table] engine.sstables
            immutable := engine.immutable.tail } with
        flushInFlight := false
        flushedTables := s.flushedTables ++ [table] }
  | .compaction removed added =>
    let engine := s.writes.engine
    match outcome with
    | .openFailed =>
      s.setEngine { engine with sstables := EngineState.publishCatalog removed [] engine.sstables }
    | _ =>
      s.setEngine { engine with sstables := EngineState.publishCatalog removed added engine.sstables }

def publishAll : FlushEngine → List ReadyCatalogApply → List PublishOutcome → FlushEngine
  | s, [], _ => s
  | s, apply :: rest, outcomes =>
    let outcome := outcomes.headD .done
    if outcome = .done then publishAll (s.publishCatalogApply .done apply) rest outcomes.tail
    else s.publishCatalogApply outcome apply

def drainCatalogApply (outcomes : List PublishOutcome) : FlushEngine :=
  publishAll { s with ready := [] } s.ready outcomes

def pollFlush (taken : Bool) (outcomes : List PublishOutcome) : FlushEngine :=
  match takeResults taken { s with results := [] } s.results with
  | (polled, false) => polled
  | (polled, true) =>
    let polled := if s.results.all Option.isSome then polled.trySubmitFlush else polled
    polled.drainCatalogApply outcomes

end FlushEngine

inductive FlushAction
  | write (env : WriteEnv) (call : WriteCall)
  | freeze
  | trySubmitFlush
  | pollFlush (taken : Bool) (outcomes : List PublishOutcome)
  | drainCatalogApply (outcomes : List PublishOutcome)
  | submitCompactionApply (removed : List Nat) (added : List LoadedSstable)
  | takeFailed
  /-- The flush thread has written the table, or has failed. -/
  | flushFinished (bloom : Bytes → Bool)
  | flushFailed
  | sendResult
  /-- The apply thread has appended a change to the manifest, or has failed to. -/
  | applyFinished
  | applyFailed

namespace FlushEngine

def write (cfg : WriteConfig) (s : FlushEngine) (env : WriteEnv) (call : WriteCall) : FlushEngine :=
  let r := s.writes.write cfg env call
  match r.2 with
  | .ok _ => { s with writes := r.1 }.trySubmitFlush
  | .error _ => { s with writes := r.1 }

def step (cfg : WriteConfig) (s : FlushEngine) : FlushAction → Option FlushEngine
  | .write env call => some (s.write cfg env call)
  | .freeze => s.writes.engine.freeze.map s.setEngine
  | .trySubmitFlush => some s.trySubmitFlush
  | .pollFlush taken outcomes => some (s.pollFlush taken outcomes)
  | .drainCatalogApply outcomes => some (s.drainCatalogApply outcomes)
  | .submitCompactionApply removed added =>
    some { s with applyQueue := s.applyQueue ++ [.compaction removed added] }
  | .takeFailed => some { s with applyFailed := false }
  | .flushFinished bloom =>
    match s.worker with
    | .running job =>
      if job.entries.all fun v => bloom v.userKey then
        let engine := s.writes.engine
        some
          { s.setEngine { engine with nextSstableId := engine.nextSstableId + 1 } with
            worker := .sending (some
              ⟨buildSstable engine.nextSstableId 0 job.entries (some bloom), job.tenantBytes⟩) }
      else none
    | _ => none
  | .flushFailed =>
    match s.worker with
    | .running _ => some { s with worker := .sending none }
    | _ => none
  | .sendResult =>
    match s.worker with
    | .sending result => some { s with worker := .idle, results := s.results ++ [result] }
    | _ => none
  | .applyFinished =>
    match s.applyQueue with
    | [] => none
    | apply :: rest => some { s with applyQueue := rest, ready := s.ready ++ [apply] }
  | .applyFailed =>
    match s.applyQueue with
    | [] => none
    | _ :: rest => some { s with applyQueue := rest, applyFailed := true }

def opened (fairCfg : FairConfig) (policy : TenantQuotaPolicy) (engine : EngineState) : FlushEngine where
  writes := ⟨engine, .new fairCfg, policy⟩
  flushInFlight := false
  worker := .idle
  results := []
  applyQueue := []
  ready := []
  applyFailed := false
  flushedTables := []

end FlushEngine

end ZydecoDb
