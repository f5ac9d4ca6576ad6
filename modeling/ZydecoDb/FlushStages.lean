import ZydecoDb.FlushPipeline

namespace ZydecoDb

open Lib

def flushTables (applies : List ReadyCatalogApply) : List LoadedSstable :=
  applies.filterMap fun
    | .flush table => some table
    | .compaction _ _ => none

def flushResult (mt : Memtable) (file : Nat × (Bytes → Bool)) : FlushResult :=
  ⟨buildSstable file.1 0 mt.entries (some file.2), attributeBytes mt.entries .empty⟩

/-- Where the flush of a memtable is. Once its change is lost it is nowhere, and the engine still takes
it to be on its way. -/
inductive FlushStage
  | idle
  | running (mt : Memtable)
  | sending (mt : Memtable) (file : Option (Nat × (Bytes → Bool)))
  | sent (mt : Memtable) (file : Option (Nat × (Bytes → Bool)))
  | queued (mt : Memtable) (file : Nat × (Bytes → Bool))
  | ready (mt : Memtable) (file : Nat × (Bytes → Bool))
  | lost (mt : Memtable)

namespace FlushStage

def memtable : FlushStage → Option Memtable
  | .idle => none
  | .running mt | .sending mt _ | .sent mt _ | .queued mt _ | .ready mt _ | .lost mt => some mt

def worker : FlushStage → FlushWorker
  | .running mt => .running ⟨mt.entries, attributeBytes mt.entries .empty⟩
  | .sending mt file => .sending (file.map (flushResult mt))
  | _ => .idle

def results : FlushStage → List (Option FlushResult)
  | .sent mt file => [file.map (flushResult mt)]
  | _ => []

def queuedTables : FlushStage → List LoadedSstable
  | .queued mt file => [(flushResult mt file).table]
  | _ => []

def readyTables : FlushStage → List LoadedSstable
  | .ready mt file => [(flushResult mt file).table]
  | _ => []

inductive Next : FlushStage → FlushStage → Prop
  | submitted (mt) : Next .idle (.running mt)
  | finished (mt file) : Next (.running mt) (.sending mt file)
  | sent (mt file) : Next (.sending mt file) (.sent mt file)
  | retried (mt) : Next (.sent mt none) .idle
  | passedOn (mt file) : Next (.sent mt (some file)) (.queued mt file)
  | refused (mt file) : Next (.sent mt (some file)) (.lost mt)
  | appended (mt file) : Next (.queued mt file) (.ready mt file)
  | appendFailed (mt file) : Next (.queued mt file) (.lost mt)
  | published (mt file) : Next (.ready mt file) .idle
  | publishFailed (mt file) : Next (.ready mt file) (.lost mt)

def released : FlushStage → Bool
  | .queued _ _ | .ready _ _ | .lost _ => true
  | _ => false

end FlushStage

namespace FlushEngine

/-- The pipeline holds the flush of the oldest frozen memtable at one place, or at none; frozen
memtables hold something. -/
structure AtStage (s : FlushEngine) (stage : FlushStage) : Prop where
  inFlight : s.flushInFlight = stage.memtable.isSome
  front : ∀ mt ∈ stage.memtable, s.immutable.head? = some mt
  worker : s.worker = stage.worker
  results : s.results = stage.results
  queued : flushTables s.applyQueue = stage.queuedTables
  ready : flushTables s.ready = stage.readyTables
  nonempty : ∀ mt ∈ s.immutable, mt.isEmpty = false

variable {s s' : FlushEngine} {stage : FlushStage} {cfg : WriteConfig}

theorem dropWhile_isEmpty {l : List Memtable} (h : ∀ mt ∈ l, mt.isEmpty = false) :
    l.dropWhile Memtable.isEmpty = l := by
  cases l with
  | nil => rfl
  | cons mt l => rw [List.dropWhile_cons_of_neg (by simp [h mt List.mem_cons_self])]

theorem AtStage.trySubmitFlush (h : s.AtStage stage) :
    s.trySubmitFlush = s ∧ (stage = .idle → s.immutable = []) ∨
    ∃ mt rest, s.immutable = mt :: rest ∧ stage = .idle ∧
      s.trySubmitFlush = { s with worker := (FlushStage.running mt).worker, flushInFlight := true } := by
  have hdrop := dropWhile_isEmpty h.nonempty
  have hself : s.setEngine { s.writes.engine with immutable := s.immutable.dropWhile Memtable.isEmpty } =
      s := by
    rw [hdrop]
    rfl
  unfold FlushEngine.trySubmitFlush
  split
  next hbusy =>
    refine Or.inl ⟨rfl, fun hidle => ?_⟩
    rw [h.inFlight, h.worker, hidle] at hbusy
    simp [FlushStage.memtable, FlushStage.worker, FlushWorker.isBusy] at hbusy
  next hfree =>
    have hidle : stage = .idle := by
      rw [h.inFlight] at hfree
      cases stage with
      | idle => rfl
      | _ => simp [FlushStage.memtable] at hfree
    rw [hself]
    dsimp only
    cases himm : s.immutable with
    | nil => exact Or.inl ⟨rfl, fun _ => rfl⟩
    | cons mt rest => exact Or.inr ⟨mt, rest, rfl, hidle, rfl⟩

theorem AtStage.stage_trySubmitFlush (h : s.AtStage stage) :
    ∃ stage', s.trySubmitFlush.AtStage stage' ∧ s.trySubmitFlush.writes = s.writes ∧
      s.trySubmitFlush.flushedTables = s.flushedTables ∧ s.trySubmitFlush.ready = s.ready ∧
      (stage' = stage ∧ (stage = .idle → s.immutable = []) ∨
        ∃ mt, stage = .idle ∧ stage' = .running mt) := by
  rcases h.trySubmitFlush with ⟨heq, hempty⟩ | ⟨mt, rest, himm, rfl, heq⟩
  · rw [heq]
    exact ⟨stage, h, rfl, rfl, rfl, Or.inl ⟨rfl, hempty⟩⟩
  · rw [heq]
    refine ⟨.running mt, ?_, rfl, rfl, rfl, Or.inr ⟨mt, rfl, rfl⟩⟩
    refine ⟨rfl, fun mt' hmt => ?_, rfl, h.results, h.queued, h.ready, h.nonempty⟩
    cases Option.mem_some_iff.mp hmt
    exact congrArg List.head? himm

theorem AtStage.grow {engine : EngineState} {added : List Memtable} (h : s.AtStage stage)
    (himm : engine.immutable = s.immutable ++ added) (hadded : ∀ mt ∈ added, mt.isEmpty = false) :
    (s.setEngine engine).AtStage stage := by
  refine ⟨h.inFlight, fun mt hmt => ?_, h.worker, h.results, h.queued, h.ready, fun mt hmt => ?_⟩
  · show engine.immutable.head? = some mt
    rw [himm, List.head?_append, h.front mt hmt]
    rfl
  · have hmem : mt ∈ s.immutable ++ added := himm ▸ hmt
    rcases List.mem_append.mp hmem with hmt | hmt
    · exact h.nonempty mt hmt
    · exact hadded mt hmt

theorem flushTables_append (a b : List ReadyCatalogApply) :
    flushTables (a ++ b) = flushTables a ++ flushTables b := List.filterMap_append

def setSstables (s : FlushEngine) (sstables : List LoadedSstable) : FlushEngine :=
  s.setEngine { s.writes.engine with sstables := sstables }

def retire (s : FlushEngine) (table : LoadedSstable) (sstables : List LoadedSstable) : FlushEngine :=
  { s.setEngine { s.writes.engine with sstables := sstables, immutable := s.immutable.tail } with
    flushInFlight := false
    flushedTables := s.flushedTables ++ [table] }

theorem publish_compaction (s : FlushEngine) (outcome : PublishOutcome) (removed : List Nat)
    (added : List LoadedSstable) :
    ∃ sstables, s.publishCatalogApply outcome (.compaction removed added) = s.setSstables sstables := by
  cases outcome <;> exact ⟨_, rfl⟩

theorem publishAll_compactions {applies : List ReadyCatalogApply} (h : flushTables applies = [])
    (s : FlushEngine) (outcomes : List PublishOutcome) :
    ∃ sstables, publishAll s applies outcomes = s.setSstables sstables := by
  induction applies generalizing s outcomes with
  | nil => exact ⟨s.sstables, rfl⟩
  | cons apply rest ih =>
    cases apply with
    | flush table => simp [flushTables] at h
    | compaction removed added =>
      have hrest : flushTables rest = [] := h
      rw [publishAll]
      split
      next =>
        obtain ⟨t₁, h₁⟩ := publish_compaction s .done removed added
        rw [h₁]
        obtain ⟨t₂, h₂⟩ := ih hrest (s.setSstables t₁) outcomes.tail
        rw [h₂]
        exact ⟨t₂, rfl⟩
      next => exact publish_compaction s _ removed added

/-- The changes up to the flush are published, and the flush too: no outcome before it fails, and its
own fails at most after the memtable is retired. -/
def PublishesFlush : List ReadyCatalogApply → List PublishOutcome → Prop
  | [], _ => True
  | .flush _ :: rest, outcomes =>
    outcomes.headD .done = .done ∧ PublishesFlush rest outcomes.tail ∨
      outcomes.headD .done = .deferredFailed ∧ flushTables rest = []
  | .compaction _ _ :: rest, outcomes =>
    outcomes.headD .done = .done ∧ PublishesFlush rest outcomes.tail ∨ flushTables rest = []

theorem publishAll_flush {applies : List ReadyCatalogApply} {table : LoadedSstable}
    (h : flushTables applies = [table]) (s : FlushEngine) (outcomes : List PublishOutcome) :
    (∃ sstables, publishAll s applies outcomes = s.retire table sstables) ∨
    ¬ PublishesFlush applies outcomes ∧
      ∃ sstables, publishAll s applies outcomes = s.setSstables sstables := by
  induction applies generalizing s outcomes with
  | nil => simp [flushTables] at h
  | cons apply rest ih =>
    rw [publishAll]
    cases apply with
    | flush table' =>
      have hcons : table' = table ∧ flushTables rest = [] := by
        simpa [flushTables] using h
      obtain ⟨rfl, hrest⟩ := hcons
      split
      next hdone =>
        obtain ⟨sst, hsst⟩ := publishAll_compactions hrest (s.publishCatalogApply .done (.flush table'))
          outcomes.tail
        left
        rw [hsst]
        exact ⟨sst, rfl⟩
      next hfail =>
        cases hout : outcomes.headD .done with
        | done => exact absurd hout hfail
        | deferredFailed => exact Or.inl ⟨_, rfl⟩
        | openFailed =>
          refine Or.inr ⟨?_, s.sstables, rfl⟩
          simp only [PublishesFlush, hout, reduceCtorEq, false_and, or_self, not_false_eq_true]
        | unlinkFailed =>
          refine Or.inr ⟨?_, _, rfl⟩
          simp only [PublishesFlush, hout, reduceCtorEq, false_and, or_self, not_false_eq_true]
    | compaction removed added =>
      have hrest : flushTables rest = [table] := h
      split
      next hdone =>
        obtain ⟨t₁, h₁⟩ := publish_compaction s .done removed added
        rw [h₁]
        rcases ih hrest (s.setSstables t₁) outcomes.tail with ⟨t₂, h₂⟩ | ⟨hnot, t₂, h₂⟩
        · exact Or.inl ⟨t₂, h₂⟩
        · refine Or.inr ⟨?_, t₂, h₂⟩
          rintro (⟨-, hp⟩ | hnone)
          · exact hnot hp
          · simp [hrest] at hnone
      next hfail =>
        refine Or.inr ⟨?_, publish_compaction s _ removed added⟩
        rintro (⟨hd, -⟩ | hnone)
        · exact hfail hd
        · simp [hrest] at hnone

theorem AtStage.retire {mt : Memtable} {file : Nat × (Bytes → Bool)} (h : s.AtStage (.ready mt file))
    (table : LoadedSstable) (sstables : List LoadedSstable) :
    ({ s with ready := [] }.retire table sstables).AtStage .idle := by
  refine ⟨rfl, fun mt' hmt => ?_, h.worker, h.results, h.queued, rfl, fun mt' hmt => ?_⟩
  · cases hmt
  · exact h.nonempty mt' (List.mem_of_mem_tail hmt)

theorem AtStage.drainCatalogApply (h : s.AtStage stage) (outcomes : List PublishOutcome) :
    (stage.readyTables = [] ∧ (s.drainCatalogApply outcomes).AtStage stage ∧
      ∃ sstables, s.drainCatalogApply outcomes = { s with ready := [] }.setSstables sstables) ∨
    ∃ mt file, stage = .ready mt file ∧
      ((∃ sstables, s.drainCatalogApply outcomes =
          { s with ready := [] }.retire (flushResult mt file).table sstables) ∨
        ¬ PublishesFlush s.ready outcomes ∧ (s.drainCatalogApply outcomes).AtStage (.lost mt) ∧
          ∃ sstables, s.drainCatalogApply outcomes = { s with ready := [] }.setSstables sstables) := by
  have hready := h.ready
  cases hstage : stage.readyTables with
  | nil =>
    rw [hstage] at hready
    obtain ⟨sstables, heq⟩ := publishAll_compactions hready { s with ready := [] } outcomes
    refine Or.inl ⟨rfl, ?_, sstables, heq⟩
    rw [FlushEngine.drainCatalogApply, heq]
    exact ⟨h.inFlight, h.front, h.worker, h.results, h.queued, hstage.symm, h.nonempty⟩
  | cons table rest =>
    cases stage with
    | ready mt file =>
      refine Or.inr ⟨mt, file, rfl, ?_⟩
      rcases publishAll_flush hready { s with ready := [] } outcomes with hpub | ⟨hnot, sstables, heq⟩
      · exact Or.inl hpub
      · refine Or.inr ⟨hnot, ?_, sstables, heq⟩
        rw [FlushEngine.drainCatalogApply, heq]
        exact ⟨h.inFlight, h.front, h.worker, h.results, h.queued, rfl, h.nonempty⟩
    | _ => cases hstage

structure PublishFrame (s s' : FlushEngine) : Prop where
  worker : s'.worker = s.worker
  results : s'.results = s.results
  applyQueue : s'.applyQueue = s.applyQueue
  active : s'.active = s.active
  fair : s'.fair = s.fair
  nextSeq : s'.writes.engine.nextSeq = s.writes.engine.nextSeq

theorem publishCatalogApply_frame (s : FlushEngine) (outcome : PublishOutcome) (apply : ReadyCatalogApply) :
    s.PublishFrame (s.publishCatalogApply outcome apply) ∧
      (s.publishCatalogApply outcome apply).ready = s.ready := by
  cases apply <;> cases outcome <;> exact ⟨⟨rfl, rfl, rfl, rfl, rfl, rfl⟩, rfl⟩

theorem publishAll_frame (s : FlushEngine) (applies : List ReadyCatalogApply)
    (outcomes : List PublishOutcome) :
    s.PublishFrame (publishAll s applies outcomes) ∧ (publishAll s applies outcomes).ready = s.ready := by
  induction applies generalizing s outcomes with
  | nil => exact ⟨⟨rfl, rfl, rfl, rfl, rfl, rfl⟩, rfl⟩
  | cons apply rest ih =>
    rw [publishAll]
    split
    next =>
      obtain ⟨hf, hr⟩ := publishCatalogApply_frame s .done apply
      obtain ⟨hf', hr'⟩ := ih (s.publishCatalogApply .done apply) outcomes.tail
      exact ⟨⟨hf'.worker.trans hf.worker, hf'.results.trans hf.results,
        hf'.applyQueue.trans hf.applyQueue, hf'.active.trans hf.active, hf'.fair.trans hf.fair,
        hf'.nextSeq.trans hf.nextSeq⟩, hr'.trans hr⟩
    next => exact publishCatalogApply_frame s _ apply

theorem drainCatalogApply_frame (s : FlushEngine) (outcomes : List PublishOutcome) :
    s.PublishFrame (s.drainCatalogApply outcomes) ∧ (s.drainCatalogApply outcomes).ready = [] := by
  obtain ⟨hf, hr⟩ := publishAll_frame { s with ready := [] } s.ready outcomes
  exact ⟨⟨hf.worker, hf.results, hf.applyQueue, hf.active, hf.fair, hf.nextSeq⟩, hr⟩

theorem trySubmitFlush_frame (s : FlushEngine) :
    (s.trySubmitFlush.worker = s.worker ∨ ∃ job, s.trySubmitFlush.worker = .running job) ∧
      s.trySubmitFlush.results = s.results ∧ s.trySubmitFlush.applyQueue = s.applyQueue ∧
      s.trySubmitFlush.active = s.active := by
  unfold trySubmitFlush
  split
  next => exact ⟨Or.inl rfl, rfl, rfl, rfl⟩
  next =>
    dsimp only
    split
    next => exact ⟨Or.inl rfl, rfl, rfl, rfl⟩
    next mt _ _ => exact ⟨Or.inr ⟨_, rfl⟩, rfl, rfl, rfl⟩

end FlushEngine

end ZydecoDb
