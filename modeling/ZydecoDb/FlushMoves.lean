import ZydecoDb.FlushStages

namespace ZydecoDb

open Lib

namespace FlushEngine

variable {s s' : FlushEngine} {stage : FlushStage} {cfg : WriteConfig}

def passOn (s : FlushEngine) (result : FlushResult) : FlushEngine :=
  let s := { s with results := [] }.settleFlush result
  { s with applyQueue := s.applyQueue ++ [.flush result.table] }

theorem AtStage.passOn {mt : Memtable} {file : Nat × (Bytes → Bool)}
    (h : s.AtStage (.sent mt (some file))) : (s.passOn (flushResult mt file)).AtStage (.queued mt file) := by
  refine ⟨h.inFlight, h.front, h.worker, rfl, ?_, h.ready, h.nonempty⟩
  show flushTables (s.applyQueue ++ [.flush (flushResult mt file).table]) = _
  rw [flushTables_append, h.queued]
  rfl

theorem AtStage.refused {mt : Memtable} {file : Nat × (Bytes → Bool)}
    (h : s.AtStage (.sent mt (some file))) :
    ({ s with results := [] }.settleFlush (flushResult mt file)).AtStage (.lost mt) :=
  ⟨h.inFlight, h.front, h.worker, rfl, h.queued, h.ready, h.nonempty⟩

theorem AtStage.retry {mt : Memtable} (h : s.AtStage (.sent mt none)) :
    { s with results := [], flushInFlight := false }.AtStage .idle :=
  ⟨rfl, fun _ hmt => (by cases hmt), h.worker, rfl, h.queued, h.ready, h.nonempty⟩

theorem AtStage.pollFlush (h : s.AtStage stage) (taken : Bool) (outcomes : List PublishOutcome) :
    ((∀ mt file, stage ≠ .sent mt file) ∧
      s.pollFlush taken outcomes = s.trySubmitFlush.drainCatalogApply outcomes) ∨
    (∃ mt, stage = .sent mt none ∧ s.pollFlush taken outcomes =
      { s with results := [], flushInFlight := false }.drainCatalogApply outcomes) ∨
    ∃ mt file, stage = .sent mt (some file) ∧
      (taken = true ∧ s.pollFlush taken outcomes =
          (s.passOn (flushResult mt file)).drainCatalogApply outcomes ∨
        taken = false ∧ s.pollFlush taken outcomes =
          { s with results := [] }.settleFlush (flushResult mt file)) := by
  by_cases hsent : ∀ mt file, stage ≠ .sent mt file
  · left
    have hresults : s.results = [] := by
      rw [h.results]
      cases stage with
      | sent mt file => exact absurd rfl (hsent mt file)
      | _ => rfl
    have hself : { s with results := [] } = s := by rw [← hresults]
    refine ⟨hsent, ?_⟩
    unfold FlushEngine.pollFlush
    rw [hself, hresults]
    rfl
  · right
    push Not at hsent
    obtain ⟨mt, file, rfl⟩ := hsent
    have hresults : s.results = [file.map (flushResult mt)] := h.results
    unfold FlushEngine.pollFlush
    rw [hresults]
    cases file with
    | none => exact Or.inl ⟨mt, rfl, rfl⟩
    | some file =>
      refine Or.inr ⟨mt, file, rfl, ?_⟩
      cases taken with
      | false => exact Or.inr ⟨rfl, rfl⟩
      | true =>
        left
        refine ⟨rfl, ?_⟩
        -- the flush is still on its way, so no other one is submitted
        have hsubmit : (s.passOn (flushResult mt file)).trySubmitFlush = s.passOn (flushResult mt file) := by
          rcases h.passOn.trySubmitFlush with ⟨heq, -⟩ | ⟨_, _, _, hidle, _⟩
          · exact heq
          · cases hidle
        show (s.passOn (flushResult mt file)).trySubmitFlush.drainCatalogApply outcomes = _
        rw [hsubmit]

/-- The memtables that are frozen and the tables of those that no longer are, as a step leaves them:
new memtables come last, and the oldest goes when its table is published. -/
def QueueStep (s : FlushEngine) (stage : FlushStage) (s' : FlushEngine) (stage' : FlushStage) : Prop :=
  ((stage.released = true → stage'.released = true) ∧ s'.flushedTables = s.flushedTables ∧
    ∃ added, s'.immutable = s.immutable ++ added) ∨
  ∃ mt file, stage = .ready mt file ∧ stage' = .idle ∧ s'.immutable = s.immutable.tail ∧
    s'.flushedTables = s.flushedTables ++ [(flushResult mt file).table]

def KeepsFlush (s : FlushEngine) : FlushAction → Prop
  | .pollFlush taken outcomes =>
    (taken = true ∨ ∀ result ∈ s.results, result = none) ∧ PublishesFlush s.ready outcomes
  | .drainCatalogApply outcomes => PublishesFlush s.ready outcomes
  | .applyFailed => ∀ table, s.applyQueue.head? ≠ some (.flush table)
  | _ => True

/-- A step of the pipeline: the flush stays where it is or gets on, and is lost only where it is not
kept. -/
structure Moves (s : FlushEngine) (stage : FlushStage) (kept : Prop) (s' : FlushEngine)
    (stage' : FlushStage) : Prop where
  reached : s'.AtStage stage'
  next : stage' = stage ∨ stage.Next stage'
  queue : s.QueueStep stage s' stage'
  lost : kept → (∀ mt, stage ≠ .lost mt) → ∀ mt, stage' ≠ .lost mt

variable {kept : Prop}

theorem Moves.stay (h : s'.AtStage stage) (added : List Memtable)
    (himm : s'.immutable = s.immutable ++ added) (htables : s'.flushedTables = s.flushedTables) :
    s.Moves stage kept s' stage :=
  ⟨h, Or.inl rfl, Or.inl ⟨id, htables, added, himm⟩, fun _ hnot => hnot⟩

theorem Moves.trySubmitFlush (h : s'.AtStage stage) {added : List Memtable}
    (himm : s'.immutable = s.immutable ++ added) (htables : s'.flushedTables = s.flushedTables) :
    ∃ stage', s.Moves stage kept s'.trySubmitFlush stage' := by
  obtain ⟨stage', hstage, hwrites, hflushed, -, hstart⟩ := h.stage_trySubmitFlush
  have himm' : s'.trySubmitFlush.immutable = s.immutable ++ added := by
    unfold immutable
    rw [hwrites]
    exact himm
  refine ⟨stage', ?_⟩
  rcases hstart with ⟨rfl, -⟩ | ⟨mt, rfl, rfl⟩
  · exact .stay hstage added himm' (hflushed.trans htables)
  · exact ⟨hstage, Or.inr (.submitted mt), Or.inl ⟨by simp [FlushStage.released], hflushed.trans htables,
      added, himm'⟩, fun _ _ _ => by simp⟩

theorem Moves.drainCatalogApply (h : s.AtStage stage) (outcomes : List PublishOutcome)
    (hkept : kept → PublishesFlush s.ready outcomes) :
    ∃ stage', s.Moves stage kept (s.drainCatalogApply outcomes) stage' := by
  rcases h.drainCatalogApply outcomes with
    ⟨-, hstage, sst, heq⟩ | ⟨mt, file, rfl, ⟨sst, heq⟩ | ⟨hnot, hstage, sst, heq⟩⟩
  · refine ⟨stage, .stay hstage [] ?_ ?_⟩
    · rw [heq, List.append_nil]
      rfl
    · rw [heq]
      rfl
  · refine ⟨.idle, ?_, Or.inr (.published mt file), Or.inr ⟨mt, file, rfl, rfl, ?_⟩, fun _ _ _ => by simp⟩
    · rw [heq]
      exact h.retire _ _
    · rw [heq]
      exact ⟨rfl, rfl⟩
  · refine ⟨.lost mt, hstage, Or.inr (.publishFailed mt file), Or.inl ⟨fun _ => rfl, ?_, [], ?_⟩,
      fun hk => absurd (hkept hk) hnot⟩
    · rw [heq]
      rfl
    · rw [heq, List.append_nil]
      rfl

theorem Moves.drained {stage' : FlushStage} (h : s.Moves stage kept s' stage')
    (hready : stage'.readyTables = []) (outcomes : List PublishOutcome) :
    s.Moves stage kept (s'.drainCatalogApply outcomes) stage' := by
  rcases h.reached.drainCatalogApply outcomes with ⟨-, hstage, sst, heq⟩ | ⟨mt, file, rfl, -⟩
  · refine ⟨hstage, h.next, ?_, h.lost⟩
    rw [heq]
    exact h.queue
  · cases hready

theorem Moves.pollFlush (h : s.AtStage stage) (taken : Bool) (outcomes : List PublishOutcome) :
    ∃ stage', s.Moves stage (s.KeepsFlush (.pollFlush taken outcomes))
      (s.pollFlush taken outcomes) stage' := by
  rcases h.pollFlush taken outcomes with
    ⟨-, heq⟩ | ⟨mt, rfl, heq⟩ | ⟨mt, file, rfl, ⟨-, heq⟩ | ⟨htaken, heq⟩⟩
  · rw [heq]
    rcases h.trySubmitFlush with ⟨hsame, -⟩ | ⟨mt, rest, himm, rfl, hstart⟩
    · rw [hsame]
      exact Moves.drainCatalogApply h outcomes And.right
    · have hmoves : s.Moves .idle (s.KeepsFlush (.pollFlush taken outcomes)) s.trySubmitFlush
          (.running mt) := by
        rw [hstart]
        refine ⟨⟨rfl, fun mt' hmt => ?_, rfl, h.results, h.queued, h.ready, h.nonempty⟩,
          Or.inr (.submitted mt), Or.inl ⟨by simp [FlushStage.released], rfl, [], ?_⟩, fun _ _ _ => by simp⟩
        · cases Option.mem_some_iff.mp hmt
          exact congrArg List.head? himm
        · exact (List.append_nil _).symm
      exact ⟨_, hmoves.drained rfl outcomes⟩
  · rw [heq]
    have hmoves : s.Moves (.sent mt none) (s.KeepsFlush (.pollFlush taken outcomes))
        { s with results := [], flushInFlight := false } .idle :=
      ⟨h.retry, Or.inr (.retried mt), Or.inl ⟨by simp [FlushStage.released], rfl, [], (List.append_nil _).symm⟩,
        fun _ _ _ => by simp⟩
    exact ⟨_, hmoves.drained rfl outcomes⟩
  · rw [heq]
    have hmoves : s.Moves (.sent mt (some file)) (s.KeepsFlush (.pollFlush taken outcomes))
        (s.passOn (flushResult mt file)) (.queued mt file) :=
      ⟨h.passOn, Or.inr (.passedOn mt file), Or.inl ⟨fun _ => rfl, rfl, [], (List.append_nil _).symm⟩,
        fun _ _ _ => by simp⟩
    exact ⟨_, hmoves.drained rfl outcomes⟩
  · rw [heq]
    refine ⟨.lost mt, h.refused, Or.inr (.refused mt file),
      Or.inl ⟨fun _ => rfl, rfl, [], (List.append_nil _).symm⟩, fun hkept => ?_⟩
    -- the result is there and cannot be passed on
    have hmem : some (flushResult mt file) ∈ s.results := by
      rw [h.results]
      exact List.mem_singleton_self _
    rcases hkept.1 with hlist | hnone
    · exact absurd (hlist.symm.trans htaken) (by decide)
    · cases hnone _ hmem

theorem maybeFreeze_immutable (cfg : WriteConfig) (engine : EngineState) :
    ∃ added, (WriteEngine.maybeFreeze cfg engine).immutable = engine.immutable ++ added ∧
      ∀ mt ∈ added, mt.isEmpty = false := by
  unfold WriteEngine.maybeFreeze
  split
  next => exact ⟨[], (List.append_nil _).symm, by simp⟩
  next hsize =>
    refine ⟨[engine.active], rfl, fun mt hmt => ?_⟩
    cases List.mem_singleton.mp hmt
    cases hempty : engine.active.isEmpty with
    | false => rfl
    | true =>
      have hzero : engine.active.sizeBytes = 0 := by
        unfold Memtable.sizeBytes
        rw [List.isEmpty_iff.mp hempty]
        rfl
      omega

theorem write_immutable (cfg : WriteConfig) (w : WriteEngine) (env : WriteEnv) (call : WriteCall) :
    ∃ added, (w.write cfg env call).1.engine.immutable = w.engine.immutable ++ added ∧
      ∀ mt ∈ added, mt.isEmpty = false := by
  rcases w.write_cases cfg env call with ⟨e, -, seq, -, heq⟩ | ⟨-, -, -, -, heq⟩
  · rw [heq]
    exact ⟨[], (List.append_nil _).symm, by simp⟩
  · rw [heq]
    exact maybeFreeze_immutable cfg _

theorem Moves.write (h : s.AtStage stage) (env : WriteEnv) (call : WriteCall) :
    ∃ stage', s.Moves stage kept (s.write cfg env call) stage' := by
  obtain ⟨added, himm, hadded⟩ := write_immutable cfg s.writes env call
  have hgrown : { s with writes := (s.writes.write cfg env call).1 }.AtStage stage := by
    have hgrow := h.grow himm hadded
    exact ⟨hgrow.inFlight, hgrow.front, hgrow.worker, hgrow.results, hgrow.queued, hgrow.ready,
      hgrow.nonempty⟩
  unfold FlushEngine.write
  dsimp only
  cases (s.writes.write cfg env call).2 with
  | error e => exact ⟨stage, .stay hgrown added himm rfl⟩
  | ok seq => exact Moves.trySubmitFlush hgrown himm rfl

theorem Moves.freeze (h : s.AtStage stage) (hs : s.writes.engine.freeze.map s.setEngine = some s') :
    s.Moves stage kept s' stage := by
  obtain ⟨engine, hfreeze, rfl⟩ := Option.map_eq_some_iff.mp hs
  obtain ⟨hne, rfl⟩ := EngineState.freeze_cases hfreeze
  refine .stay (h.grow rfl fun mt hmt => ?_) [s.active] rfl rfl
  cases List.mem_singleton.mp hmt
  exact hne

theorem Moves.advance {stage' : FlushStage} (h : s'.AtStage stage') (hnext : stage.Next stage')
    (hreleased : stage.released = true → stage'.released = true)
    (himm : s'.immutable = s.immutable) (htables : s'.flushedTables = s.flushedTables)
    (hlost : kept → ∀ mt, stage' ≠ .lost mt) : s.Moves stage kept s' stage' :=
  ⟨h, Or.inr hnext, Or.inl ⟨hreleased, htables, [], himm.trans (List.append_nil _).symm⟩,
    fun hk _ => hlost hk⟩

section

variable (h : s.AtStage stage)
include h

theorem AtStage.running_of_worker {job : FlushJob} (hw : s.worker = .running job) :
    ∃ mt, stage = .running mt ∧ job = ⟨mt.entries, attributeBytes mt.entries .empty⟩ := by
  rw [h.worker] at hw
  cases stage with
  | running mt =>
    cases hw
    exact ⟨mt, rfl, rfl⟩
  | _ => cases hw

theorem AtStage.sending_of_worker {result : Option FlushResult} (hw : s.worker = .sending result) :
    ∃ mt file, stage = .sending mt file ∧ result = file.map (flushResult mt) := by
  rw [h.worker] at hw
  cases stage with
  | sending mt file =>
    cases hw
    exact ⟨mt, file, rfl, rfl⟩
  | _ => cases hw

theorem AtStage.queued_of_head {table : LoadedSstable} {rest : List ReadyCatalogApply}
    (hq : s.applyQueue = .flush table :: rest) :
    ∃ mt file, stage = .queued mt file ∧ table = (flushResult mt file).table ∧ flushTables rest = [] := by
  have hqueued := h.queued
  rw [hq] at hqueued
  have hcons : table :: flushTables rest = stage.queuedTables := hqueued
  cases stage with
  | queued mt file =>
    obtain ⟨htable, hrest⟩ := List.cons.inj hcons
    exact ⟨mt, file, rfl, htable, hrest⟩
  | _ => cases hcons

theorem Moves.flushFinished {bloom : Bytes → Bool}
    (hs : s.step cfg (.flushFinished bloom) = some s') :
    ∃ mt file, stage = .running mt ∧ s.Moves stage kept s' (.sending mt (some file)) := by
  rw [FlushEngine.step] at hs
  split at hs
  next job hw =>
    obtain ⟨mt, rfl, rfl⟩ := h.running_of_worker hw
    obtain ⟨-, ⟨⟩⟩ := Option.ite_none_right_eq_some.mp hs
    refine ⟨mt, (s.writes.engine.nextSstableId, bloom), rfl, .advance ?_ (.finished mt _) ?_ rfl rfl ?_⟩
    · exact ⟨h.inFlight, h.front, rfl, h.results, h.queued, h.ready, h.nonempty⟩
    · simp [FlushStage.released]
    · simp
  next => cases hs

theorem Moves.flushFailed (hs : s.step cfg .flushFailed = some s') :
    ∃ mt, stage = .running mt ∧ s.Moves stage kept s' (.sending mt none) := by
  rw [FlushEngine.step] at hs
  split at hs
  next job hw =>
    obtain ⟨mt, rfl, rfl⟩ := h.running_of_worker hw
    cases Option.some.inj hs
    refine ⟨mt, rfl, .advance ?_ (.finished mt _) (by simp [FlushStage.released]) rfl rfl (by simp)⟩
    exact ⟨h.inFlight, h.front, rfl, h.results, h.queued, h.ready, h.nonempty⟩
  next => cases hs

theorem Moves.sendResult (hs : s.step cfg .sendResult = some s') :
    ∃ mt file, stage = .sending mt file ∧ s.Moves stage kept s' (.sent mt file) := by
  rw [FlushEngine.step] at hs
  split at hs
  next result hw =>
    obtain ⟨mt, file, rfl, rfl⟩ := h.sending_of_worker hw
    cases Option.some.inj hs
    refine ⟨mt, file, rfl, .advance ?_ (.sent mt file) (by simp [FlushStage.released]) rfl rfl (by simp)⟩
    refine ⟨h.inFlight, h.front, rfl, ?_, h.queued, h.ready, h.nonempty⟩
    show s.results ++ [file.map (flushResult mt)] = _
    rw [h.results]
    rfl
  next => cases hs

theorem Moves.applyFinished (hs : s.step cfg .applyFinished = some s') :
    ∃ stage' apply rest, s.applyQueue = apply :: rest ∧ s'.applyQueue = rest ∧
      s.Moves stage kept s' stage' := by
  rw [FlushEngine.step] at hs
  split at hs
  next => cases hs
  next apply rest hq =>
    cases Option.some.inj hs
    cases apply with
    | flush table =>
      obtain ⟨mt, file, rfl, rfl, hrest⟩ := h.queued_of_head hq
      refine ⟨.ready mt file, _, rest, hq, rfl,
        .advance ?_ (.appended mt file) (fun _ => rfl) rfl rfl (by simp)⟩
      refine ⟨h.inFlight, h.front, h.worker, h.results, hrest, ?_, h.nonempty⟩
      show flushTables (s.ready ++ [.flush (flushResult mt file).table]) = _
      rw [flushTables_append, h.ready]
      rfl
    | compaction removed added =>
      have hqueued := h.queued
      rw [hq] at hqueued
      refine ⟨stage, _, rest, hq, rfl, .stay ?_ [] (List.append_nil _).symm rfl⟩
      refine ⟨h.inFlight, h.front, h.worker, h.results, hqueued, ?_, h.nonempty⟩
      show flushTables (s.ready ++ [.compaction removed added]) = _
      rw [flushTables_append, h.ready]
      exact List.append_nil _

theorem Moves.applyFailed (hs : s.step cfg .applyFailed = some s') :
    ∃ stage' apply rest, s.applyQueue = apply :: rest ∧ s'.applyQueue = rest ∧
      s.Moves stage (s.KeepsFlush .applyFailed) s' stage' := by
  rw [FlushEngine.step] at hs
  split at hs
  next => cases hs
  next apply rest hq =>
    cases Option.some.inj hs
    cases apply with
    | flush table =>
      obtain ⟨mt, file, rfl, rfl, hrest⟩ := h.queued_of_head hq
      refine ⟨.lost mt, _, rest, hq, rfl,
        .advance ?_ (.appendFailed mt file) (fun _ => rfl) rfl rfl fun hk => ?_⟩
      · exact ⟨h.inFlight, h.front, h.worker, h.results, hrest, h.ready, h.nonempty⟩
      · exact absurd (congrArg List.head? hq) (hk _)
    | compaction removed added =>
      have hqueued := h.queued
      rw [hq] at hqueued
      refine ⟨stage, _, rest, hq, rfl, .stay ?_ [] (List.append_nil _).symm rfl⟩
      exact ⟨h.inFlight, h.front, h.worker, h.results, hqueued, h.ready, h.nonempty⟩

/-- One step moves a flush to the next stage, keeps it or, against the condition, loses it. -/
theorem AtStage.step {a : FlushAction} (hs : s.step cfg a = some s') :
    ∃ stage', s.Moves stage (s.KeepsFlush a) s' stage' := by
  cases a with
  | write env call =>
    cases Option.some.inj hs
    exact Moves.write h env call
  | freeze => exact ⟨stage, .freeze h hs⟩
  | trySubmitFlush =>
    cases Option.some.inj hs
    exact Moves.trySubmitFlush h (List.append_nil _).symm rfl
  | pollFlush taken outcomes =>
    cases Option.some.inj hs
    exact Moves.pollFlush h taken outcomes
  | drainCatalogApply outcomes =>
    cases Option.some.inj hs
    exact Moves.drainCatalogApply h outcomes id
  | submitCompactionApply removed added =>
    cases Option.some.inj hs
    refine ⟨stage, .stay ?_ [] (List.append_nil _).symm rfl⟩
    refine ⟨h.inFlight, h.front, h.worker, h.results, ?_, h.ready, h.nonempty⟩
    show flushTables (s.applyQueue ++ [.compaction removed added]) = _
    rw [flushTables_append, h.queued]
    exact List.append_nil _
  | takeFailed =>
    cases Option.some.inj hs
    refine ⟨stage, .stay ?_ [] (List.append_nil _).symm rfl⟩
    exact ⟨h.inFlight, h.front, h.worker, h.results, h.queued, h.ready, h.nonempty⟩
  | flushFinished bloom =>
    obtain ⟨mt, file, -, hmoves⟩ := Moves.flushFinished h hs
    exact ⟨_, hmoves⟩
  | flushFailed =>
    obtain ⟨mt, -, hmoves⟩ := Moves.flushFailed h hs
    exact ⟨_, hmoves⟩
  | sendResult =>
    obtain ⟨mt, file, -, hmoves⟩ := Moves.sendResult h hs
    exact ⟨_, hmoves⟩
  | applyFinished =>
    obtain ⟨stage', -, -, -, -, hmoves⟩ := Moves.applyFinished h hs
    exact ⟨stage', hmoves⟩
  | applyFailed =>
    obtain ⟨stage', -, -, -, -, hmoves⟩ := Moves.applyFailed h hs
    exact ⟨stage', hmoves⟩

end

end FlushEngine

end ZydecoDb
