import ZydecoDb.FlushMoves

namespace ZydecoDb

open Lib

def FlushAction.byFlushThread : FlushAction → Bool
  | .flushFinished _ | .flushFailed | .sendResult => true
  | _ => false

def FlushAction.byApplyThread : FlushAction → Bool
  | .applyFinished | .applyFailed => true
  | _ => false

namespace FlushEngine

variable {s s' : FlushEngine} {stage : FlushStage} {cfg : WriteConfig}

theorem takeResults_frame (taken : Bool) (s : FlushEngine) (results : List (Option FlushResult)) :
    (takeResults taken s results).1.worker = s.worker ∧
      (takeResults taken s results).1.active = s.active ∧
      ∃ added, (takeResults taken s results).1.applyQueue = s.applyQueue ++ added := by
  induction results generalizing s with
  | nil => exact ⟨rfl, rfl, [], (List.append_nil _).symm⟩
  | cons result rest ih =>
    cases result with
    | none => exact ih { s with flushInFlight := false }
    | some result =>
      cases taken with
      | false => exact ⟨rfl, rfl, [], (List.append_nil _).symm⟩
      | true =>
        obtain ⟨hworker, hactive, added, hadded⟩ := ih (s.submitFlushApply true result).1
        refine ⟨hworker, hactive, .flush result.table :: added, ?_⟩
        rw [takeResults, List.append_cons]
        exact hadded

theorem pollFlush_frame (taken : Bool) (outcomes : List PublishOutcome) (s : FlushEngine) :
    ((s.pollFlush taken outcomes).worker = s.worker ∨
        ∃ job, (s.pollFlush taken outcomes).worker = .running job) ∧
      (s.pollFlush taken outcomes).active = s.active ∧
      ∃ added, (s.pollFlush taken outcomes).applyQueue = s.applyQueue ++ added := by
  obtain ⟨hworker, hactive, added, hadded⟩ := takeResults_frame taken { s with results := [] } s.results
  unfold pollFlush
  cases htake : takeResults taken { s with results := [] } s.results with
  | mk polled ok =>
    rw [htake] at hworker hactive hadded
    cases ok with
    | false => exact ⟨Or.inl hworker, hactive, added, hadded⟩
    | true =>
      dsimp only
      have hdrain := (drainCatalogApply_frame
        (if s.results.all Option.isSome then polled.trySubmitFlush else polled) outcomes).1
      rw [hdrain.worker, hdrain.active, hdrain.applyQueue]
      split
      next =>
        obtain ⟨hw, -, hq, ha⟩ := trySubmitFlush_frame polled
        exact ⟨hw.imp_left (·.trans hworker), ha.trans hactive, added, hq.trans hadded⟩
      next => exact ⟨Or.inl hworker, hactive, added, hadded⟩

/-- Each step belongs to the owner, to the flush thread or to the apply thread. -/
theorem step_threads {a : FlushAction} (hs : s.step cfg a = some s') :
    (a.byFlushThread = false ∧ a.byApplyThread = false ∧
      (s'.worker = s.worker ∨ ∃ job, s'.worker = .running job) ∧
      ∃ added, s'.applyQueue = s.applyQueue ++ added) ∨
    (a.byFlushThread = true ∧ a.byApplyThread = false ∧ s'.applyQueue = s.applyQueue ∧
      ((∃ job result, s.worker = .running job ∧ s'.worker = .sending result ∧
          (result = none → a = .flushFailed)) ∨
        ∃ result, s.worker = .sending result ∧ s'.worker = .idle)) ∨
    a.byApplyThread = true ∧ s'.worker = s.worker ∧ ∃ apply, s.applyQueue = apply :: s'.applyQueue := by
  have hself : ∃ added, s.applyQueue = s.applyQueue ++ added := ⟨[], (List.append_nil _).symm⟩
  cases a with
  | write env call =>
    cases Option.some.inj hs
    refine Or.inl ⟨rfl, rfl, ?_⟩
    unfold FlushEngine.write
    dsimp only
    split
    next =>
      obtain ⟨hw, -, hq, -⟩ := trySubmitFlush_frame { s with writes := (s.writes.write cfg env call).1 }
      exact ⟨hw, [], hq.trans (List.append_nil _).symm⟩
    next => exact ⟨Or.inl rfl, hself⟩
  | freeze =>
    obtain ⟨engine, -, rfl⟩ := Option.map_eq_some_iff.mp hs
    exact Or.inl ⟨rfl, rfl, Or.inl rfl, hself⟩
  | trySubmitFlush =>
    cases Option.some.inj hs
    obtain ⟨hw, -, hq, -⟩ := trySubmitFlush_frame s
    exact Or.inl ⟨rfl, rfl, hw, [], hq.trans (List.append_nil _).symm⟩
  | pollFlush taken outcomes =>
    cases Option.some.inj hs
    obtain ⟨hw, -, hq⟩ := pollFlush_frame taken outcomes s
    exact Or.inl ⟨rfl, rfl, hw, hq⟩
  | drainCatalogApply outcomes =>
    cases Option.some.inj hs
    obtain ⟨hf, -⟩ := drainCatalogApply_frame s outcomes
    exact Or.inl ⟨rfl, rfl, Or.inl hf.worker, [], hf.applyQueue.trans (List.append_nil _).symm⟩
  | submitCompactionApply removed added =>
    cases Option.some.inj hs
    exact Or.inl ⟨rfl, rfl, Or.inl rfl, _, rfl⟩
  | takeFailed =>
    cases Option.some.inj hs
    exact Or.inl ⟨rfl, rfl, Or.inl rfl, hself⟩
  | flushFinished bloom =>
    rw [FlushEngine.step] at hs
    split at hs
    next job hw =>
      obtain ⟨-, ⟨⟩⟩ := Option.ite_none_right_eq_some.mp hs
      exact Or.inr (Or.inl ⟨rfl, rfl, rfl, Or.inl ⟨job, _, hw, rfl, fun hnone => (by cases hnone)⟩⟩)
    next => cases hs
  | flushFailed =>
    rw [FlushEngine.step] at hs
    split at hs
    next job hw =>
      cases Option.some.inj hs
      exact Or.inr (Or.inl ⟨rfl, rfl, rfl, Or.inl ⟨job, _, hw, rfl, fun _ => rfl⟩⟩)
    next => cases hs
  | sendResult =>
    rw [FlushEngine.step] at hs
    split at hs
    next result hw =>
      cases Option.some.inj hs
      exact Or.inr (Or.inl ⟨rfl, rfl, rfl, Or.inr ⟨result, hw, rfl⟩⟩)
    next => cases hs
  | applyFinished =>
    rw [FlushEngine.step] at hs
    split at hs
    next => cases hs
    next apply rest hq =>
      cases Option.some.inj hs
      exact Or.inr (Or.inr ⟨rfl, rfl, apply, hq⟩)
  | applyFailed =>
    rw [FlushEngine.step] at hs
    split at hs
    next => cases hs
    next apply rest hq =>
      cases Option.some.inj hs
      exact Or.inr (Or.inr ⟨rfl, rfl, apply, hq⟩)

theorem AtStage.pollFlush_results (h : s.AtStage stage) (taken : Bool) (outcomes : List PublishOutcome) :
    (s.pollFlush taken outcomes).results = [] := by
  rcases h.pollFlush taken outcomes with
    ⟨hsent, heq⟩ | ⟨mt, -, heq⟩ | ⟨mt, file, -, ⟨-, heq⟩ | ⟨-, heq⟩⟩
  · have hresults : s.results = [] := by
      rw [h.results]
      cases stage with
      | sent mt file => exact absurd rfl (hsent mt file)
      | _ => rfl
    rw [heq, (drainCatalogApply_frame _ outcomes).1.results, (trySubmitFlush_frame s).2.1, hresults]
  · rw [heq, (drainCatalogApply_frame _ outcomes).1.results]
  · rw [heq, (drainCatalogApply_frame _ outcomes).1.results]
    rfl
  · rw [heq]
    rfl

theorem AtStage.pollFlush_ready {mt : Memtable} {file : Nat × (Bytes → Bool)}
    (h : s.AtStage (.ready mt file)) (taken : Bool) (outcomes : List PublishOutcome) :
    (s.pollFlush taken outcomes).ready = [] := by
  rcases h.pollFlush taken outcomes with ⟨-, heq⟩ | ⟨mt', hsent, -⟩ | ⟨mt', file', hsent, -⟩
  · rw [heq]
    exact (drainCatalogApply_frame _ outcomes).2
  · cases hsent
  · cases hsent

theorem AtStage.pollFlush_submits (h : s.AtStage .idle) (hne : s.immutable ≠ []) (taken : Bool)
    (outcomes : List PublishOutcome) : ∃ job, (s.pollFlush taken outcomes).worker = .running job := by
  rcases h.pollFlush taken outcomes with ⟨-, heq⟩ | ⟨mt', hsent, -⟩ | ⟨mt', file', hsent, -⟩
  · rw [heq, (drainCatalogApply_frame _ outcomes).1.worker]
    rcases h.trySubmitFlush with ⟨-, hempty⟩ | ⟨mt, rest, -, -, hstart⟩
    · exact absurd (hempty rfl) hne
    · rw [hstart]
      exact ⟨_, rfl⟩
  · cases hsent
  · cases hsent

theorem write_error {env : WriteEnv} {call : WriteCall} {e : WriteError}
    (h : (s.writes.write cfg env call).2 = .error e) :
    s.write cfg env call = { s with writes := (s.writes.write cfg env call).1 } := by
  unfold FlushEngine.write
  dsimp only
  rw [h]

theorem AtStage.drainCatalogApply_immutable (h : s.AtStage stage) (outcomes : List PublishOutcome) :
    (s.drainCatalogApply outcomes).immutable = s.immutable ∨
      (s.drainCatalogApply outcomes).immutable = s.immutable.tail := by
  rcases h.drainCatalogApply outcomes with
    ⟨-, -, sst, heq⟩ | ⟨mt, file, -, ⟨sst, heq⟩ | ⟨-, -, sst, heq⟩⟩
  · rw [heq]
    exact Or.inl rfl
  · rw [heq]
    exact Or.inr rfl
  · rw [heq]
    exact Or.inl rfl

theorem AtStage.pollFlush_immutable (h : s.AtStage stage) (taken : Bool) (outcomes : List PublishOutcome) :
    ((s.pollFlush taken outcomes).immutable = s.immutable ∨
      (s.pollFlush taken outcomes).immutable = s.immutable.tail) ∧
    (s.pollFlush taken outcomes).writes.engine.nextSeq = s.writes.engine.nextSeq := by
  rcases h.pollFlush taken outcomes with
    ⟨-, heq⟩ | ⟨mt, rfl, heq⟩ | ⟨mt, file, rfl, ⟨-, heq⟩ | ⟨-, heq⟩⟩
  · obtain ⟨stage', hstage, hwrites, -⟩ := h.stage_trySubmitFlush
    have himm : s.trySubmitFlush.immutable = s.immutable := by
      unfold immutable
      rw [hwrites]
    rw [heq, ← himm, ← hwrites]
    exact ⟨hstage.drainCatalogApply_immutable outcomes, (drainCatalogApply_frame _ outcomes).1.nextSeq⟩
  · rw [heq]
    exact ⟨h.retry.drainCatalogApply_immutable outcomes, (drainCatalogApply_frame _ outcomes).1.nextSeq⟩
  · rw [heq]
    exact ⟨h.passOn.drainCatalogApply_immutable outcomes, (drainCatalogApply_frame _ outcomes).1.nextSeq⟩
  · rw [heq]
    exact ⟨Or.inl rfl, rfl⟩

/-- What steps other than writes and freezes leave alone: the active memtable, the numbers and, but for
polls, the charges and the results that have been sent. Nothing is added to the queue. -/
structure OwnerFrame (s s' : FlushEngine) (polls : Prop) : Prop where
  active : s'.active = s.active
  nextSeq : s'.writes.engine.nextSeq = s.writes.engine.nextSeq
  immutable : s'.immutable = s.immutable ∨ s'.immutable = s.immutable.tail
  fair : polls ∨ s'.fair = s.fair ∧ (s'.results = [] → s.results = [])

theorem AtStage.step_frame {a : FlushAction} (h : s.AtStage stage) (hs : s.step cfg a = some s')
    (hwrite : ∀ env call, a ≠ .write env call) (hfreeze : a ≠ .freeze) :
    s.OwnerFrame s' (∃ taken outcomes, a = .pollFlush taken outcomes) := by
  cases a with
  | write env call => exact absurd rfl (hwrite env call)
  | freeze => exact absurd rfl hfreeze
  | trySubmitFlush =>
    cases Option.some.inj hs
    obtain ⟨stage', -, hwrites, -⟩ := h.stage_trySubmitFlush
    obtain ⟨-, hresults, -, hactive⟩ := trySubmitFlush_frame s
    refine ⟨hactive, by rw [hwrites], Or.inl ?_, Or.inr ⟨?_, fun hnil => hresults.symm.trans hnil⟩⟩
    · unfold FlushEngine.immutable
      rw [hwrites]
    · unfold FlushEngine.fair
      rw [hwrites]
  | pollFlush taken outcomes =>
    cases Option.some.inj hs
    obtain ⟨himm, hseq⟩ := h.pollFlush_immutable taken outcomes
    exact ⟨(pollFlush_frame taken outcomes s).2.1, hseq, himm, Or.inl ⟨taken, outcomes, rfl⟩⟩
  | drainCatalogApply outcomes =>
    cases Option.some.inj hs
    obtain ⟨hf, -⟩ := drainCatalogApply_frame s outcomes
    exact ⟨hf.active, hf.nextSeq, h.drainCatalogApply_immutable outcomes,
      Or.inr ⟨hf.fair, fun hnil => hf.results.symm.trans hnil⟩⟩
  | submitCompactionApply removed added =>
    cases Option.some.inj hs
    exact ⟨rfl, rfl, Or.inl rfl, Or.inr ⟨rfl, id⟩⟩
  | takeFailed =>
    cases Option.some.inj hs
    exact ⟨rfl, rfl, Or.inl rfl, Or.inr ⟨rfl, id⟩⟩
  | flushFinished bloom =>
    rw [FlushEngine.step] at hs
    split at hs
    next =>
      obtain ⟨-, ⟨⟩⟩ := Option.ite_none_right_eq_some.mp hs
      exact ⟨rfl, rfl, Or.inl rfl, Or.inr ⟨rfl, id⟩⟩
    next => cases hs
  | flushFailed =>
    rw [FlushEngine.step] at hs
    split at hs
    next =>
      cases Option.some.inj hs
      exact ⟨rfl, rfl, Or.inl rfl, Or.inr ⟨rfl, id⟩⟩
    next => cases hs
  | sendResult =>
    rw [FlushEngine.step] at hs
    split at hs
    next =>
      cases Option.some.inj hs
      exact ⟨rfl, rfl, Or.inl rfl, Or.inr ⟨rfl, fun hnil => (List.append_eq_nil_iff.mp hnil).1⟩⟩
    next => cases hs
  | applyFinished | applyFailed =>
    rw [FlushEngine.step] at hs
    split at hs
    next => cases hs
    next =>
      cases Option.some.inj hs
      exact ⟨rfl, rfl, Or.inl rfl, Or.inr ⟨rfl, id⟩⟩

end FlushEngine

end ZydecoDb
