import ZydecoDb.MemtableCharge

namespace ZydecoDb

open Lib VersionStore

def replayLog (sstables : List LoadedSstable) (records : List Version) : EngineState :=
  let sstableMaxSeq := (sstables.map fun t => t.metadata.maxSeq).foldl max 0
  let replayed := records.filter fun v => sstableMaxSeq < v.seq
  { EngineState.init with
    active := replayed.foldl Memtable.insert .empty
    sstables := sstables
    nextSeq := (replayed.map Version.seq).foldl max sstableMaxSeq + 1
    nextSstableId := (sstables.map fun t => t.metadata.id).foldl max 0 + 1 }

/-- A step of the engine, or a new process that finds these tables and these records on disk. -/
inductive ChargeAction
  | step (a : FlushAction)
  | reopen (sstables : List LoadedSstable) (records : List Version)

namespace FlushEngine

variable {s s' : FlushEngine} {stage : FlushStage} {cfg : WriteConfig} {t : Tenant}

def chargeStep (cfg : WriteConfig) (s : FlushEngine) : ChargeAction → Option FlushEngine
  | .step a => s.step cfg a
  | .reopen sstables records => some (.opened s.fair.cfg s.writes.policy (replayLog sstables records))

def queueBytes (t : Tenant) (queue : List Memtable) : Nat :=
  (queue.map fun mt => valueBytes t mt.entries).sum

def heldBytes (s : FlushEngine) (t : Tenant) : Nat :=
  valueBytes t s.active.entries + queueBytes t s.immutable

theorem queueBytes_append (t : Tenant) (a b : List Memtable) :
    queueBytes t (a ++ b) = queueBytes t a + queueBytes t b := by
  unfold queueBytes
  rw [List.map_append, List.sum_append]

/-- The step charges and gives back as many bytes as it moves. A write that has drawn on the budget
succeeds. A flush that settles counts a tenant's bytes right, or the tenant has nothing in the other
memtables. After a restart the log holds no bytes of a tenant. -/
def ChargesRight (cfg : WriteConfig) (s : FlushEngine) : ChargeAction → Prop
  | .step (.write env call) =>
    (¬ s.writes.ReachesBudget cfg env call ∨ WriteEngine.DrawsNothing s.fair call.ops) ∨
      (WriteEngine.admitPuts s.fair call.ops).2 = .ok () ∧ env.append = .ok ()
  | .step (.pollFlush _ _) =>
    (∃ result ∈ s.results, result ≠ none) → ∀ mt ∈ s.immutable.head?, ∀ t,
      (∀ v ∈ mt.entries, tenantFromKey v.userKey = some t → v.entry.valueLen ≠ 0) ∨
        valueBytes t s.active.entries + queueBytes t s.immutable.tail = 0
  | .reopen sstables records => ∀ t, valueBytes t (replayLog sstables records).active.entries = 0
  | _ => True

def chargedQueue (s : FlushEngine) (stage : FlushStage) : List Memtable :=
  if stage.released then s.immutable.tail else s.immutable

/-- Each tenant is charged for its bytes in the memtables, but for the one whose flush has settled.
-/
structure Charged (s : FlushEngine) (stage : FlushStage) : Prop where
  at_stage : s.AtStage stage
  enabled : s.fair.cfg.enabled = true
  fair : s.fair.Inv
  numbered : ∀ v ∈ s.active.entries, v.seq < s.writes.engine.nextSeq
  bytes : ∀ t, s.fair.memtableBytes t =
    valueBytes t s.active.entries + queueBytes t (s.chargedQueue stage)

theorem numbered_insert {ops : List BatchOp} {mt : Memtable} {seq : Nat}
    (h : ∀ v ∈ mt.entries, v.seq < seq) :
    ∀ v ∈ (ops.foldl (fun mt op => mt.insert (op.version seq)) mt).entries, v.seq < seq + 1 := by
  have hle : ∀ v ∈ mt.entries, v.seq ≤ seq := fun v hv => (h v hv).le
  clear h
  suffices hres : ∀ v ∈ (ops.foldl (fun mt op => mt.insert (op.version seq)) mt).entries, v.seq ≤ seq from
    fun v hv => Nat.lt_succ_of_le (hres v hv)
  induction ops generalizing mt with
  | nil => exact hle
  | cons op ops ih =>
    refine ih fun v hv => ?_
    rcases Memtable.mem_insertEntry hv with rfl | hv
    · rw [BatchOp.version_seq]
    · exact hle v hv

theorem nodup_of_validate {call : WriteCall} (h : call.validate = .ok ()) :
    ((call.ops ++ call.sysPuts.map fun p => BatchOp.put p.1 p.2 0).map BatchOp.key).Nodup := by
  cases call with
  | put key value expiresAt => exact List.nodup_singleton _
  | del key => exact List.nodup_singleton _
  | batch ops sysPuts => exact (validateBatch_ok h).nodup

theorem opSum_sysPuts {call : WriteCall} (h : call.validate = .ok ()) (t : Tenant) :
    opSum t (fun op => op.value.length) (call.sysPuts.map fun p => BatchOp.put p.1 p.2 0) = 0 := by
  cases call with
  | put key value expiresAt => rfl
  | del key => rfl
  | batch ops sysPuts => exact opSum_eq_zero (QuotaEngine.validateBatch_sysPuts h)

theorem maybeFreeze_bytes (cfg : WriteConfig) (engine : EngineState) (t : Tenant) :
    valueBytes t (WriteEngine.maybeFreeze cfg engine).active.entries +
        queueBytes t (WriteEngine.maybeFreeze cfg engine).immutable =
      valueBytes t engine.active.entries + queueBytes t engine.immutable := by
  unfold WriteEngine.maybeFreeze
  split
  next => rfl
  next =>
    dsimp only
    rw [queueBytes_append]
    show 0 + (_ + (valueBytes t engine.active.entries + 0)) = _
    omega

theorem Moves.chargedQueue {kept : Prop} {stage' : FlushStage} (h : s.AtStage stage)
    (hm : s.Moves stage kept s' stage') (hres : s'.results = [] → s.results = []) :
    (s'.chargedQueue stage' = s.chargedQueue stage ∧ s'.immutable = s.immutable.tail ∧
      s'.flushedTables ≠ s.flushedTables) ∨
    ∃ added, s'.immutable = s.immutable ++ added ∧
      s'.chargedQueue stage' = s.chargedQueue stage ++ added := by
  rcases hm.queue with ⟨hrel, -, added, himm⟩ | ⟨mt, file, rfl, rfl, htail, hpub⟩
  · right
    refine ⟨added, himm, ?_⟩
    have hreleased : stage'.released = stage.released := by
      have hresults := hm.reached.results
      have hbefore := h.results
      rcases hm.next with rfl | hnext
      · rfl
      · cases hnext with
        | passedOn mt file =>
          have hnil := hres hresults
          rw [hbefore] at hnil
          cases hnil
        | refused mt file =>
          have hnil := hres hresults
          rw [hbefore] at hnil
          cases hnil
        | published mt file => cases hrel rfl
        | _ => rfl
    unfold FlushEngine.chargedQueue
    rw [hreleased, himm]
    split
    next hyes =>
      -- the memtable in front is the one that has settled
      have hne : s.immutable ≠ [] := by
        intro hnil
        have hfront := h.front
        rw [hnil] at hfront
        cases stage with
        | queued mt file => cases hfront mt rfl
        | ready mt file => cases hfront mt rfl
        | lost mt => cases hfront mt rfl
        | _ => cases hyes
      exact List.tail_append_of_ne_nil hne
    next => rfl
  · left
    refine ⟨htail, htail, fun heq => ?_⟩
    rw [heq] at hpub
    simp at hpub

theorem Charged.quiet_step {a : FlushAction} (h : s.Charged stage) (hs : s.step cfg a = some s')
    (hwrite : ∀ env call, a ≠ .write env call) (hfreeze : a ≠ .freeze)
    (hpoll : ∀ taken outcomes, a ≠ .pollFlush taken outcomes) : ∃ stage', s'.Charged stage' := by
  have hframe := h.at_stage.step_frame hs hwrite hfreeze
  obtain ⟨hfair, hres⟩ := hframe.fair.resolve_left fun ⟨taken, outcomes, ha⟩ => hpoll taken outcomes ha
  obtain ⟨stage', hm⟩ := h.at_stage.step hs
  refine ⟨stage', hm.reached, hfair ▸ h.enabled, hfair ▸ h.fair, ?_, fun t => ?_⟩
  · rw [hframe.active, hframe.nextSeq]
    exact h.numbered
  · have hbytes := h.bytes t
    rw [hfair, hframe.active]
    rcases hm.chargedQueue h.at_stage hres with ⟨hqueue, -⟩ | ⟨added, himm, hqueue⟩
    · rw [hqueue]
      exact hbytes
    · have hlen := congrArg List.length himm
      have hnone : added = [] := by
        refine List.eq_nil_of_length_eq_zero ?_
        rw [List.length_append] at hlen
        rcases hframe.immutable with heq | heq
        · rw [heq] at hlen
          omega
        · rw [heq, List.length_tail] at hlen
          omega
      rw [hqueue, hnone, List.append_nil]
      exact hbytes

theorem Charged.grow {kept : Prop} {stage' : FlushStage} (h : s.Charged stage)
    (hm : s.Moves stage kept s' stage') (hres : s'.results = s.results)
    (hflushed : s'.flushedTables = s.flushedTables) (hcfg : s'.fair.cfg = s.fair.cfg)
    (hinv : s'.fair.Inv) (hnumbered : ∀ v ∈ s'.active.entries, v.seq < s'.writes.engine.nextSeq)
    (hbytes : ∀ t, s'.fair.memtableBytes t + s.heldBytes t = s.fair.memtableBytes t + s'.heldBytes t) :
    s'.Charged stage' := by
  refine ⟨hm.reached, hcfg ▸ h.enabled, hinv, hnumbered, fun t => ?_⟩
  rcases hm.chargedQueue h.at_stage hres.symm.trans with ⟨-, -, hne⟩ | ⟨added, himm, hqueue⟩
  · exact absurd hflushed hne
  · have hold := h.bytes t
    have hnew := hbytes t
    unfold heldBytes at hnew
    rw [himm, queueBytes_append] at hnew
    rw [hqueue, queueBytes_append]
    omega

theorem write_frame (cfg : WriteConfig) (s : FlushEngine) (env : WriteEnv) (call : WriteCall) :
    (s.write cfg env call).results = s.results := by
  unfold FlushEngine.write
  dsimp only
  split
  next => exact (trySubmitFlush_frame _).2.1
  next => rfl

theorem AtStage.write_writes (h : s.AtStage stage) (env : WriteEnv) (call : WriteCall) :
    (s.write cfg env call).writes = (s.writes.write cfg env call).1 ∧
      (s.write cfg env call).flushedTables = s.flushedTables := by
  obtain ⟨added, himm, hadded⟩ := write_immutable cfg s.writes env call
  have hgrow := h.grow himm hadded
  have hgrown : { s with writes := (s.writes.write cfg env call).1 }.AtStage stage :=
    ⟨hgrow.inFlight, hgrow.front, hgrow.worker, hgrow.results, hgrow.queued, hgrow.ready, hgrow.nonempty⟩
  unfold FlushEngine.write
  dsimp only
  split
  next =>
    obtain ⟨-, -, hwrites, hflushed, -⟩ := hgrown.stage_trySubmitFlush
    exact ⟨hwrites, hflushed⟩
  next => exact ⟨rfl, rfl⟩

theorem write_failed_untouched {w : WriteEngine} {env : WriteEnv} {call : WriteCall} {e : WriteError}
    (h : (w.write cfg env call).2 = .error e)
    (hright : (¬ w.ReachesBudget cfg env call ∨ WriteEngine.DrawsNothing w.fair call.ops) ∨
      (WriteEngine.admitPuts w.fair call.ops).2 = .ok () ∧ env.append = .ok ()) :
    w.Untouched (w.write cfg env call).1 := by
  have hcond : ¬ w.ReachesBudget cfg env call ∨ WriteEngine.DrawsNothing w.fair call.ops := by
    rcases hright with hcond | ⟨hdrawn, happ⟩
    · exact hcond
    · refine Or.inl fun hreach => ?_
      have hok := WriteEngine.write_ok hreach hdrawn happ
      rw [h] at hok
      cases hok
  rw [WriteEngine.write_eq_checkThenWrite] at h ⊢
  exact (WriteEngine.checkThenWrite_failed h).mpr hcond

theorem insertAll_bytes (cfg : WriteConfig) {w : WriteEngine} (env : WriteEnv) {call : WriteCall}
    (fair : FairShareState)
    (hnumbered : ∀ v ∈ w.engine.active.entries, v.seq < w.engine.nextSeq)
    (hvalid : call.validate = .ok ()) (t : Tenant) :
    valueBytes t ({ w with fair := fair }.insertAll cfg env call.ops call.sysPuts).engine.active.entries +
        queueBytes t ({ w with fair := fair }.insertAll cfg env call.ops call.sysPuts).engine.immutable =
      valueBytes t w.engine.active.entries + opSum t (fun op => op.value.length) call.ops +
        queueBytes t w.engine.immutable := by
  have hfresh : ∀ v ∈ w.engine.active.entries, v.seq = w.engine.nextSeq →
      ∀ op ∈ call.ops ++ call.sysPuts.map fun p => BatchOp.put p.1 p.2 0, v.userKey ≠ op.key := by
    intro v hv hseq
    have hlt := hnumbered v hv
    omega
  have hinserted := valueBytes_foldl_insert t hfresh (nodup_of_validate hvalid)
  rw [opSum_append, opSum_sysPuts hvalid t, Nat.add_zero] at hinserted
  rw [← hinserted]
  exact maybeFreeze_bytes cfg _ t

theorem insertAll_numbered {w : WriteEngine} {env : WriteEnv} {ops : List BatchOp}
    {sysPuts : List (Bytes × Bytes)}
    (h : ∀ v ∈ w.engine.active.entries, v.seq < w.engine.nextSeq) :
    ∀ v ∈ (w.insertAll cfg env ops sysPuts).engine.active.entries,
      v.seq < (w.insertAll cfg env ops sysPuts).engine.nextSeq := by
  unfold WriteEngine.insertAll WriteEngine.maybeFreeze
  dsimp only
  split
  next => exact numbered_insert h
  next =>
    intro v hv
    cases hv

theorem Charged.write (h : s.Charged stage) {env : WriteEnv} {call : WriteCall}
    (hright : s.ChargesRight cfg (.step (.write env call))) :
    ∃ stage', (s.write cfg env call).Charged stage' := by
  obtain ⟨stage', hm⟩ : ∃ stage', s.Moves stage True (s.write cfg env call) stage' :=
    Moves.write h.at_stage env call
  have hwrites : (s.write cfg env call).writes = (s.writes.write cfg env call).1 ∧
      (s.write cfg env call).flushedTables = s.flushedTables := h.at_stage.write_writes env call
  have hinv : (s.writes.write cfg env call).1.fair.Inv ∧
      (s.writes.write cfg env call).1.fair.cfg = s.fair.cfg := WriteEngine.write_inv h.fair call
  rw [← hwrites.1] at hinv
  have hcases := s.writes.write_cases cfg env call
  refine ⟨stage', h.grow hm (write_frame cfg s env call) hwrites.2 hinv.2 hinv.1 ?_ fun t => ?_⟩
  · unfold FlushEngine.active
    rw [hwrites.1]
    rcases hcases with ⟨e, -, seq, hseq, heq⟩ | ⟨-, -, -, -, heq⟩
    · rw [heq]
      exact fun v hv => lt_of_lt_of_le (h.numbered v hv) hseq
    · rw [heq]
      exact insertAll_numbered h.numbered
  · unfold heldBytes FlushEngine.active FlushEngine.immutable FlushEngine.fair
    rw [hwrites.1]
    rcases hcases with ⟨e, herr, -⟩ | ⟨hvalid, -, hdrawn, -, heq⟩
    · have hsame := write_failed_untouched herr hright
      rw [hsame.active, hsame.immutable, hsame.budget.1 t]
    · have hbytes := (WriteEngine.admitPuts_ok h.fair h.enabled hdrawn).2.2 t
      have hheld := insertAll_bytes cfg env
        (WriteEngine.admitPuts s.writes.fair call.ops).1 h.numbered hvalid t
      rw [heq]
      dsimp only
      rw [hheld]
      show (WriteEngine.admitPuts s.fair call.ops).1.memtableBytes t + _ = _
      rw [hbytes]
      show s.writes.fair.memtableBytes t + _ + _ = _
      omega

theorem Charged.freeze (h : s.Charged stage) (hs : s.step cfg .freeze = some s') :
    ∃ stage', s'.Charged stage' := by
  have hm : s.Moves stage True s' stage := Moves.freeze h.at_stage hs
  obtain ⟨engine, hfreeze, rfl⟩ := Option.map_eq_some_iff.mp hs
  obtain ⟨-, rfl⟩ := EngineState.freeze_cases hfreeze
  refine ⟨stage, h.grow hm rfl rfl rfl h.fair (fun v hv => by cases hv) fun t => ?_⟩
  show s.fair.memtableBytes t + _ = _ + (0 + queueBytes t (s.immutable ++ [s.active]))
  rw [queueBytes_append]
  show _ + (valueBytes t s.active.entries + _) = _ + (0 + (_ + (valueBytes t s.active.entries + 0)))
  omega

theorem Charged.settled_bytes {mt : Memtable} {file : Nat × (Bytes → Bool)}
    (h : s.Charged (.sent mt (some file)))
    (hright : ∀ t, (∀ v ∈ mt.entries, tenantFromKey v.userKey = some t → v.entry.valueLen ≠ 0) ∨
      valueBytes t s.active.entries + queueBytes t s.immutable.tail = 0) :
    (s.settleFlush (flushResult mt file)).fair.Inv ∧
      (s.settleFlush (flushResult mt file)).fair.cfg = s.fair.cfg ∧
      ∀ t, (s.settleFlush (flushResult mt file)).fair.memtableBytes t =
        valueBytes t s.active.entries + queueBytes t s.immutable.tail := by
  obtain ⟨hinv, hcfg, hreleased⟩ := FairShareState.releaseFlushed_spec h.fair h.enabled
    (flushResult mt file).table.metadata.sizeBytes (max ((flushResult mt file).tenantBytes.sum id) 1)
    (flushResult mt file).tenantBytes.entries
  refine ⟨hinv, hcfg, fun t => ?_⟩
  have hback : (s.settleFlush (flushResult mt file)).fair.memtableBytes t =
      s.fair.memtableBytes t - flushBytes t mt.entries := by
    have hget := get_attributeBytes t mt.entries .empty
    rw [SortedMap.get_empty, Option.getD_none, Nat.zero_add] at hget
    rw [← hget, ← sum_entries_eq_get]
    exact hreleased t
  obtain ⟨rest, hrest⟩ := List.head?_eq_some_iff.mp (h.at_stage.front mt rfl)
  have hbytes : s.fair.memtableBytes t = valueBytes t s.active.entries + queueBytes t s.immutable :=
    h.bytes t
  have hqueue : queueBytes t s.immutable = valueBytes t mt.entries + queueBytes t s.immutable.tail := by
    rw [hrest]
    exact List.sum_cons
  have hle := valueBytes_le_flushBytes t mt.entries
  rcases hright t with hcount | hnone
  · have heq := flushBytes_eq_valueBytes hcount
    omega
  · omega

theorem Charged.poll (h : s.Charged stage) {taken : Bool} {outcomes : List PublishOutcome}
    (hright : s.ChargesRight cfg (.step (.pollFlush taken outcomes))) :
    ∃ stage', (s.pollFlush taken outcomes).Charged stage' := by
  have hdrain : ∀ {s : FlushEngine} {stage : FlushStage}, s.Charged stage →
      ∃ stage', (s.drainCatalogApply outcomes).Charged stage' := by
    intro s stage h
    have hs : s.step cfg (.drainCatalogApply outcomes) = some (s.drainCatalogApply outcomes) := rfl
    exact h.quiet_step hs (by simp) (by simp) (by simp)
  rcases h.at_stage.pollFlush taken outcomes with
    ⟨-, heq⟩ | ⟨mt, rfl, heq⟩ | ⟨mt, file, rfl, hsettle⟩
  · rw [heq]
    have hs : s.step cfg .trySubmitFlush = some s.trySubmitFlush := rfl
    obtain ⟨stage', hsubmit⟩ := h.quiet_step hs (by simp) (by simp) (by simp)
    exact hdrain hsubmit
  · rw [heq]
    exact hdrain (s := { s with results := [], flushInFlight := false })
      ⟨h.at_stage.retry, h.enabled, h.fair, h.numbered, h.bytes⟩
  · have hresult : ∃ result ∈ s.results, result ≠ none := by
      refine ⟨some (flushResult mt file), ?_, by simp⟩
      rw [h.at_stage.results]
      exact List.mem_singleton_self _
    obtain ⟨hinv, hcfg, hbytes⟩ := h.settled_bytes (hright hresult mt (h.at_stage.front mt rfl))
    have henabled : (s.settleFlush (flushResult mt file)).fair.cfg.enabled = true := hcfg ▸ h.enabled
    rcases hsettle with ⟨-, heq⟩ | ⟨-, heq⟩
    · rw [heq]
      exact hdrain (s := s.passOn (flushResult mt file))
        ⟨h.at_stage.passOn, henabled, hinv, h.numbered, hbytes⟩
    · rw [heq]
      exact ⟨.lost mt, h.at_stage.refused, henabled, hinv, h.numbered, hbytes⟩

theorem opened_charged {fairCfg : FairConfig} (he : fairCfg.enabled = true) (policy : TenantQuotaPolicy)
    {engine : EngineState} (himm : engine.immutable = [])
    (hnumbered : ∀ v ∈ engine.active.entries, v.seq < engine.nextSeq)
    (hbytes : ∀ t, valueBytes t engine.active.entries = 0) :
    (opened fairCfg policy engine).Charged .idle := by
  refine ⟨⟨rfl, fun mt hmt => (by cases hmt), rfl, rfl, rfl, rfl, fun mt hmt => ?_⟩, he,
    FairShareState.inv_new fairCfg, hnumbered, fun t => ?_⟩
  · have hmem : mt ∈ engine.immutable := hmt
    rw [himm] at hmem
    cases hmem
  · show 0 = valueBytes t engine.active.entries + queueBytes t engine.immutable
    rw [hbytes t, himm]
    rfl

theorem replayLog_numbered (sstables : List LoadedSstable) (records : List Version) :
    ∀ v ∈ (replayLog sstables records).active.entries, v.seq < (replayLog sstables records).nextSeq := by
  unfold replayLog
  dsimp only
  generalize (sstables.map fun t => t.metadata.maxSeq).foldl max 0 = low
  generalize records.filter (fun v => decide (low < v.seq)) = replayed
  have hmem : ∀ (replayed : List Version) (mt : Memtable),
      ∀ v ∈ (replayed.foldl Memtable.insert mt).entries, v ∈ mt.entries ∨ v ∈ replayed := by
    intro replayed
    induction replayed with
    | nil => exact fun mt v hv => Or.inl hv
    | cons w replayed ih =>
      intro mt v hv
      rcases ih (mt.insert w) v hv with hv | hv
      · rcases Memtable.mem_insertEntry hv with rfl | hv
        · exact Or.inr List.mem_cons_self
        · exact Or.inl hv
      · exact Or.inr (List.mem_cons_of_mem w hv)
  intro v hv
  have hin : v ∈ replayed := (hmem replayed .empty v hv).resolve_left fun h => by cases h
  exact Nat.lt_succ_of_le ((foldl_max_ge (m := low)).2 v.seq (List.mem_map_of_mem hin))

theorem Charged.chargeStep {a : ChargeAction} (h : s.Charged stage) (hs : s.chargeStep cfg a = some s')
    (hright : s.ChargesRight cfg a) : ∃ stage', s'.Charged stage' := by
  cases a with
  | reopen sstables records =>
    cases Option.some.inj hs
    exact ⟨.idle, opened_charged h.enabled s.writes.policy rfl (replayLog_numbered sstables records) hright⟩
  | step a =>
    by_cases hwrite : ∃ env call, a = .write env call
    · obtain ⟨env, call, rfl⟩ := hwrite
      cases Option.some.inj hs
      exact h.write hright
    · by_cases hpoll : ∃ taken outcomes, a = .pollFlush taken outcomes
      · obtain ⟨taken, outcomes, rfl⟩ := hpoll
        cases Option.some.inj hs
        exact h.poll hright
      · by_cases hfreeze : a = .freeze
        · subst hfreeze
          have hs' : s.step cfg .freeze = some s' := hs
          exact h.freeze hs'
        · exact h.quiet_step hs (fun env call ha => hwrite ⟨env, call, ha⟩) hfreeze
            fun taken outcomes ha => hpoll ⟨taken, outcomes, ha⟩

/-- In every run with fair sharing on whose steps charge right, whenever no flush is on its way each
tenant is charged for exactly the value bytes it has in the memtables. -/
theorem charged_eq_held (cfg : WriteConfig) (fairCfg : FairConfig) (policy : TenantQuotaPolicy)
    (actions : List ChargeAction) (s : FlushEngine) (he : fairCfg.enabled = true)
    (hright : MeetsAlong (FlushEngine.chargeStep cfg) (ChargesRight cfg) (.opened fairCfg policy .init) actions)
    (hrun : runFrom (FlushEngine.chargeStep cfg) (.opened fairCfg policy .init) actions = some s)
    (hidle : s.flushInFlight = false) (t : Tenant) : s.fair.memtableBytes t = s.heldBytes t := by
  have hstart : (opened fairCfg policy .init).Charged .idle :=
    opened_charged he policy rfl (fun v hv => by cases hv) fun _ => rfl
  obtain ⟨stage, h⟩ : ∃ stage, s.Charged stage :=
    runFrom_invariant (P := fun s => ∃ stage, s.Charged stage)
      (fun _ _ _ ⟨_, hc⟩ hr hs => hc.chargeStep hs hr) ⟨.idle, hstart⟩ hright hrun
  have hstage : stage = .idle := by
    have hflight := h.at_stage.inFlight
    rw [hidle] at hflight
    cases stage with
    | idle => rfl
    | _ => cases hflight
  subst hstage
  exact h.bytes t

def roomyConfig : WriteConfig := ⟨1000, 4, none, 4⟩

def calmPut (key : UInt8) (n : Nat) : ChargeAction :=
  .step (.write (WriteEngine.calmEnv (.ok ()))
    (.put (WriteEngine.tenantKey 1 ++ [key]) (List.replicate n 7) 0))

def calmDelete (key : UInt8) : ChargeAction :=
  .step (.write (WriteEngine.calmEnv (.ok ())) (.del (WriteEngine.tenantKey 1 ++ [key])))

def flushSteps : List ChargeAction :=
  [.step (.flushFinished fun _ => true), .step .sendResult, .step (.pollFlush true []), .step .applyFinished,
    .step (.pollFlush true [])]

def noQuota : TenantQuotaPolicy := ⟨0, fun _ => none, fun _ => 0⟩

def chargeStart : FlushEngine := .opened FairShareState.twoTenants noQuota .init

def payer : Tenant := ⟨List.replicate 16 1, List.length_replicate⟩

/-- Two puts, the first of which is flushed: the second is what the tenant is charged for. -/
theorem flushed_put_charged :
    ∃ s, runFrom (FlushEngine.chargeStep roomyConfig) chargeStart
        ([calmPut 1 2, .step .freeze, calmPut 2 5] ++ flushSteps) = some s ∧
      s.heldBytes payer = 5 ∧ s.fair.memtableBytes payer = s.heldBytes payer := by
  have hend : (runFrom (FlushEngine.chargeStep roomyConfig) chargeStart
        ([calmPut 1 2, .step .freeze, calmPut 2 5] ++ flushSteps)).map
      (fun s => (s.flushInFlight, s.heldBytes payer)) = some (false, 5) := by
    decide +kernel
  obtain ⟨s, hrun, hs⟩ := Option.map_eq_some_iff.mp hend
  obtain ⟨hidle, hheld⟩ := Prod.mk.inj hs
  refine ⟨s, hrun, hheld, charged_eq_held roomyConfig FairShareState.twoTenants noQuota
    ([calmPut 1 2, .step .freeze, calmPut 2 5] ++ flushSteps) s rfl ?_ hrun hidle payer⟩
  refine ⟨Or.inr ⟨rfl, rfl⟩, trivial, Or.inr ⟨rfl, rfl⟩, trivial, trivial, fun _ mt hmt t => Or.inl ?_,
    trivial, fun hresult => ?_, trivial⟩
  · intro v hv _
    cases Option.mem_some_iff.mp hmt
    cases List.mem_singleton.mp hv
    decide
  · obtain ⟨result, hmem, -⟩ := hresult
    cases hmem

/-- The tombstone of a deleted key is given back as a byte that was never charged. -/
theorem flushed_tombstone_credited :
    (runFrom (FlushEngine.chargeStep roomyConfig) chargeStart
        ([calmPut 1 2, calmDelete 1, .step .freeze, calmPut 2 5] ++ flushSteps)).map
      (fun s => (s.flushInFlight, s.fair.memtableBytes payer, s.heldBytes payer)) =
        some (false, 4, 5) := by
  decide +kernel

end FlushEngine

end ZydecoDb
