import ZydecoDb.SchedulerGates
import ZydecoDb.LevelsApart

namespace ZydecoDb

open Lib

namespace CompactionSystem

variable {s s' : CompactionSystem} {cfg : CompactionConfig}

/-- `compact_once` plans only when no other job is on its way to the catalog, and no worker takes an
id while a publish stands between its load of the counter and its store. -/
def OneAtATime (s : CompactionSystem) : SchedulerAction → Prop
  | .compactOnce _ => s.workerBusy = false → s.unpublished.isEmpty = true
  | .workerWrite _ => s.pc.storing = false
  | .engine (.flushExecute _) => s.pc.storing = false
  | _ => True

instance decidableOneAtATime (s : CompactionSystem) :
    (action : SchedulerAction) → Decidable (OneAtATime s action)
  | .compactOnce _ =>
    inferInstanceAs (Decidable (s.workerBusy = false → s.unpublished.isEmpty = true))
  | .workerWrite _ => inferInstanceAs (Decidable (s.pc.storing = false))
  | .engine action => match action with
    | .flushExecute _ => inferInstanceAs (Decidable (s.pc.storing = false))
    | .put .. | .del .. | .writeBatch .. | .syncWal | .freeze | .flushPublish | .flushFailed
    | .submitCompaction _ | .writeCompactionOutput _ | .compactionPublish | .compactionFailed
    | .snapshotOwned | .snapshotDrop _ => isTrue trivial
  | .pollFlush _ | .pollResults | .drainCatalogApply | .maybeSubmitCompaction | .owner _
  | .compactOnceWrite _ | .compactOnceEnd _ | .workerEnd _ | .workerReport | .applyTake
  | .applyAppend _ | .applyCount => isTrue trivial

inductive Effect (cfg : CompactionConfig) (s s' : CompactionSystem) : Prop
  | moved (engine : s'.engine = s.engine) (next : s'.nextSstableId = s.nextSstableId)
      (published : s'.published = s.published) (jobs : s'.unpublished.Subperm s.unpublished)
      (item : ∀ c ∈ s'.pc.item, c ∈ s.pc.item)
      (storing : s'.pc.storing = true → s.pc.storing = true)
  | engine (action : EngineAction) (engine : EngineState)
      (h : s.engine.step cfg action = some engine) (free : action.scheduled = false)
      (ids : s.pc.storing = true → engine.nextSstableId = s.engine.nextSstableId)
      (eq : s' = { s with engine })
  | flushFailed (eq : s' = { s with engine := s.engine.flushFailed })
  | planned (nowMs : Nat) (item : WorkItem) (h : s.engine.workItem cfg nowMs = some item)
      (jobs : s'.unpublished = s.unpublished) (eq : s' = { s with pc := .trySubmitBusy item })
  | started (c : Compacting)
      (ready : c ∈ s.pc.item ∨ ∃ nowMs item, s.engine.workItem cfg nowMs = some item ∧
        c = item.compacting)
      (engine : s'.engine = s.engine) (next : s'.nextSstableId = s.nextSstableId)
      (published : s'.published = s.published) (alone : s.unpublished = [])
      (jobs : s'.unpublished = [c]) (item : s'.pc.item = none) (storing : s'.pc.storing = false)
  | wrote (c c' : Compacting) (bloom : Bytes → Bool)
      (h : s.engine.writeOutput cfg bloom c = some (s'.engine, c'))
      (next : s'.nextSstableId = s.nextSstableId) (published : s'.published = s.published)
      (jobs : s.unpublished = [c]) (jobs' : s'.unpublished = [c'])
      (item : s'.pc.item = s.pc.item) (storing : s'.pc.storing = false)
  | publish (apply : CatalogApply) (rest : List CatalogApply)
      (pc : s.pc = .drainCatalogApply (apply :: rest))
      (h : s.publishCatalogApply rest apply = some s')
  | store (rest : List CatalogApply) (pc : s.pc = .storeNextId rest)
      (eq : s' = { s with
        engine := { s.engine with nextSstableId := s.nextSstableId }
        pc := .drainCatalogApply rest })

theorem Effect.of_pc {pc : CompactionPc}
    (h : (pc.applies, pc.once, pc.storing) = (s.pc.applies, s.pc.once, s.pc.storing))
    (hi : pc.item = none ∨ pc.item = s.pc.item) : Effect cfg s { s with pc } := by
  simp only [Prod.mk.injEq] at h
  obtain ⟨ha, ho, hs⟩ := h
  have hjobs : unpublished { s with pc } = s.unpublished := by
    simp only [unpublished, executed, ha, ho]
  refine .moved rfl rfl rfl (by rw [hjobs]) ?_ fun hst => hs ▸ hst
  intro c hc
  rcases hi with hi | hi
  · rw [hi] at hc
    simp at hc
  · rwa [hi] at hc

theorem Gates.unpublished_eq_nil (hg : Gates s) (hp : s.pendingCount = 0) (hr : s.ready = [])
    (hb : s.workerBusy = false) (hres : s.resultsPending = 0) (ha : s.pc.applies = [])
    (ho : s.pc.once = none) : s.unpublished = [] := by
  obtain ⟨hq, haw⟩ := hg.queue_empty hp
  obtain ⟨hw, hnil⟩ := hg.worker_waiting hb hres
  simp [unpublished, executed, ha, ho, hr, hq, haw, hw, hnil, ApplyWorker.applies,
    CompactionWorker.job]

theorem eq_singleton_of_mem {l : List Compacting} {c : Compacting} (h : l.length ≤ 1)
    (hc : c ∈ l) : l = [c] := by
  match l, h, hc with
  | [d], _, hc => rw [List.mem_singleton.mp hc]

theorem effect_submitWork (hg : Gates s) {item : WorkItem} (hpc : s.pc = .trySubmitPending item)
    (hr : s.resultsPending = 0) : Effect cfg s { s.submitWork item with pc := .idle } := by
  have hseen := hg.seen
  rw [hpc] at hseen
  obtain ⟨⟨hp, hready⟩, hb⟩ := hseen
  obtain ⟨hq, haw⟩ := hg.queue_empty hp
  obtain ⟨-, hnil⟩ := hg.worker_waiting hb hr
  refine .started item.compacting (Or.inl ?_) rfl rfl rfl ?_ ?_ rfl rfl
  · rw [hpc]
    rfl
  · exact hg.unpublished_eq_nil hp hready hb hr (by rw [hpc]; rfl) (by rw [hpc]; rfl)
  · simp [unpublished, executed, submitWork, hready, hq, haw, hnil, ApplyWorker.applies,
      CompactionWorker.job, CompactionPc.applies, CompactionPc.once]

theorem effect_ownerStep (hg : Gates s) {nowMs : Nat} (h : s.ownerStep cfg nowMs = some s') :
    Effect cfg s s' := by
  cases hg.ownerStep_cases h with
  | moved pc _ same item => exact .of_pc same item
  | planned item hpc _ hitem =>
    refine .planned nowMs item hitem ?_ rfl
    simp only [unpublished, executed, hpc]
    rfl
  | staged item st hpc _ =>
    refine .moved rfl rfl rfl ?_ (by simp [CompactionPc.item]) (by simp [CompactionPc.storing])
    have hjobs : unpublished { s with staged := st, pc := .idle } = s.unpublished := by
      simp only [unpublished, executed, hpc]
      rfl
    rw [hjobs]
  | submitted item hpc hr => exact effect_submitWork hg hpc hr
  | publish apply rest hpc h => exact .publish apply rest hpc h
  | store rest hpc => exact .store rest hpc rfl

theorem Effect.of_jobs (he : s'.engine = s.engine) (hn : s'.nextSstableId = s.nextSstableId)
    (hp : s'.published = s.published) (hj : s'.unpublished.Subperm s.unpublished)
    (hpc : s'.pc = s.pc) : Effect cfg s s' :=
  .moved he hn hp hj (by rw [hpc]; exact fun _ => id) (by rw [hpc]; exact id)

theorem effect_workerReport (h : s.workerReport = some s') : Effect cfg s s' := by
  have hexe := executed_workerReport h
  have hpc : s'.engine = s.engine ∧ s'.nextSstableId = s.nextSstableId ∧
      s'.published = s.published ∧ s'.pc = s.pc := by
    unfold CompactionSystem.workerReport at h
    split at h
    all_goals first | (cases Option.some.inj h; exact ⟨rfl, rfl, rfl, rfl⟩) | simp at h
  obtain ⟨he, hn, hp, hpc⟩ := hpc
  refine .of_jobs he hn hp ?_ hpc
  have hjobs : s'.unpublished = s.unpublished := by
    simp only [unpublished, hpc, ← List.append_assoc, hexe]
  rw [hjobs]

theorem effect_workerEnd {ok : Bool} (h : s.workerEnd ok = some s') : Effect cfg s s' := by
  unfold CompactionSystem.workerEnd at h
  split at h
  next c hw =>
    split at h
    next =>
      cases Option.some.inj h
      refine .of_jobs rfl rfl rfl (List.Sublist.subperm ?_) rfl
      exact (List.Sublist.refl _).append ((List.nil_sublist _).append (List.Sublist.refl _))
    next =>
      obtain ⟨-, ⟨⟩⟩ := Option.ite_none_right_eq_some.mp h
      refine .of_jobs rfl rfl rfl ?_ rfl
      simp only [unpublished, hw]
      rfl
  next => simp at h

theorem effect_workerWrite (hone : s.unpublished.length ≤ 1) (hc : s.pc.storing = false)
    {bloom : Bytes → Bool} (h : s.workerWrite cfg bloom = some s') : Effect cfg s s' := by
  unfold CompactionSystem.workerWrite at h
  split at h
  next c hw =>
    obtain ⟨⟨engine, c'⟩, hp, rfl⟩ := Option.map_eq_some_iff.mp h
    simp only [unpublished, hw, CompactionWorker.job, Option.toList_some, List.length_append,
      List.length_singleton] at hone
    have hex : s.executed = [] := List.length_eq_zero_iff.mp (by omega)
    have hon : s.pc.once.toList = [] := List.length_eq_zero_iff.mp (by omega)
    refine .wrote c c' bloom hp rfl rfl ?_ ?_ rfl hc
    · rw [unpublished, hw, hex, hon]
      rfl
    · show s.executed ++ ([c'] ++ s.pc.once.toList) = [c']
      rw [hex, hon]
      rfl
  next => simp at h

theorem effect_compactOnceWrite (hone : s.unpublished.length ≤ 1) {bloom : Bytes → Bool}
    (h : s.compactOnceWrite cfg bloom = some s') : Effect cfg s s' := by
  unfold CompactionSystem.compactOnceWrite at h
  split at h
  next c hpc =>
    obtain ⟨⟨engine, c'⟩, hp, rfl⟩ := Option.map_eq_some_iff.mp h
    simp only [unpublished, hpc, CompactionPc.once, Option.toList_some, List.length_append,
      List.length_singleton] at hone
    have hex : s.executed = [] := List.length_eq_zero_iff.mp (by omega)
    have hwk : s.worker.job.toList = [] := List.length_eq_zero_iff.mp (by omega)
    refine .wrote c c' bloom hp rfl rfl ?_ ?_ (by rw [hpc]; rfl) rfl
    · rw [unpublished, hpc, hex, hwk]
      rfl
    · rw [executed, hpc] at hex
      simp only [unpublished, executed, hwk, CompactionPc.applies]
      exact congrArg (· ++ [c']) hex
  next => simp at h

theorem effect_compactOnceEnd {ok : Bool} (h : s.compactOnceEnd ok = some s') :
    Effect cfg s s' := by
  unfold CompactionSystem.compactOnceEnd at h
  split at h
  next c hpc =>
    have hex : executed { s with pc := .idle } = s.executed := by
      simp only [executed, hpc]
      rfl
    split at h
    next =>
      cases Option.some.inj h
      refine .moved rfl rfl rfl (List.Sublist.subperm ?_) (by simp [CompactionPc.item])
        (by simp [CompactionPc.storing])
      rw [unpublished, hex]
      exact (List.Sublist.refl _).append ((List.Sublist.refl _).append (List.nil_sublist _))
    next =>
      obtain ⟨-, ⟨⟩⟩ := Option.ite_none_right_eq_some.mp h
      refine .moved rfl rfl rfl (List.Perm.subperm ?_) (by simp [CompactionPc.item])
        (by simp [CompactionPc.storing])
      have hperm := executed_submitApply { s with pc := .idle } (.compaction c)
      rw [hex] at hperm
      have hlast : (s.executed ++ (s.worker.job.toList ++ [c])).Perm
          ([c] ++ s.executed ++ s.worker.job.toList) := by
        rw [← List.append_assoc]
        exact List.perm_append_comm.trans (by rw [List.append_assoc])
      rw [unpublished, unpublished, hpc]
      refine List.Perm.trans ?_ hlast.symm
      exact (hperm.append_right _).trans (by simp [CompactionPc.once, submitApply, CatalogApply.job])
  next => simp at h

theorem effect_engine {action : EngineAction} (hc : OneAtATime s (.engine action))
    (h : s.step cfg (.engine action) = some s') : Effect cfg s s' := by
  simp only [step] at h
  split at h
  next hout =>
    obtain ⟨engine, he, rfl⟩ := Option.map_eq_some_iff.mp h
    cases action with
    | flushExecute bloom =>
      have hstoring : s.pc.storing = false := hc
      exact .engine _ engine he rfl (by simp [hstoring]) rfl
    | snapshotDrop seqUpper =>
      refine .engine _ engine he rfl (fun _ => ?_) rfl
      cases Option.some.inj he
      rfl
    | _ => simp [EngineAction.outside] at hout
  next =>
    split at h
    next => simp at h
    next hfree =>
      obtain ⟨hpc, h⟩ := whenIdle_cases h
      obtain ⟨engine, he, rfl⟩ := Option.map_eq_some_iff.mp h
      exact .engine action engine he (by simpa using hfree) (by simp [hpc, CompactionPc.storing]) rfl

theorem effect_pollFlush {ok : Bool} (h : s.pollFlush ok = some s') : Effect cfg s s' := by
  unfold CompactionSystem.pollFlush at h
  obtain ⟨-, h⟩ := Option.ite_none_left_eq_some.mp h
  split at h
  next =>
    cases Option.some.inj h
    refine .of_jobs rfl rfl rfl (List.Perm.subperm ?_) rfl
    exact (executed_submitApply s .flush).append_right _
  next =>
    cases Option.some.inj h
    exact .flushFailed rfl

theorem effect_compactOnce {nowMs : Nat} (hpc : s.pc = .idle)
    (hc : OneAtATime s (.compactOnce nowMs)) : Effect cfg s (s.compactOnce cfg nowMs) := by
  have hsame : Effect cfg s s :=
    .moved rfl rfl rfl (List.Subperm.refl _) (fun _ => id) id
  unfold CompactionSystem.compactOnce
  split
  next => exact hsame
  next hb =>
    split
    next item hitem =>
      have hnil : s.unpublished = [] := List.isEmpty_iff.mp (hc (by simpa using hb))
      refine .started item.compacting (Or.inr ⟨nowMs, item, hitem, rfl⟩) rfl rfl rfl hnil ?_ rfl rfl
      simp only [unpublished, executed, hpc, CompactionPc.once, List.append_eq_nil_iff] at hnil
      obtain ⟨⟨h1, h2⟩, h3, -⟩ := hnil
      simp only [unpublished, executed, h2, h3, CompactionPc.once]
      exact congrArg (· ++ [item.compacting]) (congrArg (· ++ []) h1)
    next => exact hsame

theorem effect_step {action : SchedulerAction} (hg : Gates s) (hone : s.unpublished.length ≤ 1)
    (hc : OneAtATime s action) (h : s.step cfg action = some s') : Effect cfg s s' := by
  cases action with
  | engine action => exact effect_engine hc h
  | pollFlush ok => exact effect_pollFlush (whenIdle_cases h).2
  | pollResults =>
    obtain ⟨-, h⟩ := whenIdle_cases h
    cases Option.some.inj h
    refine .of_jobs rfl rfl rfl ?_ rfl
    rw [unpublished, executed_pollResults]
    exact List.Subperm.refl _
  | drainCatalogApply =>
    obtain ⟨hpc, h⟩ := whenIdle_cases h
    cases Option.some.inj h
    refine .moved rfl rfl rfl ?_ (by simp [CompactionPc.item]) (by simp [CompactionPc.storing])
    have hjobs : unpublished { s with ready := [], pc := .drainCatalogApply s.ready } =
        s.unpublished := by
      simp only [unpublished, executed, hpc]
      rfl
    rw [hjobs]
  | maybeSubmitCompaction =>
    obtain ⟨hpc, h⟩ := whenIdle_cases h
    cases Option.some.inj h
    split
    next => exact .of_pc (by rw [hpc]) (Or.inl rfl)
    next => exact .of_pc (by rw [hpc]; rfl) (Or.inl rfl)
  | compactOnce nowMs =>
    obtain ⟨hpc, h⟩ := whenIdle_cases h
    cases Option.some.inj h
    exact effect_compactOnce hpc hc
  | owner nowMs => exact effect_ownerStep hg h
  | compactOnceWrite bloom => exact effect_compactOnceWrite hone h
  | compactOnceEnd ok => exact effect_compactOnceEnd h
  | workerWrite bloom => exact effect_workerWrite hone hc h
  | workerEnd ok => exact effect_workerEnd h
  | workerReport => exact effect_workerReport h
  | applyTake =>
    have hexe := executed_applyTake h
    simp only [step, applyTake] at h
    split at h
    next =>
      cases Option.some.inj h
      refine .of_jobs rfl rfl rfl ?_ rfl
      rw [unpublished, hexe]
      exact List.Subperm.refl _
    next => simp at h
  | applyAppend ok =>
    have hexe := executed_applyAppend h
    simp only [step, applyAppend] at h
    split at h
    next =>
      cases Option.some.inj h
      exact .of_jobs rfl rfl rfl (hexe.append (List.Sublist.refl _)).subperm rfl
    next => simp at h
  | applyCount =>
    simp only [step, applyCount] at h
    split at h
    next hw =>
      cases Option.some.inj h
      refine .of_jobs rfl rfl rfl ?_ rfl
      simp only [unpublished, executed, hw]
      exact List.Subperm.refl _
    next => simp at h

end CompactionSystem

end ZydecoDb
