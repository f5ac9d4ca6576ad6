import ZydecoDb.SchedulerEffects
import ZydecoDb.QueuedEngine

namespace ZydecoDb

open Lib

namespace EngineState

variable {st st' : EngineState} {cfg : CompactionConfig} {c : Compacting}

structure JobReady (st : EngineState) (c : Compacting) : Prop where
  ok : CompactingOk st.sstables c
  apart : JobApart st.metas c
  written : c.written = []

theorem JobReady.of_tables_eq (h : JobReady st c) (hs : st'.sstables = st.sstables) :
    JobReady st' c := by
  obtain ⟨h1, h2, h3⟩ := h
  rw [metas] at h2
  exact ⟨hs ▸ h1, by rwa [metas, hs], h3⟩

theorem workItem_ready (hi : st.Inv) (hd : LevelsDisjoint st.metas) {nowMs : Nat} {item : WorkItem}
    (h : st.workItem cfg nowMs = some item) : JobReady st item.compacting := by
  obtain ⟨plan, hp, rfl⟩ := Option.map_eq_some_iff.mp h
  have hsub : ({ st with compacting := none } : EngineState).submitCompaction cfg nowMs =
      some { st with compacting := some ⟨plan.1, plan.2, compactionRuns
        ⟨st.compactionGcWatermark, st.compactionDropTombstones cfg plan.1, nowMs⟩
        cfg.targetFileBytes
        ((st.inputTables (plan.2.map SstableMeta.id)).map fun t => t.reader.entries), []⟩ } :=
    congrArg (Option.map _) hp
  have hinv := Inv.submitCompaction hi.compactionFailed hsub
  exact ⟨hinv.compacting _ rfl,
    fun t ht hnot h1 hl => planned_beside hp hi.metas_nodup hi.metas_le hd ht hnot h1 hl, rfl⟩

theorem Inv.withJob (hi : st.Inv) (hj : JobReady st c) :
    ({ st with compacting := some c } : EngineState).Inv := by
  have hnone := hi.compactionFailed
  have hall : ({ st with compacting := some c } : EngineState).allTables =
      st.compactionFailed.allTables := by
    simp only [allTables, writtenTables, hj.written]
    rfl
  refine ⟨hi.seq_lt, hi.next_le, hi.key_ne, hi.coherent, hi.mems, hi.mems_newer, hi.imm_ne,
    hi.tables, hi.ids, ?_, ?_, hi.flushed, fun c' hc => ?_⟩
  · rw [hall]
    exact hnone.ids_nodup
  · rw [hall]
    exact hnone.ids_lt
  · cases Option.mem_some_iff.mp hc
    exact hj.ok

theorem writeOutput_step {bloom : Bytes → Bool} {c' : Compacting}
    (h : st.writeOutput cfg bloom c = some (st', c')) :
    ({ st with compacting := some c } : EngineState).writeCompactionOutput cfg bloom =
      some { st' with compacting := some c' } := by
  obtain ⟨job, metas, pending, written⟩ := c
  cases pending with
  | nil => simp [writeOutput] at h
  | cons run pending =>
    simp only [writeOutput] at h
    obtain ⟨hb, ⟨⟩⟩ := Option.ite_none_right_eq_some.mp h
    simp only [writeCompactionOutput]
    rw [if_pos hb]

structure OutsideStep (st st' : EngineState) : Prop where
  sstables : st'.sstables = st.sstables
  ids : st.nextSstableId ≤ st'.nextSstableId
  flushed : ∀ t ∈ st'.flushed, t ∈ st.flushed ∨ st.nextSstableId ≤ t.metadata.id

theorem outsideStep_step {action : EngineAction} (hf : action.scheduled = false)
    (h : st.step cfg action = some st') : OutsideStep st st' := by
  cases action with
  | put _ _ _ | del _ | writeBatch _ _ | syncWal | freeze | snapshotOwned | snapshotDrop _ =>
    obtain ⟨hs, hfl, -, hid⟩ := step_frame rfl h
    exact ⟨hs, hid.ge, fun t ht => Or.inl (hfl ▸ ht)⟩
  | flushExecute bloom =>
    obtain ⟨-, mt, rest, -, -, rfl⟩ := flushExecute_cases h
    refine ⟨rfl, Nat.le_succ _, fun t ht => Or.inr ?_⟩
    cases Option.mem_some_iff.mp ht
    exact le_rfl
  | _ => simp [EngineAction.scheduled] at hf

end EngineState

namespace CompactionSystem

variable {s s' : CompactionSystem} {cfg : CompactionConfig}

def current (s : CompactionSystem) : EngineState :=
  { s.engine with compacting := s.unpublished.head? }

def NoSharedInput (a b : Compacting) : Prop :=
  ∀ m ∈ a.inputMetas, ∀ n ∈ b.inputMetas, m.id ≠ n.id

structure Inv (s : CompactionSystem) : Prop where
  gates : Gates s
  one : s.unpublished.length ≤ 1
  engine : s.current.Inv
  apart : s.current.DisjointInv
  item : ∀ c ∈ s.pc.item, s.engine.JobReady c
  copy : s.nextSstableId ≤ s.engine.nextSstableId
  stored : s.pc.storing = true → s.nextSstableId = s.engine.nextSstableId
  removed : ∀ c ∈ s.published, ∀ m ∈ c.inputMetas, m.id < s.engine.nextSstableId ∧
    ∀ t ∈ s.current.allTables, t.metadata.id ≠ m.id
  once : s.published.Pairwise NoSharedInput
  runs : ∀ c ∈ s.published, (c.written.map fun t => t.reader.entries).Pairwise KeysBelow

theorem inv_init : Inv init where
  gates := gates_init
  one := by decide
  engine := EngineState.inv_init
  apart := EngineState.disjointInv_init
  item := by simp [init, CompactionPc.item]
  copy := le_rfl
  stored := by simp [init, CompactionPc.storing]
  removed := by simp [init]
  once := List.Pairwise.nil
  runs := by simp [init]

theorem eq_nil_or_eq_of_subperm {l l' : List Compacting} (h : l'.Subperm l) (hl : l.length ≤ 1) :
    l' = [] ∨ l' = l := by
  rcases h.length_le.lt_or_eq with hlt | heq
  · exact Or.inl (List.length_eq_zero_iff.mp (by omega))
  · have hperm := h.perm_of_length_le heq.ge
    match l, hl with
    | [], _ => exact Or.inl (List.perm_nil.mp hperm)
    | [c], _ => exact Or.inr (List.perm_singleton.mp hperm)

theorem allTables_compactionFailed {st : EngineState} {t : LoadedSstable}
    (h : t ∈ st.compactionFailed.allTables) : t ∈ st.allTables := by
  rcases List.mem_append.mp h with h | h
  · exact List.mem_append_left _ h
  · rcases List.mem_append.mp h with h | h
    · exact List.mem_append_right _ (List.mem_append_left _ h)
    · simp [EngineState.writtenTables, EngineState.compactionFailed] at h

theorem disjointInv_compactionFailed {st : EngineState} (h : st.DisjointInv) :
    st.compactionFailed.DisjointInv :=
  ⟨h.disjoint, by simp [EngineState.compactionFailed]⟩

theorem Inv.moved (hi : Inv s) (hg : Gates s') (he : s'.engine = s.engine)
    (hn : s'.nextSstableId = s.nextSstableId) (hp : s'.published = s.published)
    (hj : s'.unpublished.Subperm s.unpublished) (hitem : ∀ c ∈ s'.pc.item, c ∈ s.pc.item)
    (hst : s'.pc.storing = true → s.pc.storing = true) : Inv s' := by
  have hcur : s'.current = s.current.compactionFailed ∨ s'.current = s.current := by
    rcases eq_nil_or_eq_of_subperm hj hi.one with h | h
    · refine Or.inl ?_
      rw [current, h, he]
      rfl
    · refine Or.inr ?_
      rw [current, current, h, he]
  have hall : ∀ t ∈ s'.current.allTables, t ∈ s.current.allTables := by
    intro t ht
    rcases hcur with h | h
    · exact allTables_compactionFailed (h ▸ ht)
    · exact h ▸ ht
  refine ⟨hg, hj.length_le.trans hi.one, ?_, ?_, fun c hc => ?_, ?_, fun h => ?_, ?_, hp ▸ hi.once,
    hp ▸ hi.runs⟩
  · rcases hcur with h | h
    · rw [h]
      exact hi.engine.compactionFailed
    · rw [h]
      exact hi.engine
  · rcases hcur with h | h
    · rw [h]
      exact disjointInv_compactionFailed hi.apart
    · rw [h]
      exact hi.apart
  · rw [he]
    exact hi.item c (hitem c hc)
  · rw [he, hn]
    exact hi.copy
  · rw [he, hn]
    exact hi.stored (hst h)
  · rw [hp, he]
    intro c hc m hm
    obtain ⟨hlt, hne⟩ := hi.removed c hc m hm
    exact ⟨hlt, fun t ht => hne t (hall t ht)⟩

theorem Inv.engineStep (hi : Inv s) {action : EngineAction} {engine : EngineState}
    (h : s.engine.step cfg action = some engine) (hf : action.scheduled = false)
    (hids : s.pc.storing = true → engine.nextSstableId = s.engine.nextSstableId) :
    Inv { s with engine } := by
  obtain ⟨hs, hle, hfl⟩ := EngineState.outsideStep_step hf h
  have hjob : action.onJob = false := by
    cases action <;> simp_all [EngineAction.scheduled, EngineAction.onJob]
  have hstep := EngineState.step_withCompacting s.unpublished.head? hjob h
  refine ⟨hi.gates.withEngine engine, hi.one, EngineState.inv_step hi.engine hstep,
    hi.apart.of_tables_eq hs rfl, fun c hc => (hi.item c hc).of_tables_eq hs, hi.copy.trans hle,
    fun hst => (hi.stored hst).trans (hids hst).symm, fun c hc m hm => ?_, hi.once, hi.runs⟩
  obtain ⟨hlt, hne⟩ := hi.removed c hc m hm
  refine ⟨hlt.trans_le hle, fun t ht => ?_⟩
  rcases List.mem_append.mp ht with ht | ht
  · exact hne t (List.mem_append_left _ (hs ▸ ht))
  · rcases List.mem_append.mp ht with ht | ht
    · rcases hfl t (Option.mem_toList.mp ht) with ht | ht
      · exact hne t (List.mem_append_right _ (List.mem_append_left _ (Option.mem_toList.mpr ht)))
      · omega
    · exact hne t (List.mem_append_right _ (List.mem_append_right _ ht))

theorem Inv.flushFailed (hi : Inv s) : Inv { s with engine := s.engine.flushFailed } := by
  refine ⟨hi.gates.withEngine _, hi.one, hi.engine.flushFailed, hi.apart.of_tables_eq rfl rfl,
    fun c hc => (hi.item c hc).of_tables_eq rfl, hi.copy, hi.stored, fun c hc m hm => ?_, hi.once,
    hi.runs⟩
  obtain ⟨hlt, hne⟩ := hi.removed c hc m hm
  refine ⟨hlt, fun t ht => hne t ?_⟩
  rcases List.mem_append.mp ht with ht | ht
  · exact List.mem_append_left _ ht
  · exact List.mem_append_right _ (List.mem_append_right _ ht)

theorem Inv.planned (hi : Inv s) {nowMs : Nat} {item : WorkItem}
    (hg : Gates { s with pc := .trySubmitBusy item })
    (hjobs : unpublished { s with pc := .trySubmitBusy item } = s.unpublished)
    (h : s.engine.workItem cfg nowMs = some item) : Inv { s with pc := .trySubmitBusy item } := by
  have hcur : current { s with pc := .trySubmitBusy item } = s.current := by
    rw [current, hjobs]
    rfl
  refine ⟨hg, by rw [hjobs]; exact hi.one, by rw [hcur]; exact hi.engine,
    by rw [hcur]; exact hi.apart, fun c hc => ?_, hi.copy, by simp [CompactionPc.storing],
    by rw [hcur]; exact hi.removed, hi.once, hi.runs⟩
  cases Option.mem_some_iff.mp hc
  exact (EngineState.workItem_ready hi.engine hi.apart.disjoint h).of_tables_eq rfl

theorem Inv.started (hi : Inv s) (hg : Gates s') {c : Compacting}
    (hready : c ∈ s.pc.item ∨ ∃ nowMs item, s.engine.workItem cfg nowMs = some item ∧
      c = item.compacting)
    (he : s'.engine = s.engine) (hn : s'.nextSstableId = s.nextSstableId)
    (hp : s'.published = s.published) (hjobs : s'.unpublished = [c]) (hitem : s'.pc.item = none)
    (hst : s'.pc.storing = false) : Inv s' := by
  have hr : s.current.JobReady c := by
    rcases hready with h | ⟨nowMs, item, h, rfl⟩
    · exact (hi.item c h).of_tables_eq rfl
    · exact EngineState.workItem_ready hi.engine hi.apart.disjoint h
  have hcur : s'.current = { s.current with compacting := some c } := by
    rw [current, hjobs, he]
    rfl
  refine ⟨hg, by simp [hjobs], ?_, ?_, by simp [hitem], ?_, by simp [hst], ?_, hp ▸ hi.once,
    hp ▸ hi.runs⟩
  · rw [hcur]
    exact hi.engine.withJob hr
  · rw [hcur]
    refine ⟨hi.apart.disjoint, fun c' hc => ?_⟩
    cases Option.mem_some_iff.mp hc
    exact hr.apart
  · rw [he, hn]
    exact hi.copy
  · rw [hp, he, hcur]
    intro c' hc m hm
    obtain ⟨hlt, hne⟩ := hi.removed c' hc m hm
    refine ⟨hlt, fun t ht => hne t ?_⟩
    rcases List.mem_append.mp ht with ht | ht
    · exact List.mem_append_left _ ht
    · rcases List.mem_append.mp ht with ht | ht
      · exact List.mem_append_right _ (List.mem_append_left _ ht)
      · simp only [EngineState.writtenTables, hr.written, List.not_mem_nil] at ht

theorem Inv.wrote (hi : Inv s) (hg : Gates s') {c c' : Compacting} {bloom : Bytes → Bool}
    (h : s.engine.writeOutput cfg bloom c = some (s'.engine, c'))
    (hn : s'.nextSstableId = s.nextSstableId) (hp : s'.published = s.published)
    (hjobs : s.unpublished = [c]) (hjobs' : s'.unpublished = [c']) (hitem : s'.pc.item = s.pc.item)
    (hst : s'.pc.storing = false) : Inv s' := by
  have hcur : s.current = { s.engine with compacting := some c } := by
    rw [current, hjobs]
    rfl
  have hcur' : s'.current = { s'.engine with compacting := some c' } := by
    rw [current, hjobs']
    rfl
  have hstep := EngineState.writeOutput_step h
  rw [← hcur, ← hcur'] at hstep
  obtain ⟨job, metas, run, pending, written, f, hc, -, heq⟩ :=
    EngineState.writeCompactionOutput_cases hstep
  have hs : s'.current.sstables = s.current.sstables := by
    rw [heq]
  have hnext : s'.current.nextSstableId = s.current.nextSstableId + 1 := by
    rw [heq]
  have hjob := hi.apart.job _ hc
  refine ⟨hg, by simp [hjobs'], hi.engine.writeCompactionOutput hstep, ?_, fun d hd => ?_, ?_,
    by simp [hst], ?_, hp ▸ hi.once, hp ▸ hi.runs⟩
  · refine ⟨?_, fun d hd => ?_⟩
    · have hd := hi.apart.disjoint
      rw [heq]
      exact hd
    · rw [heq] at hd ⊢
      cases Option.mem_some_iff.mp hd
      exact hjob
  · exact (hi.item d (hitem ▸ hd)).of_tables_eq hs
  · rw [hn]
    exact hi.copy.trans (hnext ▸ Nat.le_succ _)
  · rw [hp, heq]
    intro d hd m hm
    obtain ⟨hlt, hne⟩ := hi.removed d hd m hm
    refine ⟨hlt.trans (hnext ▸ Nat.lt_succ_self _), fun t ht => ?_⟩
    simp only [EngineState.allTables, EngineState.writtenTables, List.mem_append,
      List.mem_singleton] at ht hne
    rw [hc] at hne
    rcases ht with ht | ht | ht | rfl
    · exact hne t (Or.inl ht)
    · exact hne t (Or.inr (Or.inl ht))
    · exact hne t (Or.inr (Or.inr ht))
    · exact Nat.ne_of_gt hlt

theorem foldl_max_ids {l : List LoadedSstable} {n : Nat} (h : ∀ t ∈ l, t.metadata.id < n) :
    l.foldl (fun next t => max next (t.metadata.id + 1)) n = n := by
  induction l with
  | nil => rfl
  | cons t l ih =>
    have ht := h t List.mem_cons_self
    rw [List.foldl_cons, max_eq_left (by omega)]
    exact ih fun u hu => h u (List.mem_cons_of_mem _ hu)

theorem Inv.copy_published (hi : Inv s) {added : List LoadedSstable}
    (h : ∀ t ∈ added, t ∈ s.current.allTables) :
    added.foldl (fun next t => max next (t.metadata.id + 1))
      (max s.nextSstableId s.engine.nextSstableId) = s.engine.nextSstableId := by
  rw [max_eq_right hi.copy]
  exact foldl_max_ids fun t ht => hi.engine.ids_lt t (h t ht)

theorem Inv.publishFlush (hi : Inv s) (hg : Gates s') {rest : List CatalogApply}
    (hpc : s.pc = .drainCatalogApply (.flush :: rest))
    (h : s.publishCatalogApply rest .flush = some s') : Inv s' := by
  obtain ⟨engine, he, hs'⟩ := Option.map_eq_some_iff.mp h
  have hjobs : s'.unpublished = s.unpublished := by
    rw [← hs']
    simp only [unpublished, executed, hpc]
    rfl
  have hcur : s'.current = { engine with compacting := s.unpublished.head? } := by
    simp only [current, hjobs]
    rw [← hs']
  have hstep : s.current.flushPublish = some s'.current := by
    obtain ⟨t, ht, hen⟩ := Option.map_eq_some_iff.mp he
    rw [hcur, ← hen]
    exact congrArg (Option.map _) ht
  have hnext : s'.nextSstableId = s.engine.nextSstableId := by
    rw [← hs']
    exact hi.copy_published fun u hu => List.mem_append_right _ (List.mem_append_left _ hu)
  obtain ⟨t, ht, heq⟩ := Option.map_eq_some_iff.mp hstep
  have hids : s'.engine.nextSstableId = s.engine.nextSstableId :=
    (congrArg EngineState.nextSstableId heq).symm
  have hpc' : s'.pc = .storeNextId rest := by rw [← hs']
  have hpub : s'.published = s.published := by rw [← hs']
  refine ⟨hg, by rw [hjobs]; exact hi.one, hi.engine.flushPublish hstep,
    hi.apart.flushPublish hi.engine hstep, by simp [hpc', CompactionPc.item], by rw [hnext, hids],
    fun _ => by rw [hnext, hids], ?_, hpub ▸ hi.once, hpub ▸ hi.runs⟩
  rw [hpub, hids]
  intro c hc m hm
  obtain ⟨hlt, hne⟩ := hi.removed c hc m hm
  refine ⟨hlt, fun u hu => hne u ?_⟩
  rw [← heq] at hu
  simp only [EngineState.allTables, EngineState.writtenTables, List.mem_append,
    EngineState.mem_publishCatalog, List.mem_singleton, Option.toList_none, List.nil_append] at hu ⊢
  rcases hu with (⟨hu, -⟩ | rfl) | hu
  · exact Or.inl hu
  · exact Or.inr (Or.inl (Option.mem_toList.mpr ht))
  · exact Or.inr (Or.inr hu)

theorem Inv.publishJob (hi : Inv s) (hg : Gates s') {c : Compacting} {rest : List CatalogApply}
    (hpc : s.pc = .drainCatalogApply (.compaction c :: rest))
    (h : s.publishCatalogApply rest (.compaction c) = some s') : Inv s' := by
  have hs' := Option.some.inj h
  have hcons : s.unpublished = c :: s'.unpublished := by
    rw [← hs']
    simp only [unpublished, executed, hpc]
    rfl
  have hnil : s'.unpublished = [] := by
    have hlen := hi.one
    rw [hcons, List.length_cons] at hlen
    exact List.length_eq_zero_iff.mp (by omega)
  have hcur : s.current = { s.engine with compacting := some c } := by
    rw [current, hcons]
    rfl
  have hdone : c.pending = [] := by
    refine hi.gates.done c (List.mem_append_left _ ?_)
    rw [executed, hpc]
    exact List.mem_cons_self
  have hpc' : s'.pc = .storeNextId rest := by rw [← hs']
  have hpub : s'.published = c :: s.published := by rw [← hs']
  have hengine : s'.engine = { s.engine with
      sstables := EngineState.publishCatalog (c.inputMetas.map SstableMeta.id) c.written
        s.engine.sstables } := by rw [← hs']
  have hnext : s'.nextSstableId = s'.engine.nextSstableId := by
    rw [hengine, ← hs']
    refine hi.copy_published fun u hu => ?_
    rw [hcur]
    exact List.mem_append_right _ (List.mem_append_right _ hu)
  have hstep : s.current.compactionPublish = some s'.current := by
    rw [current, current, hnil, hcons, hengine]
    obtain ⟨job, metas, pending, written⟩ := c
    cases hdone
    rfl
  have hok := hi.engine.compacting c (by rw [hcur]; rfl)
  have hlive : ∀ m ∈ c.inputMetas, ∃ t ∈ s.current.sstables, t.metadata = m := hok.inputs
  have hall : ∀ u ∈ s'.current.allTables, u ∈ s.current.allTables ∧
      (u ∈ s.current.sstables ∧ u.metadata.id ∉ c.inputMetas.map SstableMeta.id ∨
        u ∈ s.current.flushed.toList ++ s.current.writtenTables) := by
    intro u hu
    rw [current, hnil, hengine] at hu
    rw [hcur]
    simp only [EngineState.allTables, EngineState.writtenTables, List.head?_nil, List.append_nil,
      List.mem_append, EngineState.mem_publishCatalog] at hu ⊢
    tauto
  have hfresh : ∀ m ∈ c.inputMetas, ∀ u ∈ s'.current.allTables, u.metadata.id ≠ m.id := by
    intro m hm u hu
    obtain ⟨t, ht, rfl⟩ := hlive m hm
    rcases (hall u hu).2 with ⟨-, hnot⟩ | hu
    · exact fun he => hnot (he ▸ List.mem_map_of_mem hm)
    · have hnd := hi.engine.ids_nodup
      rw [EngineState.allTables, List.map_append, List.nodup_append] at hnd
      exact (hnd.2.2 _ (List.mem_map_of_mem ht) _ (List.mem_map_of_mem hu)).symm
  have hids : s'.engine.nextSstableId = s.engine.nextSstableId := by rw [hengine]
  refine ⟨hg, by simp [hnil], hi.engine.compactionPublish hstep,
    hi.apart.compactionPublish hi.engine hstep, by simp [hpc', CompactionPc.item], by rw [hnext],
    fun _ => hnext, ?_, ?_, ?_⟩
  · rw [hpub, hids]
    intro d hd m hm
    rcases List.mem_cons.mp hd with rfl | hd
    · obtain ⟨t, ht, he⟩ := hlive m hm
      exact ⟨he ▸ hi.engine.ids_lt t (List.mem_append_left _ ht), hfresh m hm⟩
    · obtain ⟨hlt, hne⟩ := hi.removed d hd m hm
      exact ⟨hlt, fun u hu => hne u (hall u hu).1⟩
  · rw [hpub, List.pairwise_cons]
    refine ⟨fun d hd m hm n hn => ?_, hi.once⟩
    obtain ⟨t, ht, he⟩ := hlive m hm
    exact he ▸ (hi.removed d hd n hn).2 t (List.mem_append_left _ ht)
  · rw [hpub]
    intro d hd
    rcases List.mem_cons.mp hd with rfl | hd
    · exact (List.pairwise_append.mp hok.runs).1
    · exact hi.runs d hd

theorem inv_step {action : SchedulerAction} (hi : Inv s) (hc : OneAtATime s action)
    (hs : s.step cfg action = some s') : Inv s' := by
  have hg := gates_step hi.gates hs
  cases effect_step hi.gates hi.one hc hs with
  | moved engine next published jobs item storing =>
    exact hi.moved hg engine next published jobs item storing
  | engine action engine h free ids eq =>
    subst eq
    exact hi.engineStep h free ids
  | flushFailed eq =>
    subst eq
    exact hi.flushFailed
  | planned nowMs item h jobs eq =>
    subst eq
    exact hi.planned hg jobs h
  | started c ready engine next published alone jobs item storing =>
    exact hi.started hg ready engine next published jobs item storing
  | wrote c c' bloom h next published jobs jobs' item storing =>
    exact hi.wrote hg h next published jobs jobs' item storing
  | publish apply rest pc h =>
    cases apply with
    | flush => exact hi.publishFlush hg pc h
    | compaction c => exact hi.publishJob hg pc h
  | store rest pc eq =>
    have hsame : s.nextSstableId = s.engine.nextSstableId := hi.stored (by rw [pc]; rfl)
    subst eq
    refine hi.moved hg (by rw [hsame]) rfl rfl ?_ (by simp [CompactionPc.item])
      (by simp [CompactionPc.storing])
    simp only [unpublished, executed, pc]
    rfl

theorem inv_of_run {actions : List SchedulerAction}
    (hr : runFrom (step cfg) init actions = some s)
    (hc : MeetsAlong (step cfg) OneAtATime init actions) : Inv s :=
  runFrom_invariant (P := Inv) (fun _ _ _ h hc hs => inv_step h hc hs) inv_init hc hr

end CompactionSystem

end ZydecoDb
