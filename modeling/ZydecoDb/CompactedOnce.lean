import ZydecoDb.SchedulerInvariant

namespace ZydecoDb

open Lib

/-- As long as `compact_once` plans only when no other job is on its way to the catalog, and workers
take ids outside a publish's load and store, no table is an input of two published jobs. -/
theorem compacted_once (cfg : CompactionConfig) (actions : List SchedulerAction)
    (s : CompactionSystem)
    (hr : runFrom (CompactionSystem.step cfg) .init actions = some s)
    (hc : MeetsAlong (CompactionSystem.step cfg) CompactionSystem.OneAtATime .init actions) :
    s.published.Pairwise fun a b => ∀ m ∈ a.inputMetas, ∀ n ∈ b.inputMetas, m.id ≠ n.id :=
  (CompactionSystem.inv_of_run hr hc).once

def drainedRun (key : Bytes) : List SchedulerAction :=
  flushedPut [1, 7] [10] ++ backgroundJob ++ [.workerReport, .pollResults] ++ applyActions ++
    flushedPut key [12] ++ compactOnceJob

def undrainedRun : List SchedulerAction :=
  flushedPut [1, 7] [10] ++ backgroundJob ++ compactOnceJob ++ [.workerReport, .pollResults] ++
    applyActions

/-- A background job drained and published, then an explicit one over its output and a new table. -/
theorem compacted_once_after_drain :
    ∃ s, runFrom (CompactionSystem.step (.trigger 1)) .init (drainedRun [1, 7]) = some s ∧
      s.published.map (fun c => c.inputMetas.map SstableMeta.id) = [[2, 3], [1]] ∧
      s.published.Pairwise fun a b => ∀ m ∈ a.inputMetas, ∀ n ∈ b.inputMetas, m.id ≠ n.id :=
  ⟨_, rfl, by decide +kernel, compacted_once (.trigger 1) (drainedRun [1, 7]) _ rfl
    (by decide +kernel)⟩

/-- The background job has finished and cleared the busy flag, its result is not drained:
`compact_once` plans the same table from the catalog, and both jobs are published. -/
theorem undrained_job_compacted_again :
    (runFrom (CompactionSystem.step (.trigger 1)) .init undrainedRun).map
      (fun s => s.published.map fun c => c.inputMetas.map SstableMeta.id) = some [[1], [1]] := by
  decide +kernel

/-- Under the same order of steps, tables of one level below L0 never meet, and the versions of a key
stay in one output of a job. -/
theorem levels_stay_disjoint (cfg : CompactionConfig) (actions : List SchedulerAction)
    (s : CompactionSystem)
    (hr : runFrom (CompactionSystem.step cfg) .init actions = some s)
    (hc : MeetsAlong (CompactionSystem.step cfg) CompactionSystem.OneAtATime .init actions) :
    (∀ t ∈ s.engine.sstables, ∀ u ∈ s.engine.sstables, t ≠ u → 1 ≤ t.metadata.level →
      t.metadata.level = u.metadata.level →
      t.metadata.maxKey < u.metadata.minKey ∨ u.metadata.maxKey < t.metadata.minKey) ∧
    ∀ c ∈ s.published ++ s.unpublished, c.written.Pairwise fun t u =>
      ∀ v ∈ t.reader.entries, ∀ w ∈ u.reader.entries, v.userKey ≠ w.userKey := by
  have hi := CompactionSystem.inv_of_run hr hc
  constructor
  · intro t ht u hu hne h1 hl
    have hid : t.metadata.id ≠ u.metadata.id := fun he =>
      hne (hi.engine.eq_of_metadata_id ht hu he)
    exact hi.apart.disjoint _ (List.mem_map_of_mem ht) _ (List.mem_map_of_mem hu) h1 hl hid
  · intro c hc
    have hruns : (c.written.map fun t => t.reader.entries).Pairwise KeysBelow := by
      rcases List.mem_append.mp hc with hc | hc
      · exact hi.runs c hc
      · have hjob : c ∈ s.current.compacting := by
          rw [CompactionSystem.current, CompactionSystem.eq_singleton_of_mem hi.one hc]
          rfl
        exact (List.pairwise_append.mp (hi.engine.compacting c hjob).runs).1
    rw [List.pairwise_map] at hruns
    exact hruns.imp fun hk v hv w hw => ne_of_lt (hk v hv w hw)

/-- The explicit job adds a table beside the first one's output at L1. -/
theorem levels_stay_disjoint_after_drain :
    ∃ s, runFrom (CompactionSystem.step (.trigger 1)) .init (drainedRun [1, 8]) = some s ∧
      s.engine.metas.map (fun m => (m.id, m.level, m.minKey, m.maxKey)) =
        [(2, 1, [1, 7], [1, 7]), (4, 1, [1, 8], [1, 8])] ∧
      ∀ t ∈ s.engine.sstables, ∀ u ∈ s.engine.sstables, t ≠ u → 1 ≤ t.metadata.level →
        t.metadata.level = u.metadata.level →
        t.metadata.maxKey < u.metadata.minKey ∨ u.metadata.maxKey < t.metadata.minKey :=
  ⟨_, rfl, by decide +kernel, (levels_stay_disjoint (.trigger 1) (drainedRun [1, 8]) _ rfl
    (by decide +kernel)).1⟩

/-- Both jobs of an undrained and an explicit compaction leave a table with the same key at L1. -/
theorem undrained_job_duplicates_range :
    (runFrom (CompactionSystem.step (.trigger 1)) .init undrainedRun).map
      (fun s => s.engine.metas.map fun m => (m.id, m.level, m.minKey, m.maxKey)) =
        some [(2, 1, [1, 7], [1, 7]), (3, 1, [1, 7], [1, 7])] := by
  decide +kernel

end ZydecoDb
