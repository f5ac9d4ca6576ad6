import ZydecoDb.Engine
import ZydecoDb.PlannedJobs
import ZydecoDb.Lib.Crowding
import Mathlib.Data.DFinsupp.WellFounded

namespace ZydecoDb

open Lib CompactionPlanner

structure CompactEnv where
  gcWatermark : Nat
  allowTombstoneDrop : Bool
  nowMs : Nat
  bloom : List Version → Bytes → Bool

structure LiveCatalog where
  sstables : List LoadedSstable
  nextSstableId : Nat

inductive PlannerPanic
  | slotsOverflow
deriving DecidableEq

namespace LiveCatalog

variable (cfg : CompactionConfig) (env : CompactEnv) (c : LiveCatalog)

def metas : List SstableMeta := c.sstables.map LoadedSstable.metadata

def tryPlan : Except PlannerPanic (Option (CompactionJob × List SstableMeta)) :=
  if 255 ≤ cfg.maxLevel then .error .slotsOverflow else .ok (planCompactionJob c.metas cfg)

def writeOutputs (level : Nat) : Nat → List (List Version) → List LoadedSstable
  | _, [] => []
  | id, run :: runs =>
    let withBloom := !(cfg.optimizeFiltersForHits && level = cfg.maxLevel)
    buildSstable id level run (if withBloom then some (env.bloom run) else none) ::
      writeOutputs level (id + 1) runs

def inputTables (ids : List Nat) : List LoadedSstable := c.sstables.filter fun t => t.metadata.id ∈ ids

def jobRuns (job : CompactionJob) (inputMetas : List SstableMeta) : List (List Version) :=
  compactionRuns ⟨env.gcWatermark, job.outputLevel = cfg.maxLevel && env.allowTombstoneDrop, env.nowMs⟩
    cfg.targetFileBytes ((c.inputTables (inputMetas.map SstableMeta.id)).map fun t => t.reader.entries)

def compactOnce : Except PlannerPanic (Option LiveCatalog) :=
  (c.tryPlan cfg).map fun plan => plan.map fun (job, inputMetas) =>
    let runs := c.jobRuns cfg env job inputMetas
    { sstables := EngineState.publishCatalog (inputMetas.map SstableMeta.id)
        (writeOutputs cfg env job.outputLevel c.nextSstableId runs) c.sstables
      nextSstableId := c.nextSstableId + runs.length }

def compactAll (envs : Nat → CompactEnv) : Nat → Nat → LiveCatalog → Except PlannerPanic (Option LiveCatalog)
  | 0, _, _ => .ok none
  | fuel + 1, n, c =>
    match c.compactOnce cfg (envs n) with
    | .error p => .error p
    | .ok none => .ok (some c)
    | .ok (some c') => compactAll envs fuel (n + 1) c'

end LiveCatalog

def LoadedSstable.block (t : LoadedSstable) : Block Bytes :=
  ⟨t.metadata.minKey, t.metadata.maxKey, t.reader.entries.map Version.userKey⟩

namespace LiveCatalog

variable {cfg : CompactionConfig} {env : CompactEnv} {c c' : LiveCatalog}
  {plan : CompactionJob × List SstableMeta}

structure Valid (c : LiveCatalog) : Prop where
  sorted : ∀ t ∈ c.sstables, t.reader.entries.Pairwise Version.le
  keys : ∀ t ∈ c.sstables, ∀ v ∈ t.reader.entries, v.userKey ≠ []
  tight : ∀ t ∈ c.sstables, t.block.Tight
  nodup : (c.sstables.map fun t => t.metadata.id).Nodup
  below : ∀ t ∈ c.sstables, t.metadata.id < c.nextSstableId

theorem writeOutputs_entries (level id : Nat) (runs : List (List Version)) :
    (writeOutputs cfg env level id runs).map (fun t => t.reader.entries) = runs := by
  induction runs generalizing id with
  | nil => rfl
  | cons run runs ih => exact congrArg (run :: ·) (ih (id + 1))

theorem writeOutputs_ids (level id : Nat) (runs : List (List Version)) :
    (writeOutputs cfg env level id runs).map (fun t => t.metadata.id) = List.range' id runs.length := by
  induction runs generalizing id with
  | nil => rfl
  | cons run runs ih => exact congrArg (id :: ·) (ih (id + 1))

variable {runs : List (List Version)} {t : LoadedSstable}

theorem writeOutputs_level {level id : Nat} (h : t ∈ writeOutputs cfg env level id runs) :
    t.metadata.level = level := by
  induction runs generalizing id with
  | nil => cases h
  | cons run runs ih =>
    rcases List.mem_cons.mp h with rfl | h
    · rfl
    · exact ih h

theorem block_buildSstable_tight {id level : Nat} {run : List Version} (bloom : Option (Bytes → Bool))
    (hs : run.Pairwise Version.le) (hne : run ≠ []) (hk : ∀ v ∈ run, v.userKey ≠ []) :
    (buildSstable id level run bloom).block.Tight := by
  have hw : (buildSstable id level run none).WellFormed :=
    buildSstable_wellFormed hs hne hk fun f hf => by cases hf
  refine ⟨fun k hk => ?_, List.mem_map.mpr hw.minKey_mem, List.mem_map.mpr hw.maxKey_mem⟩
  obtain ⟨v, hv, rfl⟩ := List.mem_map.mp hk
  exact ⟨hw.minKey_le v hv, hw.le_maxKey v hv⟩

theorem writeOutputs_tight {level id : Nat} (hs : ∀ run ∈ runs, run.Pairwise Version.le)
    (hne : ∀ run ∈ runs, run ≠ []) (hk : ∀ run ∈ runs, ∀ v ∈ run, v.userKey ≠ []) :
    ∀ t ∈ writeOutputs cfg env level id runs, t.block.Tight := by
  induction runs generalizing id with
  | nil =>
    intro t ht
    cases ht
  | cons run runs ih =>
    intro t ht
    rcases List.mem_cons.mp ht with rfl | ht
    · exact block_buildSstable_tight _ (hs run List.mem_cons_self) (hne run List.mem_cons_self)
        (hk run List.mem_cons_self)
    · exact ih (fun r hr => hs r (List.mem_cons_of_mem run hr))
        (fun r hr => hne r (List.mem_cons_of_mem run hr))
        (fun r hr => hk r (List.mem_cons_of_mem run hr)) t ht

theorem compactOnce_cases (h : c.compactOnce cfg env = .ok (some c')) :
    cfg.maxLevel < 255 ∧ ∃ plan, planCompactionJob c.metas cfg = some plan ∧
      c'.nextSstableId = c.nextSstableId + (c.jobRuns cfg env plan.1 plan.2).length ∧
      c'.sstables.Perm ((c.sstables.filter fun t => t.metadata.id ∉ plan.2.map SstableMeta.id) ++
        writeOutputs cfg env plan.1.outputLevel c.nextSstableId (c.jobRuns cfg env plan.1 plan.2)) := by
  unfold compactOnce tryPlan at h
  split at h
  next => cases h
  next hlevel =>
    obtain ⟨⟨job, inputMetas⟩, hplan, heq⟩ := Option.map_eq_some_iff.mp (Except.ok.inj h)
    cases heq
    exact ⟨not_le.mp hlevel, (job, inputMetas), hplan, rfl, List.perm_insertionSort _ _⟩

theorem mem_metas (ht : t ∈ c.sstables) : t.metadata ∈ c.metas :=
  List.mem_map_of_mem ht

theorem Valid.metas_nodup (hv : c.Valid) : (c.metas.map SstableMeta.id).Nodup := by
  rw [metas, List.map_map]
  exact hv.nodup

theorem id_mem_planned (hp : planCompactionJob c.metas cfg = some plan) (ht : t ∈ c.sstables) :
    t.metadata.id ∈ plan.2.map SstableMeta.id ↔ t.metadata.id ∈ plan.1.inputs := by
  obtain ⟨-, hin, -⟩ := planCompactionJob_inputs hp
  rw [hin]
  constructor
  · intro h
    obtain ⟨m, hm, he⟩ := List.mem_map.mp h
    rw [← he]
    exact of_decide_eq_true (List.mem_filter.mp hm).2
  · intro h
    exact List.mem_map_of_mem (List.mem_filter.mpr ⟨mem_metas ht, decide_eq_true h⟩)

section Written

variable (hv : c.Valid) (job : CompactionJob) (inputMetas : List SstableMeta)
include hv

theorem Valid.sources_sorted (ids : List Nat) :
    ∀ src ∈ (c.inputTables ids).map fun t => t.reader.entries, src.Pairwise Version.le := by
  intro src hsrc
  obtain ⟨t, ht, rfl⟩ := List.mem_map.mp hsrc
  exact hv.sorted t (List.mem_filter.mp ht).1

theorem Valid.run_sorted : ∀ run ∈ c.jobRuns cfg env job inputMetas, run.Pairwise Version.le :=
  compactionRuns_sorted (hv.sources_sorted _)

theorem Valid.run_keys : ∀ run ∈ c.jobRuns cfg env job inputMetas, ∀ v ∈ run, v.userKey ≠ [] := by
  intro run hrun v hvm
  obtain ⟨src, hsrc, hvs⟩ := mem_of_mem_compactionRuns hrun hvm
  obtain ⟨t, ht, rfl⟩ := List.mem_map.mp hsrc
  exact hv.keys t (List.mem_filter.mp ht).1 v hvs

theorem Valid.outputs_tight (level id : Nat) :
    ∀ t ∈ writeOutputs cfg env level id (c.jobRuns cfg env job inputMetas), t.block.Tight :=
  writeOutputs_tight (hv.run_sorted job inputMetas) (compactionRuns_ne_nil (hv.sources_sorted _))
    (hv.run_keys job inputMetas)

end Written

theorem mem_writeOutputs_entries {level id : Nat} (ht : t ∈ writeOutputs cfg env level id runs) :
    t.reader.entries ∈ runs := by
  have h : t.reader.entries ∈ (writeOutputs cfg env level id runs).map fun t => t.reader.entries :=
    List.mem_map_of_mem ht
  rwa [writeOutputs_entries] at h

theorem Valid.compactOnce (hv : c.Valid) (h : c.compactOnce cfg env = .ok (some c')) : c'.Valid := by
  obtain ⟨-, plan, -, hnext, hperm⟩ := compactOnce_cases h
  have hmem : ∀ t ∈ c'.sstables, t ∈ c.sstables ∨
      t ∈ writeOutputs cfg env plan.1.outputLevel c.nextSstableId (c.jobRuns cfg env plan.1 plan.2) := by
    intro t ht
    rcases List.mem_append.mp (hperm.mem_iff.mp ht) with ht | ht
    · exact Or.inl (List.mem_filter.mp ht).1
    · exact Or.inr ht
  have hids : ∀ t ∈ writeOutputs cfg env plan.1.outputLevel c.nextSstableId
      (c.jobRuns cfg env plan.1 plan.2),
      c.nextSstableId ≤ t.metadata.id ∧ t.metadata.id < c'.nextSstableId := by
    intro t ht
    have hid : t.metadata.id ∈ (writeOutputs cfg env plan.1.outputLevel c.nextSstableId
        (c.jobRuns cfg env plan.1 plan.2)).map fun t => t.metadata.id := List.mem_map_of_mem ht
    rw [writeOutputs_ids, List.mem_range'_1] at hid
    omega
  refine ⟨fun t ht => ?_, fun t ht => ?_, fun t ht => ?_, ?_, fun t ht => ?_⟩
  · rcases hmem t ht with ht | ht
    · exact hv.sorted t ht
    · exact hv.run_sorted _ _ _ (mem_writeOutputs_entries ht)
  · rcases hmem t ht with ht | ht
    · exact hv.keys t ht
    · exact hv.run_keys _ _ _ (mem_writeOutputs_entries ht)
  · rcases hmem t ht with ht | ht
    · exact hv.tight t ht
    · exact hv.outputs_tight _ _ _ _ t ht
  · rw [(hperm.map fun t => t.metadata.id).nodup_iff, List.map_append, List.nodup_append]
    refine ⟨hv.nodup.sublist (List.filter_sublist.map _), ?_, ?_⟩
    · rw [writeOutputs_ids]
      exact List.nodup_range'
    · intro a ha b hb heq
      obtain ⟨t, ht, rfl⟩ := List.mem_map.mp ha
      obtain ⟨u, hu, rfl⟩ := List.mem_map.mp hb
      have hlt := hv.below t (List.mem_filter.mp ht).1
      have hge := (hids u hu).1
      omega
  · rcases hmem t ht with ht | ht
    · have hlt := hv.below t ht
      omega
    · exact (hids t ht).2

def tablesAt (c : LiveCatalog) (level : Nat) : List LoadedSstable :=
  c.sstables.filter fun t => t.metadata.level = level

theorem mem_tablesAt {level : Nat} :
    t ∈ c.tablesAt level ↔ t ∈ c.sstables ∧ t.metadata.level = level := by
  simp [tablesAt]

theorem tablesAt_perm {ids : List Nat} {outputs : List LoadedSstable} (level : Nat)
    (hperm : c'.sstables.Perm ((c.sstables.filter fun t => t.metadata.id ∉ ids) ++ outputs)) :
    (c'.tablesAt level).Perm (((c.tablesAt level).filter fun t => t.metadata.id ∉ ids) ++
      outputs.filter fun t => t.metadata.level = level) := by
  have h := hperm.filter fun t => decide (t.metadata.level = level)
  rw [List.filter_append, List.filter_comm] at h
  exact h

theorem outputs_filter_eq_nil {level out id : Nat} (hne : level ≠ out) (runs : List (List Version)) :
    ((writeOutputs cfg env out id runs).filter fun t => t.metadata.level = level) = [] := by
  rw [List.filter_eq_nil_iff]
  intro t ht hl
  have hout := writeOutputs_level ht
  exact hne ((of_decide_eq_true hl).symm.trans hout)

section Step

variable (hp : planCompactionJob c.metas cfg = some plan)
  (hperm : c'.sstables.Perm ((c.sstables.filter fun t => t.metadata.id ∉ plan.2.map SstableMeta.id) ++
    writeOutputs cfg env plan.1.outputLevel c.nextSstableId (c.jobRuns cfg env plan.1 plan.2)))
include hp hperm

theorem length_tablesAt_same {level : Nat} (hne : level ≠ plan.1.outputLevel)
    (hnone : ∀ t ∈ c.tablesAt level, t.metadata.id ∉ plan.1.inputs) :
    (c'.tablesAt level).length = (c.tablesAt level).length := by
  have h := (tablesAt_perm level hperm).length_eq
  have hkept : ((c.tablesAt level).filter fun t => t.metadata.id ∉ plan.2.map SstableMeta.id) =
      c.tablesAt level := by
    rw [List.filter_eq_self]
    intro t ht
    rw [decide_eq_true_eq, id_mem_planned hp (mem_tablesAt.mp ht).1]
    exact hnone t ht
  rw [hkept, outputs_filter_eq_nil hne, List.append_nil] at h
  exact h

theorem length_tablesAt_lt {level : Nat} (hne : level ≠ plan.1.outputLevel) {t : LoadedSstable}
    (ht : t ∈ c.tablesAt level) (hid : t.metadata.id ∈ plan.1.inputs) :
    (c'.tablesAt level).length < (c.tablesAt level).length := by
  have h := (tablesAt_perm level hperm).length_eq
  rw [outputs_filter_eq_nil hne, List.append_nil] at h
  rw [h, List.length_filter_lt_length_iff_exists]
  refine ⟨t, ht, ?_⟩
  rw [decide_eq_true_eq, id_mem_planned hp (mem_tablesAt.mp ht).1]
  exact not_not.mpr hid

end Step

end LiveCatalog

end ZydecoDb
