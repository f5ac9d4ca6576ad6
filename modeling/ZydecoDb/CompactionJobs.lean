import ZydecoDb.EngineSteps
import ZydecoDb.CatalogReads
import ZydecoDb.Survivors

namespace ZydecoDb

open Lib

def jobActions (nowMs : Nat) (blooms : List (Bytes → Bool)) : List EngineAction :=
  .submitCompaction nowMs :: (blooms.map .writeCompactionOutput ++ [.compactionPublish])

namespace EngineState

variable {st st' : EngineState} {cfg : CompactionConfig}

def gcPolicy (cfg : CompactionConfig) (st : EngineState) (job : CompactionJob) (nowMs : Nat) :
    GcPolicy :=
  ⟨st.compactionGcWatermark, st.compactionDropTombstones cfg job, nowMs⟩

def outsideTables (st : EngineState) (ids : List Nat) : List LoadedSstable :=
  st.sstables.filter fun t => t.metadata.id ∉ ids

/-- What a job run to its end leaves: its runs as tables above every live id, in the place of its
inputs. -/
structure JobResult (cfg : CompactionConfig) (st : EngineState) (nowMs : Nat)
    (plan : CompactionJob × List SstableMeta) (written : List LoadedSstable) : Prop where
  planned : planCompactionJob st.metas cfg = some plan
  runs : written.map (fun t => t.reader.entries) =
    compactionRuns (gcPolicy cfg st plan.1 nowMs) cfg.targetFileBytes
      ((st.inputTables (plan.2.map SstableMeta.id)).map fun t => t.reader.entries)
  wellFormed : ∀ t ∈ written, t.WellFormed
  ids : written.Pairwise fun a b => a.metadata.id < b.metadata.id
  above : ∀ t ∈ written, ∀ u ∈ st.sstables, u.metadata.id < t.metadata.id

variable {written : List LoadedSstable}

theorem writeOutputs_cases {job : CompactionJob} {metas : List SstableMeta}
    {blooms : List (Bytes → Bool)} {pending : List (List Version)}
    (hc : st.compacting = some ⟨job, metas, pending, written⟩)
    (hr : runFrom (EngineState.step cfg) st (blooms.map .writeCompactionOutput) = some st') :
    ∃ new, st' = { st with
        compacting := some ⟨job, metas, pending.drop blooms.length, written ++ new⟩
        nextSstableId := st.nextSstableId + blooms.length } ∧
      new.map (fun t => t.reader.entries) = pending.take blooms.length ∧
      new.map (fun t => t.metadata.id) = List.range' st.nextSstableId blooms.length := by
  induction blooms generalizing st pending written with
  | nil =>
    cases Option.some.inj hr
    refine ⟨[], ?_, rfl, rfl⟩
    cases st'
    simp_all
  | cons bloom blooms ih =>
    obtain ⟨s, hs, hr⟩ := runFrom_cons.mp hr
    obtain ⟨job', metas', run, rest, written', f, hc', -, rfl⟩ := writeCompactionOutput_cases hs
    rw [hc] at hc'
    cases hc'
    obtain ⟨new, rfl, he, hid⟩ := ih rfl hr
    refine ⟨buildSstable st.nextSstableId job.outputLevel run f :: new, ?_, ?_, ?_⟩
    · simp [Nat.add_assoc, Nat.add_comm 1]
    · simpa [buildSstable] using he
    · simpa [buildSstable, List.range'_succ] using hid

theorem publishCatalog_eq_append {removed : List Nat} {added ssts : List LoadedSstable}
    (hs : ssts.Pairwise fun a b => a.metadata.id < b.metadata.id)
    (ha : added.Pairwise fun a b => a.metadata.id < b.metadata.id)
    (hlt : ∀ t ∈ added, ∀ u ∈ ssts, u.metadata.id < t.metadata.id) :
    publishCatalog removed added ssts =
      (ssts.filter fun t => t.metadata.id ∉ removed) ++ added := by
  refine List.Pairwise.insertionSort_eq (List.pairwise_append.mpr ⟨?_, ?_, fun u hu t ht => ?_⟩)
  · exact (hs.filter _).imp fun h => h.le
  · exact ha.imp fun h => h.le
  · exact (hlt t ht u (List.mem_filter.mp hu).1).le

variable {nowMs : Nat}

/-- A whole job run leaves the other tables and its outputs. -/
theorem jobActions_cases (hi : st.Inv) {blooms : List (Bytes → Bool)}
    (hr : runFrom (EngineState.step cfg) st (jobActions nowMs blooms) = some st') :
    ∃ plan written, JobResult cfg st nowMs plan written ∧ st' = { st with
      sstables := st.outsideTables (plan.2.map SstableMeta.id) ++ written
      nextSstableId := st.nextSstableId + blooms.length
      compacting := none } := by
  obtain ⟨s₁, h₁, hr⟩ := runFrom_cons.mp hr
  obtain ⟨s₂, h₂, hr⟩ := runFrom_append.mp hr
  obtain ⟨s₃, h₃, hr⟩ := runFrom_cons.mp hr
  cases Option.some.inj hr
  have hi₁ : s₁.Inv := inv_step hi h₁
  have hi₂ : s₂.Inv := runFrom_invariant (P := Inv) (fun _ _ _ h _ hs => inv_step h hs) hi₁
    (meetsAlong_true _ _) h₂
  obtain ⟨hn, plan, hp, rfl⟩ := submitCompaction_cases h₁
  obtain ⟨new, rfl, he, hid⟩ := writeOutputs_cases rfl h₂
  obtain ⟨job, metas, written, hc, rfl⟩ := compactionPublish_cases h₃
  simp only [Option.some.injEq, Compacting.mk.injEq, List.nil_append] at hc
  obtain ⟨rfl, rfl, hdrop, rfl⟩ := hc
  have hids : new.Pairwise fun a b => a.metadata.id < b.metadata.id := by
    rw [← List.pairwise_map (f := fun t : LoadedSstable => t.metadata.id), hid]
    exact List.pairwise_lt_range'
  have habove : ∀ t ∈ new, ∀ u ∈ st.sstables, u.metadata.id < t.metadata.id := by
    intro t ht u hu
    have hge : t.metadata.id ∈ List.range' st.nextSstableId blooms.length :=
      hid ▸ List.mem_map_of_mem ht
    rw [List.mem_range'_1] at hge
    exact (hi.ids_lt u (List.mem_append_left _ hu)).trans_le hge.1
  refine ⟨plan, new, ⟨hp, ?_, ?_, hids, habove⟩, ?_⟩
  · rw [he, List.take_of_length_le (List.drop_eq_nil_iff.mp hdrop)]
    rfl
  · exact fun t ht => ((hi₂.compacting _ rfl).written t ht).1
  · simp only [publishCatalog_eq_append hi.ids hids habove]
    rfl

theorem Inv.layered (hi : st.Inv) : st.view.Layered where
  mems := hi.mems.imp fun h => h.newerThan
  mems_newer m hm t ht := (hi.mems_newer m hm t ht).newerThan
  coherent := hi.coherent
  seq_le v hv := ((hi.seq_lt v hv).trans_le hi.next_le).le
  tables := hi.tables

def firstKept (cfg : CompactionConfig) (st : EngineState)
    (plan : CompactionJob × List SstableMeta) (nowMs : Nat) (k : Bytes) : Option Version :=
  newest ((tableVersions (st.inputTables (plan.2.map SstableMeta.id))).filter fun v =>
    !(gcPolicy cfg st plan.1 nowMs).dropsTombstone v) k

theorem JobResult.coherent_inputs (hi : st.Inv) (ids : List Nat) :
    Coherent (tableVersions (st.inputTables ids)) :=
  hi.coherent.sublist fun v hv => by
    obtain ⟨t, ht, hvt⟩ := mem_tableVersions.mp hv
    exact mem_view_versions.mpr (Or.inr ⟨t, (mem_inputTables.mp ht).1, hvt⟩)

variable {plan : CompactionJob × List SstableMeta}

section

variable (h : JobResult cfg st nowMs plan written)
include h

/-- Of each key the outputs hold the first version kept, unless it is expired. -/
theorem JobResult.newest_written (hi : st.Inv) (k : Bytes) : newest (tableVersions written) k =
      (firstKept cfg st plan nowMs k).filter fun v =>
        !(gcPolicy cfg st plan.1 nowMs).expires v := by
  have hflat : tableVersions written = (written.map fun t => t.reader.entries).flatten :=
    List.flatMap_def ..
  have hin : ((st.inputTables (plan.2.map SstableMeta.id)).map fun t => t.reader.entries).flatten =
      tableVersions (st.inputTables (plan.2.map SstableMeta.id)) := (List.flatMap_def ..).symm
  rw [hflat, h.runs, newest_runs, hin]
  · rfl
  · intro src hsrc
    obtain ⟨t, ht, rfl⟩ := List.mem_map.mp hsrc
    exact (hi.tables t (mem_inputTables.mp ht).1).sorted
  · rw [hin]
    exact coherent_inputs hi _

theorem JobResult.written_subset : ∀ v ∈ tableVersions written,
      v ∈ tableVersions (st.inputTables (plan.2.map SstableMeta.id)) := by
  intro v hv
  obtain ⟨t, ht, hvt⟩ := mem_tableVersions.mp hv
  have hrun : t.reader.entries ∈ written.map fun t => t.reader.entries := List.mem_map_of_mem ht
  rw [h.runs] at hrun
  obtain ⟨src, hsrc, hvs⟩ := mem_of_mem_compactionRuns hrun hvt
  obtain ⟨u, hu, rfl⟩ := List.mem_map.mp hsrc
  exact mem_tableVersions.mpr ⟨u, hu, hvs⟩

theorem JobResult.top_written (hi : st.Inv) (k : Bytes) :
    topVersion written k = newest (tableVersions written) k := by
  refine topVersion_eq_newest ((coherent_inputs hi _).sublist h.written_subset) ?_
  have hbelow : (written.map fun t => t.reader.entries).Pairwise KeysBelow := by
    rw [h.runs]
    refine compactionRuns_keysBelow fun src hsrc => ?_
    obtain ⟨t, ht, rfl⟩ := List.mem_map.mp hsrc
    exact (hi.tables t (mem_inputTables.mp ht).1).sorted
  rw [List.pairwise_map] at hbelow
  exact hbelow.imp fun hk v hv w hw he => absurd he (ne_of_gt (hk w hw v hv))

end

end EngineState

end ZydecoDb
