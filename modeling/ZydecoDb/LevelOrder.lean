import ZydecoDb.LevelsApart
import ZydecoDb.QueuedEngine

namespace ZydecoDb

open Lib

theorem newerThan_of_apart {t u : LoadedSstable} (ht : t.WellFormed) (hu : u.WellFormed)
    (h : Apart t.metadata u.metadata) : NewerThan t.reader.entries u.reader.entries := by
  intro v hv w hw hk
  rcases h with h | h
  · refine absurd hk (ne_of_lt ?_)
    exact ((ht.le_maxKey v hv).trans_lt h).trans_le (hu.minKey_le w hw)
  · refine absurd hk (ne_of_gt ?_)
    exact ((hu.le_maxKey w hw).trans_lt h).trans_le (ht.minKey_le v hv)

namespace EngineState

def SkipsNoOverlap (cfg : CompactionConfig) (st : EngineState) (action : EngineAction) : Prop :=
  action.submits = true → BaseLevelClear cfg st.metas

instance (cfg : CompactionConfig) (st : EngineState) (action : EngineAction) :
    Decidable (SkipsNoOverlap cfg st action) :=
  inferInstanceAs (Decidable (action.submits = true → BaseLevelClear cfg st.metas))

/-- The job in flight stays a move down past nothing it overlaps; L0 tables flushed since it was
planned are newer than its inputs. -/
structure JobInOrder (cfg : CompactionConfig) (live : List LoadedSstable) (c : Compacting) :
    Prop where
  moves : MovesDown cfg (live.map LoadedSstable.metadata) c.job c.inputMetas
  later : c.job.inputLevel = 0 → ∀ t ∈ live, t.metadata.level = 0 → t.metadata ∉ c.inputMetas →
    ∀ u ∈ live, u.metadata ∈ c.inputMetas → NewerThan t.reader.entries u.reader.entries

structure LevelInv (cfg : CompactionConfig) (st : EngineState) : Prop where
  level_le : ∀ t ∈ st.sstables, t.metadata.level ≤ cfg.maxLevel
  disjoint : LevelsDisjoint st.metas
  newer : ∀ t ∈ st.sstables, ∀ u ∈ st.sstables, t.metadata.level < u.metadata.level →
    NewerThan t.reader.entries u.reader.entries
  job : ∀ c ∈ st.compacting, JobInOrder cfg st.sstables c

variable {st st' : EngineState} {cfg : CompactionConfig}

theorem LevelInv.disjointInv (h : LevelInv cfg st) : DisjointInv st where
  disjoint := h.disjoint
  job c hc t ht hnot _ hl := (h.job c hc).moves.bottom t ht hnot hl

section

variable (h : LevelInv cfg st)
include h

theorem LevelInv.flushPublish (hi : st.Inv)
    (he : st.flushPublish = some st') : LevelInv cfg st' := by
  obtain ⟨t, ht, rfl⟩ := Option.map_eq_some_iff.mp he
  obtain ⟨hwf, hl, mt, hmt, hme⟩ := hi.flushed t ht
  have hsst : ∀ u, u ∈ publishCatalog [] [t] st.sstables ↔ u ∈ st.sstables ∨ u = t := by
    intro u
    simp [mem_publishCatalog]
  have hmem : mt.entries ∈ st.memEntries := List.mem_cons_of_mem _
    (List.mem_map_of_mem (List.mem_reverse.mpr (List.mem_of_mem_head? hmt)))
  have hnew : ∀ u ∈ st.sstables, NewerThan t.reader.entries u.reader.entries := by
    intro u hu
    rw [hme]
    exact (hi.mems_newer _ hmem u hu).newerThan
  refine ⟨fun u hu => ?_, (h.disjointInv.flushPublish hi he).disjoint, fun u hu w hw hlt => ?_,
    fun c hc => ?_⟩
  · rcases (hsst u).mp hu with hu | rfl
    · exact h.level_le u hu
    · omega
  · rcases (hsst w).mp hw with hw' | rfl
    · rcases (hsst u).mp hu with hu' | rfl
      · exact h.newer u hu' w hw' hlt
      · exact hnew w hw'
    · omega
  · obtain ⟨hm, hlater⟩ := h.job c hc
    refine ⟨hm.add_l0 fun m hm' => metas_flushPublish hl hm', fun h0 u hu hul hnot w hw hwi => ?_⟩
    · have hw' : w ∈ st.sstables := by
        obtain ⟨x, hx, hxe⟩ := (hi.compacting c hc).inputs _ hwi
        rcases (hsst w).mp hw with hw | rfl
        · exact hw
        · have hnd := hi.ids_nodup
          simp only [allTables, show st.flushed = some w from ht, Option.toList_some] at hnd
          rw [List.map_append, List.nodup_append] at hnd
          exact absurd (congrArg SstableMeta.id hxe)
            (hnd.2.2 _ (List.mem_map_of_mem hx) _ (List.mem_map_of_mem (by simp)))
      rcases (hsst u).mp hu with hu' | rfl
      · exact hlater h0 u hu' hul hnot w hw' hwi
      · exact hnew w hw'

theorem LevelInv.submitCompaction (hi : st.Inv) (hmax : 1 ≤ cfg.maxLevel)
    {now : Nat} (hn : SkipsNoOverlap cfg st (.submitCompaction now))
    (he : st.submitCompaction cfg now = some st') : LevelInv cfg st' := by
  obtain ⟨-, plan, hp, rfl⟩ := submitCompaction_cases he
  refine ⟨h.level_le, h.disjoint, h.newer, fun c hc => ?_⟩
  cases Option.mem_some_iff.mp hc
  refine ⟨planned_movesDown hp hi.metas_nodup hi.metas_le h.disjoint hmax (hn rfl), ?_⟩
  intro h0 t ht hl hnot
  exact absurd (planned_l0_inputs hp hmax h0 (List.mem_map_of_mem ht) hl) hnot

/-- A table at or above the output level that the job leaves out is newer than its inputs. -/
theorem LevelInv.bystander_newer (hi : st.Inv) {c : Compacting}
    (hc : c ∈ st.compacting) {u t : LoadedSstable} (hu : u ∈ st.sstables)
    (hnot : u.metadata ∉ c.inputMetas) (hl : u.metadata.level ≤ c.job.outputLevel)
    (ht : t ∈ st.sstables) (hin : t.metadata ∈ c.inputMetas) :
    NewerThan u.reader.entries t.reader.entries := by
  obtain ⟨hm, hlater⟩ := h.job c hc
  have hapart := newerThan_of_apart (hi.tables u hu) (hi.tables t ht)
  rcases hl.eq_or_lt with hl | hl
  · exact hapart ((hm.bottom _ (List.mem_map_of_mem hu) hnot hl).apart hin)
  · rcases hm.levels _ hin with hti | htj
    · rcases lt_trichotomy u.metadata.level c.job.inputLevel with hlt | heq | hgt
      · exact h.newer u hu t ht (by omega)
      · rcases Nat.eq_zero_or_pos c.job.inputLevel with h0 | h1
        · exact hlater h0 u hu (by omega) hnot t ht hin
        · refine hapart (h.disjoint _ (List.mem_map_of_mem hu) _ (List.mem_map_of_mem ht) (by omega)
            (by omega) fun he => hnot ?_)
          rwa [hi.eq_of_metadata_id hu ht he]
      · refine hapart ((hm.between _ (List.mem_map_of_mem hu) hgt hl).apart ?_)
        exact List.mem_filter.mpr ⟨hin, decide_eq_true hti⟩
    · exact h.newer u hu t ht (by omega)

theorem LevelInv.compactionPublish (hi : st.Inv)
    (he : st.compactionPublish = some st') : LevelInv cfg st' := by
  obtain ⟨job, metas, written, hc, rfl⟩ := compactionPublish_cases he
  have hok := hi.compacting _ hc
  have hm := (h.job _ hc).moves
  have hsst : ∀ u ∈ publishCatalog (metas.map SstableMeta.id) written st.sstables,
      u ∈ st.sstables ∧ u.metadata ∉ metas ∨ u ∈ written := by
    intro u hu
    refine (mem_publishCatalog.mp hu).imp_left fun hu => ⟨hu.1, fun hin => hu.2 ?_⟩
    exact List.mem_map_of_mem hin
  have hlevel : ∀ u ∈ written, u.metadata.level = job.outputLevel := fun u hu => (hok.written u hu).2
  have horigin : ∀ u ∈ written, ∀ v ∈ u.reader.entries,
      ∃ x ∈ st.sstables, x.metadata ∈ metas ∧ v ∈ x.reader.entries := by
    intro u hu v hv
    obtain ⟨x, hx, hid, hvx⟩ := hok.written_origin hu hv
    exact ⟨x, hx, (hi.input_iff hc hx).mp hid, hvx⟩
  refine ⟨fun u hu => ?_, (h.disjointInv.compactionPublish hi he).disjoint,
    fun t ht u hu hlt => ?_, by simp⟩
  · rcases hsst u hu with ⟨hu', -⟩ | hu'
    · exact h.level_le u hu'
    · exact (hlevel u hu').trans_le hm.le
  · rcases hsst t ht with ⟨ht', htn⟩ | ht'
    · rcases hsst u hu with ⟨hu', -⟩ | hu'
      · exact h.newer t ht' u hu' hlt
      · intro v hv w hw hk
        obtain ⟨x, hx, hxin, hwx⟩ := horigin u hu' w hw
        have hl := hlevel u hu'
        exact h.bystander_newer hi hc ht' htn (by simp only; omega) hx hxin v hv w hwx hk
    · rcases hsst u hu with ⟨hu', -⟩ | hu'
      · intro v hv w hw hk
        obtain ⟨x, hx, hxin, hvx⟩ := horigin t ht' v hv
        have hl := hlevel t ht'
        have hxl := hm.levels _ hxin
        have hij := hm.lt
        exact h.newer x hx u hu' (by simp only at hxl hij; omega) v hvx w hw hk
      · have hl := hlevel t ht'
        have hl' := hlevel u hu'
        omega

end

end EngineState

end ZydecoDb
