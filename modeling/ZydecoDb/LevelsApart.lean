import ZydecoDb.EngineSteps

namespace ZydecoDb

open Lib

namespace EngineState

variable {st st' : EngineState} {cfg : CompactionConfig}

def JobApart (metas : List SstableMeta) (c : Compacting) : Prop :=
  ∀ t ∈ metas, t ∉ c.inputMetas → 1 ≤ t.level → t.level = c.job.outputLevel →
    Beside t c.inputMetas

structure DisjointInv (st : EngineState) : Prop where
  disjoint : LevelsDisjoint st.metas
  job : ∀ c ∈ st.compacting, JobApart st.metas c

theorem disjointInv_init : DisjointInv .init where
  disjoint a ha := by simp [init, metas] at ha
  job := by simp [init]

theorem DisjointInv.of_tables_eq (h : DisjointInv st) (hs : st'.sstables = st.sstables)
    (hc : st'.compacting = st.compacting) : DisjointInv st' := by
  obtain ⟨h1, h2⟩ := h
  rw [metas, ← hs] at h1
  simp only [metas, ← hs] at h2
  exact ⟨h1, hc ▸ h2⟩

theorem Inv.metas_nodup (hi : st.Inv) : (st.metas.map SstableMeta.id).Nodup := by
  rw [metas, List.map_map]
  exact hi.ids_nodup.sublist ((List.sublist_append_left _ _).map _)

theorem Inv.metas_le (hi : st.Inv) : ∀ m ∈ st.metas, m.minKey ≤ m.maxKey := by
  intro m hm
  obtain ⟨t, ht, rfl⟩ := List.mem_map.mp hm
  obtain ⟨v, hv, he⟩ := (hi.tables t ht).minKey_mem
  exact he ▸ (hi.tables t ht).le_maxKey v hv

theorem Inv.eq_of_metadata_id (hi : st.Inv) {t u : LoadedSstable} (ht : t ∈ st.sstables)
    (hu : u ∈ st.sstables) (h : t.metadata.id = u.metadata.id) : t = u :=
  List.inj_on_of_nodup_map (hi.ids_nodup.sublist ((List.sublist_append_left _ _).map _)) ht hu h

theorem Inv.input_iff (hi : st.Inv) {c : Compacting} (hc : c ∈ st.compacting) {t : LoadedSstable}
    (ht : t ∈ st.sstables) :
    t.metadata.id ∈ c.inputMetas.map SstableMeta.id ↔ t.metadata ∈ c.inputMetas := by
  constructor
  · intro h
    obtain ⟨m, hm, he⟩ := List.mem_map.mp h
    obtain ⟨u, hu, rfl⟩ := (hi.compacting c hc).inputs m hm
    rwa [← hi.eq_of_metadata_id hu ht he]
  · exact List.mem_map_of_mem

theorem CompactingOk.written_apart {live : List LoadedSstable} {c : Compacting}
    (h : CompactingOk live c) {a b : LoadedSstable} (ha : a ∈ c.written) (hb : b ∈ c.written)
    (hne : a ≠ b) : Apart a.metadata b.metadata := by
  have hpair : c.written.Pairwise fun a b => Apart a.metadata b.metadata := by
    have hruns := (List.pairwise_append.mp h.runs).1
    rw [List.pairwise_map] at hruns
    refine hruns.imp_of_mem fun {x y} hx hy hk => ?_
    obtain ⟨v, hv, hve⟩ := (h.written x hx).1.maxKey_mem
    obtain ⟨w, hw, hwe⟩ := (h.written y hy).1.minKey_mem
    exact Or.inl (hve ▸ hwe ▸ hk v hv w hw)
  have : Std.Symm fun a b : LoadedSstable => Apart a.metadata b.metadata :=
    ⟨fun _ _ hab => Or.symm hab⟩
  exact hpair.forall ha hb hne

theorem Inv.beside_written (hi : st.Inv) {c : Compacting} (hc : c ∈ st.compacting)
    {m : SstableMeta} (hb : Beside m c.inputMetas) {t : LoadedSstable} (ht : t ∈ c.written) :
    Apart m t.metadata := by
  have hok := hi.compacting c hc
  have horig : ∀ v ∈ t.reader.entries, ∃ x ∈ c.inputMetas, x.minKey ≤ v.userKey ∧
      v.userKey ≤ x.maxKey := by
    intro v hv
    obtain ⟨u, hu, hid, hvu⟩ := hok.written_origin ht hv
    exact ⟨u.metadata, (hi.input_iff hc hu).mp hid, (hi.tables u hu).minKey_le v hvu,
      (hi.tables u hu).le_maxKey v hvu⟩
  rcases hb with hb | hb
  · obtain ⟨v, hv, he⟩ := (hok.written t ht).1.minKey_mem
    obtain ⟨x, hx, hle, -⟩ := horig v hv
    exact Or.inl (he ▸ (hb x hx).trans_le hle)
  · obtain ⟨v, hv, he⟩ := (hok.written t ht).1.maxKey_mem
    obtain ⟨x, hx, -, hle⟩ := horig v hv
    exact Or.inr (he ▸ hle.trans_lt (hb x hx))

theorem metas_flushPublish {t : LoadedSstable} {m : SstableMeta} (hl : t.metadata.level = 0)
    (hm : m ∈ (publishCatalog [] [t] st.sstables).map LoadedSstable.metadata) :
    m ∈ st.metas ∨ m.level = 0 := by
  obtain ⟨u, hu, rfl⟩ := List.mem_map.mp hm
  rcases mem_publishCatalog.mp hu with ⟨hu, -⟩ | hu
  · exact Or.inl (List.mem_map_of_mem hu)
  · cases List.mem_singleton.mp hu
    exact Or.inr hl

theorem DisjointInv.flushPublish (h : DisjointInv st) (hi : st.Inv)
    (he : st.flushPublish = some st') : DisjointInv st' := by
  obtain ⟨t, ht, rfl⟩ := Option.map_eq_some_iff.mp he
  have hl := (hi.flushed t ht).2.1
  refine ⟨fun a ha b hb h1 h2 h3 => ?_, fun c hc u hu hnot h1 hul => ?_⟩
  · rcases metas_flushPublish hl ha with ha | ha
    · rcases metas_flushPublish hl hb with hb | hb
      · exact h.disjoint a ha b hb h1 h2 h3
      · omega
    · omega
  · rcases metas_flushPublish hl hu with hu | hu
    · exact h.job c hc u hu hnot h1 hul
    · omega

/-- Outputs overlap nothing that stays on their level. -/
theorem DisjointInv.compactionPublish (h : DisjointInv st) (hi : st.Inv)
    (he : st.compactionPublish = some st') : DisjointInv st' := by
  obtain ⟨job, metas, written, hc, rfl⟩ := compactionPublish_cases he
  have hok := hi.compacting _ hc
  have hlevel : ∀ u ∈ written, u.metadata.level = job.outputLevel := fun u hu => (hok.written u hu).2
  have hbeside : ∀ u ∈ st.sstables, u.metadata.id ∉ metas.map SstableMeta.id →
      1 ≤ u.metadata.level → u.metadata.level = job.outputLevel →
      ∀ t ∈ written, Apart u.metadata t.metadata := by
    intro u hu hnot h1 hl t ht
    have hnot : u.metadata ∉ metas := fun hin => hnot (List.mem_map_of_mem hin)
    exact hi.beside_written hc (h.job _ hc _ (List.mem_map_of_mem hu) hnot h1 hl) ht
  refine ⟨fun a ha b hb h1 h2 h3 => ?_, by simp⟩
  obtain ⟨x, hx, rfl⟩ := List.mem_map.mp ha
  obtain ⟨y, hy, rfl⟩ := List.mem_map.mp hb
  rcases mem_publishCatalog.mp hx with ⟨hx', hxn⟩ | hx'
  · rcases mem_publishCatalog.mp hy with ⟨hy', -⟩ | hy'
    · exact h.disjoint _ (List.mem_map_of_mem hx') _ (List.mem_map_of_mem hy') h1 h2 h3
    · exact hbeside x hx' hxn h1 (h2.trans (hlevel y hy')) y hy'
  · rcases mem_publishCatalog.mp hy with ⟨hy', hyn⟩ | hy'
    · exact (hbeside y hy' hyn (h2 ▸ h1) (h2.symm.trans (hlevel x hx')) x hx').symm
    · exact hok.written_apart hx' hy' fun hxy => h3 (hxy ▸ rfl)

end EngineState

end ZydecoDb
