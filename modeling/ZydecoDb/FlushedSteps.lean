import ZydecoDb.FlushedState

namespace ZydecoDb

open Lib EngineState

theorem catalog_ext {l m : List LoadedSstable}
    (hl : l.Pairwise fun a b => a.metadata.id < b.metadata.id)
    (hm : m.Pairwise fun a b => a.metadata.id < b.metadata.id) (h : ∀ t, t ∈ l ↔ t ∈ m) : l = m := by
  have hperm : l.Perm m := by
    refine (List.perm_ext_iff_of_nodup ?_ ?_).mpr h
    · exact hl.imp fun {a b} hab (he : a = b) => lt_irrefl b.metadata.id (he ▸ hab)
    · exact hm.imp fun {a b} hab (he : a = b) => lt_irrefl b.metadata.id (he ▸ hab)
  exact hperm.eq_of_pairwise (fun a b _ _ hab hba => absurd hab hba.asymm) hl hm

section Flush

variable {clock : Nat} {live : List LoadedSstable} {t : LoadedSstable} {c : Compacting}

theorem JobSafe.input_ids (h : JobSafe clock live c) {n : Nat}
    (hn : n ∈ c.inputMetas.map SstableMeta.id) : ∃ u ∈ live, u.metadata.id = n := by
  rw [h.metas] at hn
  obtain ⟨m, hm, rfl⟩ := List.mem_map.mp hn
  obtain ⟨u, hu, rfl⟩ := List.mem_map.mp hm
  exact ⟨u, (mem_inputsOf.mp hu).1, rfl⟩

theorem inputsOf_publishFlush {ids : List Nat} (hs : live.Pairwise fun a b => a.metadata.id < b.metadata.id)
    (hs' : (publishCatalog [] [t] live).Pairwise fun a b => a.metadata.id < b.metadata.id)
    (hid : t.metadata.id ∉ ids) : inputsOf (publishCatalog [] [t] live) ids = inputsOf live ids := by
  refine catalog_ext (hs'.filter _) (hs.filter _) fun u => ?_
  rw [mem_inputsOf, mem_inputsOf, publishFlush_mem]
  constructor
  · rintro ⟨hu | rfl, hin⟩
    · exact ⟨hu, hin⟩
    · exact absurd hin hid
  · exact fun hu => ⟨Or.inl hu.1, hu.2⟩

/-- A flush beside a running job leaves the job safe to publish. -/
theorem JobSafe.flush (h : JobSafe clock live c) (hc : Catalog live)
    (hc' : Catalog (publishCatalog [] [t] live))
    (hco : Coherent (tableVersions (publishCatalog [] [t] live)))
    (hfresh : ∀ u ∈ live, u.metadata.id ≠ t.metadata.id)
    (hnew : ∀ v ∈ t.reader.entries, ∀ w ∈ tableVersions live, w.seq < v.seq) :
    JobSafe clock (publishCatalog [] [t] live) c := by
  have hid : t.metadata.id ∉ c.inputMetas.map SstableMeta.id := fun hin => by
    obtain ⟨u, hu, he⟩ := h.input_ids hin
    exact hfresh u hu he
  have hin := inputsOf_publishFlush hc.ids hc'.ids hid
  have ht : t ∈ publishCatalog [] [t] live := publishFlush_mem.mpr (Or.inr rfl)
  have hold : ∀ v, v ∈ leftVersions live c → v ∈ leftVersions (publishCatalog [] [t] live) c := by
    intro v hv
    refine List.mem_append.mpr ((List.mem_append.mp hv).imp_left fun hv => ?_)
    obtain ⟨u, hu, hvu⟩ := mem_tableVersions.mp hv
    obtain ⟨hlive, hout⟩ := mem_outsideOf.mp hu
    exact mem_tableVersions.mpr
      ⟨u, mem_outsideOf.mpr ⟨publishFlush_mem.mpr (Or.inl hlive), hout⟩, hvu⟩
  have hflushed : ∀ v ∈ t.reader.entries, v ∈ leftVersions (publishCatalog [] [t] live) c :=
    fun v hv => List.mem_append_left _
      (mem_tableVersions.mpr ⟨t, mem_outsideOf.mpr ⟨ht, hid⟩, hv⟩)
  refine ⟨hin ▸ h.metas, hin ▸ h.runs, hin ▸ h.above, h.sorted, fun v hv hn => ?_, ?_⟩
  · rcases mem_publishFlush_versions.mp hv with hv | hv
    · obtain ⟨-, -, hmax⟩ := (newest_eq_some hco).mp hn
      have hnl : newest (tableVersions live) v.userKey = some v := by
        refine (newest_eq_some (hco.sublist fun w hw => mem_publishFlush_versions.mpr
          (Or.inl hw))).mpr ⟨hv, rfl, fun w hw => hmax w (mem_publishFlush_versions.mpr (Or.inl hw))⟩
      refine (h.keepsNewest v hv hnl).imp (hold v) fun hd w hw hk => ?_
      rcases mem_publishFlush_versions.mp hw with hw' | hw'
      · exact hd w hw' hk
      · have hlt := hnew w hw' v hv
        have hle := hmax w hw hk
        omega
    · exact Or.inl (hflushed v hv)
  · obtain ⟨x, hx, hxs⟩ := (hc'.tables t ht).maxSeq_mem
    refine ⟨x, hflushed x hx, le_antisymm ?_ ?_⟩
    · exact seq_le_sstableMaxSeq hc'.tables (mem_tableVersions.mpr ⟨t, ht, hx⟩)
    · refine sstableMaxSeq_le hc'.tables fun v hv => ?_
      rcases mem_publishFlush_versions.mp hv with hv | hv
      · exact (hnew x hx v hv).le
      · exact hxs ▸ (hc'.tables t ht).le_maxSeq v hv

end Flush

namespace EngineState

variable {st st' : EngineState} {cfg : CompactionConfig} {clock : Nat} {accepted : List WalEntry}
  {t : LoadedSstable}

theorem Inv.flushed_newer (hi : st.Inv) (ht : t ∈ st.flushed) {v : Version}
    (hv : v ∈ t.reader.entries) : ∀ w ∈ tableVersions st.sstables, w.seq < v.seq := by
  intro w hw
  obtain ⟨-, -, mt, hmt, he⟩ := hi.flushed t ht
  obtain ⟨u, hu, hwu⟩ := mem_tableVersions.mp hw
  have hmem : mt.entries ∈ st.memEntries := by
    have hin : mt ∈ st.immutable := List.mem_of_mem_head? hmt
    simp only [memEntries, List.mem_cons, List.mem_map, List.mem_reverse]
    exact Or.inr ⟨mt, hin, rfl⟩
  exact hi.mems_newer _ hmem u hu v (he ▸ hv) w hwu

theorem Inv.flushed_fresh (hi : st.Inv) (ht : t ∈ st.flushed) :
    ∀ u ∈ st.sstables, u.metadata.id ≠ t.metadata.id := by
  intro u hu
  have hnd := hi.ids_nodup
  simp only [allTables, show st.flushed = some t from ht, List.map_append, List.nodup_append] at hnd
  refine hnd.2.2 _ (List.mem_map_of_mem hu) _ ?_
  simp

theorem Inv.flushed_maxSeq (hi : st.Inv) (ht : t ∈ st.flushed) :
    sstableMaxSeq (publishCatalog [] [t] st.sstables) = t.metadata.maxSeq := by
  have hwf := (hi.flushed t ht).1
  have htables : ∀ u ∈ publishCatalog [] [t] st.sstables, u.WellFormed := by
    intro u hu
    rcases publishFlush_mem.mp hu with hu | rfl
    · exact hi.tables u hu
    · exact hwf
  apply le_antisymm
  · refine sstableMaxSeq_le htables fun v hv => ?_
    rcases mem_publishFlush_versions.mp hv with hv | hv
    · obtain ⟨x, hx, hxs⟩ := hwf.maxSeq_mem
      exact hxs ▸ (hi.flushed_newer ht hx v hv).le
    · exact hwf.le_maxSeq v hv
  · exact le_sstableMaxSeq (publishFlush_mem.mpr (Or.inr rfl))

theorem Backed.mem_flushed (h : st.Backed clock accepted) (ht : t ∈ st.flushed)
    {rest : List Memtable} {mt : Memtable} (himm : st.immutable = mt :: rest)
    (he : t.reader.entries = mt.entries) (v : Version) :
    (v ∈ acceptedVersions accepted ∧ v.seq ≤ t.metadata.maxSeq ↔
      v ∈ flushedVersions accepted st.sstables ∨ v ∈ t.reader.entries) ∧
    ((∃ m ∈ st.active.entries :: rest.reverse.map Memtable.entries, v ∈ m) ↔
      v ∈ acceptedVersions accepted ∧ t.metadata.maxSeq < v.seq) := by
  have hwf := (h.inv.flushed t ht).1
  obtain ⟨x, hx, hxs⟩ := hwf.maxSeq_mem
  have hmems : st.memEntries =
      (st.active.entries :: rest.reverse.map Memtable.entries) ++ [mt.entries] := by
    simp [memEntries, himm]
  have hnewer : ∀ m ∈ st.active.entries :: rest.reverse.map Memtable.entries, ∀ w ∈ m,
      t.metadata.maxSeq < w.seq := by
    intro m hm w hw
    have hpair := h.inv.mems
    rw [hmems, List.pairwise_append] at hpair
    rw [← hxs]
    exact hpair.2.2 m hm mt.entries (List.mem_singleton.mpr rfl) w hw x (he ▸ hx)
  have hsplit : (v ∈ acceptedVersions accepted ∧ sstableMaxSeq st.sstables < v.seq) ↔
      (∃ m ∈ st.active.entries :: rest.reverse.map Memtable.entries, v ∈ m) ∨
        v ∈ t.reader.entries := by
    rw [← h.mems v, hmems, he]
    simp only [List.mem_append, List.mem_singleton, or_and_right, exists_or, exists_eq_left]
  have hgrow : sstableMaxSeq st.sstables ≤ t.metadata.maxSeq := by
    refine sstableMaxSeq_le h.inv.tables fun w hw => ?_
    exact hxs ▸ (h.inv.flushed_newer ht hx w hw).le
  have hle := hwf.le_maxSeq v
  constructor
  · rw [mem_flushedVersions]
    constructor
    · rintro ⟨hv, hs⟩
      by_cases hold : v.seq ≤ sstableMaxSeq st.sstables
      · exact Or.inl ⟨hv, hold⟩
      · rcases hsplit.mp ⟨hv, not_le.mp hold⟩ with ⟨m, hm, hvm⟩ | hvt
        · exact absurd (hnewer m hm v hvm) (not_lt.mpr hs)
        · exact Or.inr hvt
    · rintro (⟨hv, hs⟩ | hv)
      · exact ⟨hv, hs.trans hgrow⟩
      · exact ⟨(hsplit.mpr (Or.inr hv)).1, hle hv⟩
  · constructor
    · rintro ⟨m, hm, hvm⟩
      exact ⟨(hsplit.mpr (Or.inl ⟨m, hm, hvm⟩)).1, hnewer m hm v hvm⟩
    · rintro ⟨hv, hs⟩
      rcases hsplit.mp ⟨hv, hgrow.trans_lt hs⟩ with hm | hvt
      · exact hm
      · exact absurd (hle hvt) (not_le.mpr hs)

theorem Backed.flushPublish (h : st.Backed clock accepted) (hf : st.flushPublish = some st') :
    st'.Backed clock accepted := by
  have hi' := h.inv.flushPublish hf
  have hids' := h.idsByAge.flushPublish hf
  obtain ⟨t, ht, rfl⟩ := Option.map_eq_some_iff.mp hf
  obtain ⟨-, -, mt, hmt, he⟩ := h.inv.flushed t ht
  obtain ⟨rest, himm⟩ : ∃ rest, st.immutable = mt :: rest := List.head?_eq_some_iff.mp hmt
  have hmem := h.mem_flushed ht himm he
  have hmax := h.inv.flushed_maxSeq ht
  have hfresh := h.inv.flushed_fresh ht
  have hvers : ∀ v, v ∈ flushedVersions accepted (publishCatalog [] [t] st.sstables) ↔
      v ∈ flushedVersions accepted st.sstables ++ t.reader.entries := by
    intro v
    rw [mem_flushedVersions, hmax, (hmem v).1, List.mem_append]
  have hco : Coherent (flushedVersions accepted (publishCatalog [] [t] st.sstables)) :=
    h.coherent.sublist fun v hv => (mem_flushedVersions.mp hv).1
  have hnew : ∀ v ∈ t.reader.entries, ∀ w ∈ flushedVersions accepted st.sstables,
      w.seq < v.seq := by
    intro v hv w hw
    have hv' : ∃ m ∈ st.memEntries, v ∈ m :=
      ⟨mt.entries, by simp [memEntries, himm], he ▸ hv⟩
    exact (mem_flushedVersions.mp hw).2.trans_lt ((h.mems v).mp hv').2
  have hcat : Catalog (publishCatalog [] [t] st.sstables) := ⟨hi'.ids, hi'.tables⟩
  refine ⟨hi', hids', h.coherent, h.next_pos, h.seq_lt, fun v => ?_, ?_, fun c hc => ?_⟩
  · show _ ↔ v ∈ acceptedVersions accepted ∧ sstableMaxSeq (publishCatalog [] [t] st.sstables) < v.seq
    rw [hmax, ← (hmem v).2]
    simp [memEntries, himm]
  · refine Answers.congr (Answers.flush h.answers h.inv.ids hfresh ?_ hnew ?_) hco hvers
    · exact hco.sublist fun v hv => (hvers v).mpr hv
    · have hord := h.idsByAge.current
      rwa [show st.flushed = some t from ht, Option.toList_some] at hord
  · refine (h.job c hc).flush h.catalog hcat ?_ hfresh fun v hv => h.inv.flushed_newer ht hv
    exact hi'.coherent.sublist fun v hv => mem_view_versions.mpr (Or.inr (mem_tableVersions.mp hv))

end EngineState

end ZydecoDb
