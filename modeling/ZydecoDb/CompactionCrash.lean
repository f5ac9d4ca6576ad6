import ZydecoDb.CutCatalogs

namespace ZydecoDb

open Lib

def addedCatalog (tables written : List LoadedSstable) (a : Nat) : List LoadedSstable :=
  EngineState.publishCatalog [] (written.take a) tables

def removedCatalog (tables : List LoadedSstable) (ids : List Nat) (written : List LoadedSstable)
    (r : Nat) : List LoadedSstable :=
  EngineState.publishCatalog (((inputsOf tables ids).take r).map fun t => t.metadata.id) written tables

def SameAt (nowMs : Nat) (segs : List (Nat × List WalEntry)) (tables cut : List LoadedSstable)
    (k : Bytes) : Prop :=
  SameFrom nowMs ((newest (replayedVersions segs cut) k).or (topVersion cut k))
      ((newest (replayedVersions segs tables) k).or (topVersion tables k)) ∧
    SameFrom nowMs ((newest (replayedVersions segs cut) k).or (newest (tableVersions cut) k))
      ((newest (replayedVersions segs tables) k).or (newest (tableVersions tables) k))

theorem sameFrom_dead_iff {nowMs : Nat} {a : Option Version} {v : Version}
    (hv : v.entry.isLive nowMs = false) : SameFrom nowMs a (some v) ↔ Dead a nowMs := by
  have hdead : ∀ t, nowMs ≤ t → valueAt (some v) t = none := by
    intro t ht
    have ho : outcome (some v) t = none := outcome_eq_none.mpr fun w hw => by
      cases Option.mem_some_iff.mp hw
      exact Entry.isLive_antitone ht hv
    rw [valueAt, ho]
    rfl
  rw [dead_iff_outcome]
  constructor
  · intro h t ht
    have hnone := (h t ht).trans (hdead t ht)
    simpa [valueAt] using hnone
  · intro h t ht
    rw [hdead t ht, valueAt, h t ht]
    rfl

section Cuts

variable {p : GcPolicy} {tables written : List LoadedSstable} {ids : List Nat}
  {segs : List (Nat × List WalEntry)} {k : Bytes}

theorem mem_addedCatalog {a : Nat} {t : LoadedSstable} :
    t ∈ addedCatalog tables written a ↔ t ∈ tables ∨ t ∈ written.take a := by
  simp [addedCatalog, EngineState.mem_publishCatalog]

theorem mem_removedCatalog (hc : Catalog tables) {r : Nat} {t : LoadedSstable} :
    t ∈ removedCatalog tables ids written r ↔
      (t ∈ outsideOf tables ids ∨ t ∈ (inputsOf tables ids).drop r) ∨ t ∈ written := by
  rw [removedCatalog, EngineState.mem_publishCatalog]
  refine or_congr_left ?_
  have hsorted : (inputsOf tables ids).Pairwise fun a b => a.metadata.id < b.metadata.id :=
    hc.ids.filter _
  constructor
  · rintro ⟨ht, hid⟩
    by_cases hin : t.metadata.id ∈ ids
    · have hmem := mem_inputsOf.mpr ⟨ht, hin⟩
      rw [← List.take_append_drop r (inputsOf tables ids)] at hmem
      rcases List.mem_append.mp hmem with hmem | hmem
      · exact absurd (List.mem_map_of_mem hmem) hid
      · exact Or.inr hmem
    · exact Or.inl (mem_outsideOf.mpr ⟨ht, hin⟩)
  · rintro (ht | ht)
    · obtain ⟨ht, hin⟩ := mem_outsideOf.mp ht
      refine ⟨ht, fun hid => ?_⟩
      obtain ⟨u, hu, he⟩ := List.mem_map.mp hid
      exact hin (he ▸ (mem_inputsOf.mp (List.mem_of_mem_take hu)).2)
    · refine ⟨(mem_inputsOf.mp (List.mem_of_mem_drop ht)).1, fun hid => ?_⟩
      obtain ⟨u, hu, he⟩ := List.mem_map.mp hid
      rw [← List.take_append_drop r (inputsOf tables ids)] at hsorted
      have hlt := (List.pairwise_append.mp hsorted).2.2 u hu t ht
      omega

variable (hc : Catalog tables) (h : CompactionResult p tables ids written)

include hc h

theorem nodup_ids : ((tables ++ written).map fun t => t.metadata.id).Nodup := by
  rw [List.Nodup, List.pairwise_map]
  refine List.pairwise_append.mpr ⟨hc.ids.imp fun hlt => hlt.ne, h.sorted.imp fun hlt => hlt.ne, ?_⟩
  exact fun t ht o ho => h.fresh o ho t ht

theorem addedCatalog_ids (a : Nat) :
    (addedCatalog tables written a).Pairwise fun a b => a.metadata.id < b.metadata.id :=
  EngineState.publishCatalog_ids ((nodup_ids hc h).sublist
    (((List.Sublist.refl tables).append (List.take_sublist a written)).map _))

theorem removedCatalog_ids (r : Nat) :
    (removedCatalog tables ids written r).Pairwise fun a b => a.metadata.id < b.metadata.id :=
  EngineState.publishCatalog_ids (nodup_ids hc h)

omit hc in
theorem addedCatalog_versions {a : Nat} {v : Version} :
    v ∈ tableVersions (addedCatalog tables written a) ↔ v ∈ tableVersions tables := by
  simp only [mem_tableVersions, mem_addedCatalog]
  constructor
  · rintro ⟨t, ht | ht, hv⟩
    · exact ⟨t, ht, hv⟩
    · obtain ⟨u, hu, hvu⟩ := h.mem_inputs_of_mem_written (List.mem_of_mem_take ht) hv
      exact ⟨u, (mem_inputsOf.mp hu).1, hvu⟩
  · rintro ⟨t, ht, hv⟩
    exact ⟨t, Or.inl ht, hv⟩

theorem removedCatalog_versions {r : Nat} {v : Version}
    (hv : v ∈ tableVersions (removedCatalog tables ids written r)) : v ∈ tableVersions tables := by
  obtain ⟨t, ht, hvt⟩ := mem_tableVersions.mp hv
  rcases (mem_removedCatalog hc).mp ht with (ht | ht) | ht
  · exact mem_tableVersions.mpr ⟨t, (mem_outsideOf.mp ht).1, hvt⟩
  · exact mem_tableVersions.mpr ⟨t, (mem_inputsOf.mp (List.mem_of_mem_drop ht)).1, hvt⟩
  · exact h.written_versions (mem_tableVersions.mpr ⟨t, ht, hvt⟩)

theorem addedCatalog_wellFormed {a : Nat} : ∀ t ∈ addedCatalog tables written a, t.WellFormed := by
  intro t ht
  rcases mem_addedCatalog.mp ht with ht | ht
  · exact hc.tables t ht
  · exact h.wellFormed t (List.mem_of_mem_take ht)

theorem removedCatalog_wellFormed {r : Nat} :
    ∀ t ∈ removedCatalog tables ids written r, t.WellFormed := by
  intro t ht
  rcases (mem_removedCatalog hc).mp ht with (ht | ht) | ht
  · exact hc.tables t (mem_outsideOf.mp ht).1
  · exact hc.tables t (mem_inputsOf.mp (List.mem_of_mem_drop ht)).1
  · exact h.wellFormed t ht

theorem sstableMaxSeq_added (a : Nat) :
    sstableMaxSeq (addedCatalog tables written a) = sstableMaxSeq tables := by
  apply le_antisymm
  · exact sstableMaxSeq_le (addedCatalog_wellFormed hc h) fun v hv =>
      seq_le_sstableMaxSeq hc.tables ((addedCatalog_versions h).mp hv)
  · exact sstableMaxSeq_le hc.tables fun v hv =>
      seq_le_sstableMaxSeq (addedCatalog_wellFormed hc h) ((addedCatalog_versions h).mpr hv)

theorem replayed_addedCatalog (a : Nat) :
    replayedVersions segs (addedCatalog tables written a) = replayedVersions segs tables := by
  rw [replayedVersions, sstableMaxSeq_added hc h, replayedVersions]

theorem top_added_of_above {a : Nat} {o : LoadedSstable} (ho : o ∈ written.take a) (hk : o.Holds k)
    (habove : ∀ t ∈ tables, t.Holds k → t.metadata.id < o.metadata.id) :
    topVersion (addedCatalog tables written a) k = newest o.reader.entries k := by
  refine topVersion_of_topHolder (addedCatalog_ids hc h a)
    ⟨mem_addedCatalog.mpr (Or.inr ho), hk, fun u hu huk => ?_⟩
  rcases mem_addedCatalog.mp hu with hu | hu
  · exact (habove u hu huk).le
  · rw [h.written_unique hc (List.mem_of_mem_take hu) (List.mem_of_mem_take ho) huk hk]

theorem top_added_of_not_above {a : Nat}
    (hnot : ∀ o ∈ written.take a, o.Holds k → ∃ t ∈ tables, t.Holds k ∧ o.metadata.id ≤ t.metadata.id) :
    topVersion (addedCatalog tables written a) k = topVersion tables k := by
  by_cases hex : ∃ t ∈ tables, t.Holds k
  · obtain ⟨t, ht, hk⟩ := hex
    obtain ⟨u, hu⟩ := exists_topHolder ht hk
    have hcut : TopHolder (addedCatalog tables written a) k u := by
      refine ⟨mem_addedCatalog.mpr (Or.inl hu.mem), hu.holds, fun w hw hwk => ?_⟩
      rcases mem_addedCatalog.mp hw with hw | hw
      · exact hu.top w hw hwk
      · obtain ⟨t', ht', hk', hle⟩ := hnot w hw hwk
        exact hle.trans (hu.top t' ht' hk')
    rw [topVersion_of_topHolder (addedCatalog_ids hc h a) hcut, topVersion_of_topHolder hc.ids hu]
  · have hnone : ∀ t ∈ tables, ¬ t.Holds k := fun t ht hk => hex ⟨t, ht, hk⟩
    rw [topVersion_eq_none_of_not_holds hnone, topVersion_eq_none_of_not_holds]
    intro t ht hk
    rcases mem_addedCatalog.mp ht with ht | ht
    · exact hnone t ht hk
    · obtain ⟨t', ht', hk', -⟩ := hnot t ht hk
      exact hnone t' ht' hk'

theorem top_removed_of_above {r : Nat} {o : LoadedSstable} (ho : o ∈ written) (hk : o.Holds k)
    (habove : ∀ t ∈ tables, t.Holds k → t.metadata.id < o.metadata.id) :
    topVersion (removedCatalog tables ids written r) k = newest o.reader.entries k := by
  refine topVersion_of_topHolder (removedCatalog_ids hc h r)
    ⟨(mem_removedCatalog hc).mpr (Or.inr ho), hk, fun u hu huk => ?_⟩
  rcases (mem_removedCatalog hc).mp hu with (hu | hu) | hu
  · exact (habove u (mem_outsideOf.mp hu).1 huk).le
  · exact (habove u (mem_inputsOf.mp (List.mem_of_mem_drop hu)).1 huk).le
  · rw [h.written_unique hc hu ho huk hk]

theorem top_removed_of_kept {r : Nat} {u : LoadedSstable} (hu : TopHolder tables k u)
    (hkept : u ∉ (inputsOf tables ids).take r)
    (hle : ∀ o ∈ written, o.Holds k → o.metadata.id ≤ u.metadata.id) :
    topVersion (removedCatalog tables ids written r) k = topVersion tables k := by
  have hmem : u ∈ removedCatalog tables ids written r := by
    refine (mem_removedCatalog hc).mpr (Or.inl ?_)
    by_cases hin : u.metadata.id ∈ ids
    · have hi := mem_inputsOf.mpr ⟨hu.mem, hin⟩
      rw [← List.take_append_drop r (inputsOf tables ids)] at hi
      exact Or.inr ((List.mem_append.mp hi).resolve_left hkept)
    · exact Or.inl (mem_outsideOf.mpr ⟨hu.mem, hin⟩)
  have hcut : TopHolder (removedCatalog tables ids written r) k u := by
    refine ⟨hmem, hu.holds, fun w hw hwk => ?_⟩
    rcases (mem_removedCatalog hc).mp hw with (hw | hw) | hw
    · exact hu.top w (mem_outsideOf.mp hw).1 hwk
    · exact hu.top w (mem_inputsOf.mp (List.mem_of_mem_drop hw)).1 hwk
    · exact hle w hw hwk
  rw [topVersion_of_topHolder (removedCatalog_ids hc h r) hcut, topVersion_of_topHolder hc.ids hu]

theorem top_removed_of_gone {r : Nat} {u : LoadedSstable} (hu : TopHolder tables k u)
    (hgone : u ∈ (inputsOf tables ids).take r) (hno : ∀ o ∈ written, ¬ o.Holds k) :
    topVersion (removedCatalog tables ids written r) k = topVersion (outsideOf tables ids) k := by
  refine topVersion_congr (removedCatalog_ids hc h r) (hc.ids.filter _) fun t hk => ?_
  rw [mem_removedCatalog hc]
  refine ⟨?_, fun ht => Or.inl (Or.inl ht)⟩
  rintro ((ht | ht) | ht)
  · exact ht
  · have hsorted : (inputsOf tables ids).Pairwise fun a b => a.metadata.id < b.metadata.id :=
      hc.ids.filter _
    rw [← List.take_append_drop r (inputsOf tables ids)] at hsorted
    have hlt := (List.pairwise_append.mp hsorted).2.2 u hgone t ht
    have hle := hu.top t (mem_inputsOf.mp (List.mem_of_mem_drop ht)).1 hk
    omega
  · exact absurd hk (hno t ht)

theorem top_removed_of_none {r : Nat} (hno : ∀ t ∈ tables, ¬ t.Holds k) :
    topVersion (removedCatalog tables ids written r) k = topVersion tables k := by
  rw [topVersion_eq_none_of_not_holds hno, topVersion_eq_none_of_not_holds]
  rintro t ht ⟨v, hv, hk⟩
  obtain ⟨u, hu, hvu⟩ := mem_tableVersions.mp
    (removedCatalog_versions hc h (mem_tableVersions.mpr ⟨t, ht, hv⟩))
  exact hno u hu ⟨v, hvu, hk⟩

omit h in
theorem newest_replayed_of_some {cut : List LoadedSstable}
    (hwf : ∀ t ∈ cut, t.WellFormed) (hsub : ∀ v ∈ tableVersions cut, v ∈ tableVersions tables)
    (hco : Coherent (walVersions segs)) {w : Version}
    (hw : newest (replayedVersions segs tables) k = some w) :
    newest (replayedVersions segs cut) k = some w := by
  have hle : sstableMaxSeq cut ≤ sstableMaxSeq tables :=
    sstableMaxSeq_le hwf fun v hv => seq_le_sstableMaxSeq hc.tables (hsub v hv)
  have hcoh : ∀ ts : List LoadedSstable, Coherent (replayedVersions segs ts) := fun ts =>
    hco.sublist fun v hv => (List.mem_filter.mp hv).1
  have hmem : ∀ {ts : List LoadedSstable} {v : Version}, v ∈ replayedVersions segs ts ↔
      v ∈ walVersions segs ∧ sstableMaxSeq ts < v.seq := by
    intro ts v
    simp [replayedVersions]
  obtain ⟨hwm, hwk, hmax⟩ := (newest_eq_some (hcoh tables)).mp hw
  obtain ⟨hww, hws⟩ := hmem.mp hwm
  refine (newest_eq_some (hcoh cut)).mpr ⟨hmem.mpr ⟨hww, by omega⟩, hwk, fun v hv hvk => ?_⟩
  by_cases hvs : sstableMaxSeq tables < v.seq
  · exact hmax v (hmem.mpr ⟨(hmem.mp hv).1, hvs⟩) hvk
  · omega

end Cuts

end ZydecoDb
