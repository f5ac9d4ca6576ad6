import ZydecoDb.CompactionRecovery
import ZydecoDb.TableOrder

namespace ZydecoDb

open Lib EngineState

/-- A catalog answers for a set of flushed versions: the walk meets the newest one first, or the
newest one is dead at the clock and so is whatever the catalog still holds of its key. -/
structure Answers (clock : Nat) (tables : List LoadedSstable) (flushed : List Version) : Prop where
  subset : ∀ v ∈ tableVersions tables, v ∈ flushed
  top : ∀ k v, newest flushed k = some v → topVersion tables k = some v ∨
    v.entry.isLive clock = false ∧
      ∀ w ∈ tableVersions tables, w.userKey = k → w.entry.isLive clock = false

variable {tables : List LoadedSstable} {flushed : List Version}

theorem Answers.mono {clock clock' : Nat} (h : Answers clock tables flushed) (hle : clock ≤ clock') :
    Answers clock' tables flushed where
  subset := h.subset
  top k v hv := by
    refine (h.top k v hv).imp_right fun hd => ⟨Entry.isLive_antitone hle hd.1, fun w hw hk => ?_⟩
    exact Entry.isLive_antitone hle (hd.2 w hw hk)

theorem Answers.congr {clock : Nat} {flushed flushed' : List Version}
    (h : Answers clock tables flushed) (hc : Coherent flushed')
    (hm : ∀ v, v ∈ flushed' ↔ v ∈ flushed) : Answers clock tables flushed' where
  subset v hv := (hm v).mpr (h.subset v hv)
  top k v hv := by
    have hcong : newest flushed' k = newest flushed k := newest_congr hc fun v _ => hm v
    exact h.top k v (hcong ▸ hv)

theorem Answers.reads {clock : Nat} (h : Answers clock tables flushed) (hc : Coherent flushed)
    (k : Bytes) :
    SameFrom clock (topVersion tables k) (newest flushed k) ∧
      SameFrom clock (newest (tableVersions tables) k) (newest flushed k) := by
  cases hv : newest flushed k with
  | none =>
    have hno : ∀ w ∈ tableVersions tables, w.userKey ≠ k := fun w hw =>
      newest_eq_none.mp hv w (h.subset w hw)
    have htop : topVersion tables k = none := topVersion_eq_none.mpr hno
    have hnew : newest (tableVersions tables) k = none := newest_eq_none.mpr hno
    rw [htop, hnew]
    exact ⟨SameFrom.refl _ _, SameFrom.refl _ _⟩
  | some v =>
    obtain ⟨-, hvk, hmax⟩ := (newest_eq_some hc).mp hv
    rcases h.top k v hv with htop | ⟨hd, hall⟩
    · have hnew : newest (tableVersions tables) k = some v :=
        (newest_eq_some (hc.sublist h.subset)).mpr
          ⟨(topVersion_mem htop).1, hvk, fun w hw => hmax w (h.subset w hw)⟩
      rw [htop, hnew]
      exact ⟨SameFrom.refl _ _, SameFrom.refl _ _⟩
    · rw [sameFrom_dead_iff hd, sameFrom_dead_iff hd]
      refine ⟨fun w hw => ?_, fun w hw => ?_⟩
      · have hwm := topVersion_mem hw
        exact hall w hwm.1 hwm.2
      · have hwm := newest_mem hw
        exact hall w hwm.1 hwm.2

theorem mem_publishFlush_versions {t : LoadedSstable} {live : List LoadedSstable} {v : Version} :
    v ∈ tableVersions (publishCatalog [] [t] live) ↔
      v ∈ tableVersions live ∨ v ∈ t.reader.entries := by
  simp only [mem_tableVersions, publishFlush_mem]
  constructor
  · rintro ⟨u, hu | rfl, hv⟩
    · exact Or.inl ⟨u, hu, hv⟩
    · exact Or.inr hv
  · rintro (⟨u, hu, hv⟩ | hv)
    · exact ⟨u, Or.inl hu, hv⟩
    · exact ⟨t, Or.inr rfl, hv⟩

theorem Answers.flush {clock : Nat} {t : LoadedSstable} (h : Answers clock tables flushed)
    (hids : tables.Pairwise fun a b => a.metadata.id < b.metadata.id)
    (hfresh : ∀ u ∈ tables, u.metadata.id ≠ t.metadata.id)
    (hc : Coherent (flushed ++ t.reader.entries))
    (hnew : ∀ v ∈ t.reader.entries, ∀ w ∈ flushed, w.seq < v.seq)
    (horder : IdOrdered (tables ++ [t])) :
    Answers clock (publishCatalog [] [t] tables) (flushed ++ t.reader.entries) := by
  have hids' : (publishCatalog [] [t] tables).Pairwise
      fun a b => a.metadata.id < b.metadata.id := by
    refine publishCatalog_ids ?_
    rw [List.map_append, List.nodup_append]
    refine ⟨List.pairwise_map.mpr (hids.imp fun hlt => hlt.ne), by simp, ?_⟩
    intro a ha b hb
    obtain ⟨u, hu, rfl⟩ := List.mem_map.mp ha
    cases List.mem_singleton.mp hb
    exact hfresh u hu
  refine ⟨fun v hv => ?_, fun k v hv => ?_⟩
  · rcases mem_publishFlush_versions.mp hv with hv | hv
    · exact List.mem_append_left _ (h.subset v hv)
    · exact List.mem_append_right _ hv
  · obtain ⟨hvm, hvk, hmax⟩ := (newest_eq_some hc).mp hv
    by_cases hk : t.Holds k
    · -- no table above the flushed one has the key, for it would be newer still
      obtain ⟨x, hx, hxk⟩ := hk
      have hvt : v ∈ t.reader.entries := by
        rcases List.mem_append.mp hvm with hvf | hvt
        · have hlt := hnew x hx v hvf
          have hle := hmax x (List.mem_append_right _ hx) hxk
          omega
        · exact hvt
      have htop : TopHolder (publishCatalog [] [t] tables) k t := by
        refine ⟨publishFlush_mem.mpr (Or.inr rfl), ⟨x, hx, hxk⟩, fun u hu huk => not_lt.mp fun hlt => ?_⟩
        rcases publishFlush_mem.mp hu with hu | rfl
        · obtain ⟨y, hy, hyk⟩ := huk
          have h1 := horder t (by simp) u (by simp [hu]) hlt y hy x hx (hyk.trans hxk.symm)
          have h2 := hnew x hx y (h.subset y (mem_tableVersions.mpr ⟨u, hu, hy⟩))
          omega
        · exact lt_irrefl _ hlt
      refine Or.inl ?_
      rw [topVersion_of_topHolder hids' htop]
      exact (newest_eq_some (hc.sublist fun w => List.mem_append_right _)).mpr
        ⟨hvt, hvk, fun w hw => hmax w (List.mem_append_right _ hw)⟩
    · have hnewest : newest flushed k = some v := by
        refine (newest_eq_some (hc.sublist fun w => List.mem_append_left _)).mpr
          ⟨(List.mem_append.mp hvm).resolve_right fun hvt => hk ⟨v, hvt, hvk⟩, hvk,
            fun w hw => hmax w (List.mem_append_left _ hw)⟩
      have htop : topVersion (publishCatalog [] [t] tables) k = topVersion tables k := by
        refine topVersion_congr hids' hids fun u huk => ?_
        rw [publishFlush_mem]
        exact or_iff_left fun he => hk (he ▸ huk)
      rw [htop]
      refine (h.top k v hnewest).imp_right fun hd => ⟨hd.1, fun w hw hwk => ?_⟩
      rcases mem_publishFlush_versions.mp hw with hw | hw
      · exact hd.2 w hw hwk
      · exact absurd ⟨w, hw, hwk⟩ hk

def KeepsNewest (clock : Nat) (tables : List LoadedSstable) (left : List Version) : Prop :=
  ∀ v ∈ tableVersions tables, newest (tableVersions tables) v.userKey = some v → v ∈ left ∨
    ∀ w ∈ tableVersions tables, w.userKey = v.userKey → w.entry.isLive clock = false

def KeepsMaxSeq (tables : List LoadedSstable) (left : List Version) : Prop :=
  ∃ v ∈ left, v.seq = sstableMaxSeq tables

instance (clock : Nat) (tables : List LoadedSstable) (left : List Version) :
    Decidable (KeepsNewest clock tables left) :=
  inferInstanceAs (Decidable (∀ v ∈ tableVersions tables, _ → _ ∨ ∀ w ∈ tableVersions tables, _))

instance (tables : List LoadedSstable) (left : List Version) : Decidable (KeepsMaxSeq tables left) :=
  inferInstanceAs (Decidable (∃ v ∈ left, _))

section Cut

variable {clock : Nat} {p : GcPolicy} {tables written : List LoadedSstable} {ids : List Nat}
  {flushed : List Version}

theorem IdOrdered.unique (h : IdOrdered tables)
    (hids : tables.Pairwise fun a b => a.metadata.id < b.metadata.id) {t u : LoadedSstable}
    (ht : t ∈ tables) (hu : u ∈ tables) {v : Version} (hvt : v ∈ t.reader.entries)
    (hvu : v ∈ u.reader.entries) : t = u := by
  have hnd : (tables.map fun t => t.metadata.id).Nodup :=
    List.pairwise_map.mpr (hids.imp fun hlt => hlt.ne)
  rcases lt_trichotomy t.metadata.id u.metadata.id with hlt | he | hlt
  · exact absurd (h t ht u hu hlt v hvu v hvt rfl) (lt_irrefl _)
  · exact List.inj_on_of_nodup_map hnd ht hu he
  · exact absurd (h u hu t ht hlt v hvt v hvu rfl) (lt_irrefl _)

/-- A version that is read and kept is read behind every prefix of the apply. -/
theorem top_cut (hc : Catalog tables) (hr : CompactionResult p tables ids written)
    (hco : Coherent (tableVersions tables)) (hord : IdOrdered tables)
    (hout : IdOrdered (outsideOf tables ids ++ written)) {k : Bytes} {v : Version}
    (htop : topVersion tables k = some v) (hnew : newest (tableVersions tables) k = some v)
    (hleft : v ∈ tableVersions (outsideOf tables ids) ++ tableVersions written) (j : Nat) :
    topVersion (cutCatalog tables ids written j) k = some v := by
  obtain ⟨hvm, hvk, hmax⟩ := (newest_eq_some hco).mp hnew
  have hmaxTable : ∀ {t}, t ∈ tables → ∀ w ∈ t.reader.entries, w.userKey = k → w.seq ≤ v.seq :=
    fun ht w hw => hmax w (mem_tableVersions.mpr ⟨_, ht, hw⟩)
  have hmaxWritten : ∀ {o}, o ∈ written → ∀ w ∈ o.reader.entries, w.userKey = k → w.seq ≤ v.seq :=
    fun ho w hw => hmax w (hr.written_versions (mem_tableVersions.mpr ⟨_, ho, hw⟩))
  rcases List.mem_append.mp hleft with hleft | hleft
  · -- in a table the job leaves alone, which no output with the key can be above
    obtain ⟨u, hu, hvu⟩ := mem_tableVersions.mp hleft
    have hut := (mem_outsideOf.mp hu).1
    obtain ⟨u', hu'⟩ := exists_topHolder hut ⟨v, hvu, hvk⟩
    have hvu' : v ∈ u'.reader.entries := by
      rw [topVersion_of_topHolder hc.ids hu'] at htop
      exact (newest_mem htop).1
    cases hord.unique hc.ids hut hu'.mem hvu hvu'
    have hbelow : ∀ o ∈ written, o.Holds k → o.metadata.id ≤ u.metadata.id := by
      rintro o ho ⟨w, hw, hwk⟩
      refine not_lt.mp fun hlt => ?_
      have hgt := hout u (List.mem_append_left _ hu) o (List.mem_append_right _ ho) hlt w hw v hvu
        (hwk.trans hvk.symm)
      have hle := hmaxWritten ho w hw hwk
      omega
    unfold cutCatalog
    split
    next =>
      rw [top_added_of_not_above hc hr, htop]
      exact fun o ho hok => ⟨u, hut, ⟨v, hvu, hvk⟩, hbelow o (List.mem_of_mem_take ho) hok⟩
    next =>
      rw [top_removed_of_kept hc hr hu' (fun hin => ?_) hbelow, htop]
      exact (mem_outsideOf.mp hu).2 (mem_inputsOf.mp (List.mem_of_mem_take hin)).2
  · -- in an output, which is above every table with the key
    obtain ⟨o, ho, hvo⟩ := mem_tableVersions.mp hleft
    have habove : ∀ t ∈ tables, t.Holds k → t.metadata.id < o.metadata.id := by
      rintro t ht ⟨w, hw, hwk⟩
      by_cases hin : t.metadata.id ∈ ids
      · exact hr.above o ho t (mem_inputsOf.mpr ⟨ht, hin⟩)
      · refine lt_of_le_of_ne (not_lt.mp fun hlt => ?_) (hr.fresh o ho t ht)
        have hgt := hout o (List.mem_append_right _ ho) t
          (List.mem_append_left _ (mem_outsideOf.mpr ⟨ht, hin⟩)) hlt w hw v hvo (hwk.trans hvk.symm)
        have hle := hmaxTable ht w hw hwk
        omega
    have hsub : ∀ w ∈ o.reader.entries, w ∈ tableVersions tables := fun w hw =>
      hr.written_versions (mem_tableVersions.mpr ⟨o, ho, hw⟩)
    have hnewo : newest o.reader.entries k = some v :=
      (newest_eq_some (hco.sublist hsub)).mpr ⟨hvo, hvk, fun w hw => hmaxWritten ho w hw⟩
    unfold cutCatalog
    split
    next =>
      by_cases hoj : o ∈ written.take j
      · rw [top_added_of_above hc hr hoj ⟨v, hvo, hvk⟩ habove, hnewo]
      · rw [top_added_of_not_above hc hr, htop]
        intro o' ho' hok'
        have he := hr.written_unique hc (List.mem_of_mem_take ho') ho hok' ⟨v, hvo, hvk⟩
        exact absurd (he ▸ ho') hoj
    next => rw [top_removed_of_above hc hr ho ⟨v, hvo, hvk⟩ habove, hnewo]

/-- Every prefix of the apply answers as the flushed versions do. -/
theorem Answers.cut (h : Answers clock tables flushed) (hc : Catalog tables)
    (hr : CompactionResult p tables ids written) (hco : Coherent flushed) (hord : IdOrdered tables)
    (hout : IdOrdered (outsideOf tables ids ++ written))
    (hkeep : KeepsNewest clock tables
      (tableVersions (outsideOf tables ids) ++ tableVersions written)) (j : Nat) :
    Answers clock (cutCatalog tables ids written j) flushed := by
  have hsub := (cutCatalog_spec hc hr j).2.1
  have hcot : Coherent (tableVersions tables) := hco.sublist h.subset
  refine ⟨fun v hv => h.subset v (hsub v hv), fun k v hv => ?_⟩
  obtain ⟨-, hvk, hmax⟩ := (newest_eq_some hco).mp hv
  rcases h.top k v hv with htop | ⟨hd, hall⟩
  · have hvm := (topVersion_mem htop).1
    have hnew : newest (tableVersions tables) k = some v :=
      (newest_eq_some hcot).mpr ⟨hvm, hvk, fun w hw => hmax w (h.subset w hw)⟩
    rcases hkeep v hvm (hvk ▸ hnew) with hleft | hdead
    · exact Or.inl (top_cut hc hr hcot hord hout htop hnew hleft j)
    · exact Or.inr ⟨hdead v hvm rfl, fun w hw hwk => hdead w (hsub w hw) (hwk.trans hvk.symm)⟩
  · exact Or.inr ⟨hd, fun w hw => hall w (hsub w hw)⟩

theorem sstableMaxSeq_cut (hc : Catalog tables) (hr : CompactionResult p tables ids written)
    (hkeep : KeepsMaxSeq tables (tableVersions (outsideOf tables ids) ++ tableVersions written))
    (j : Nat) : sstableMaxSeq (cutCatalog tables ids written j) = sstableMaxSeq tables := by
  have hspec := cutCatalog_spec hc hr j
  apply le_antisymm
  · exact sstableMaxSeq_le hspec.1.tables fun v hv => seq_le_sstableMaxSeq hc.tables (hspec.2.1 v hv)
  · obtain ⟨v, hv, hvs⟩ := hkeep
    unfold cutCatalog
    split
    next => rw [sstableMaxSeq_added hc hr]
    next =>
      rw [← hvs]
      refine seq_le_sstableMaxSeq (removedCatalog_wellFormed hc hr) ?_
      rcases List.mem_append.mp hv with hv | hv
      · obtain ⟨t, ht, hvt⟩ := mem_tableVersions.mp hv
        exact mem_tableVersions.mpr ⟨t, (mem_removedCatalog hc).mpr (Or.inl (Or.inl ht)), hvt⟩
      · obtain ⟨t, ht, hvt⟩ := mem_tableVersions.mp hv
        exact mem_tableVersions.mpr ⟨t, (mem_removedCatalog hc).mpr (Or.inr ht), hvt⟩

end Cut

end ZydecoDb
