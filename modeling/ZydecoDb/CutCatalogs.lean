import ZydecoDb.OpenReads
import ZydecoDb.Expiry

namespace ZydecoDb

open Lib

def LoadedSstable.Holds (t : LoadedSstable) (k : Bytes) : Prop :=
  ∃ v ∈ t.reader.entries, v.userKey = k

structure TopHolder (tables : List LoadedSstable) (k : Bytes) (t : LoadedSstable) : Prop where
  mem : t ∈ tables
  holds : t.Holds k
  top : ∀ u ∈ tables, u.Holds k → u.metadata.id ≤ t.metadata.id

theorem exists_topHolder {tables : List LoadedSstable} {k : Bytes} {t : LoadedSstable}
    (ht : t ∈ tables) (hk : t.Holds k) : ∃ u, TopHolder tables k u := by
  classical
  induction tables generalizing t with
  | nil => simp at ht
  | cons a rest ih =>
    by_cases hrest : ∃ t' ∈ rest, t'.Holds k
    · obtain ⟨t', ht', hk'⟩ := hrest
      obtain ⟨u, hu⟩ := ih ht' hk'
      by_cases ha : a.Holds k ∧ u.metadata.id < a.metadata.id
      · refine ⟨a, List.mem_cons_self, ha.1, List.forall_mem_cons.mpr ⟨fun _ => le_rfl, ?_⟩⟩
        exact fun w hw hwk => (hu.top w hw hwk).trans ha.2.le
      · refine ⟨u, List.mem_cons_of_mem _ hu.mem, hu.holds,
          List.forall_mem_cons.mpr ⟨fun hak => ?_, hu.top⟩⟩
        exact not_lt.mp fun hlt => ha ⟨hak, hlt⟩
    · rcases List.mem_cons.mp ht with rfl | ht
      · refine ⟨t, List.mem_cons_self, hk, List.forall_mem_cons.mpr ⟨fun _ => le_rfl, ?_⟩⟩
        exact fun w hw hwk => absurd ⟨w, hw, hwk⟩ hrest
      · exact absurd ⟨t, ht, hk⟩ hrest

/-- The walk stops at the holder with the highest id. -/
theorem topVersion_of_topHolder {tables : List LoadedSstable} {k : Bytes} {t : LoadedSstable}
    (hs : tables.Pairwise fun a b => a.metadata.id < b.metadata.id) (h : TopHolder tables k t) :
    topVersion tables k = newest t.reader.entries k := by
  obtain ⟨before, after, rfl⟩ := List.append_of_mem h.mem
  have hafter : topVersion after k = none := by
    rw [topVersion_eq_none]
    intro v hv hk
    obtain ⟨u, hu, hvu⟩ := mem_tableVersions.mp hv
    have hle := h.top u (by simp [hu]) ⟨v, hvu, hk⟩
    have hlt := (List.pairwise_cons.mp (List.pairwise_append.mp hs).2.1).1 u hu
    omega
  have hhead : topVersion [t] k = newest t.reader.entries k := by
    simp only [topVersion, List.reverse_singleton, findSome_cons, List.findSome?_nil, Option.or_none]
  obtain ⟨v, hv, hk⟩ := h.holds
  obtain ⟨w, hw⟩ : ∃ w, newest t.reader.entries k = some w := hk ▸ exists_newest hv
  rw [topVersion_append, ← List.singleton_append, topVersion_append, hafter, hhead, hw]
  rfl

theorem topVersion_eq_none_of_not_holds {tables : List LoadedSstable} {k : Bytes}
    (h : ∀ t ∈ tables, ¬ t.Holds k) : topVersion tables k = none := by
  rw [topVersion_eq_none]
  intro v hv hk
  obtain ⟨t, ht, hvt⟩ := mem_tableVersions.mp hv
  exact h t ht ⟨v, hvt, hk⟩

theorem topVersion_congr {l m : List LoadedSstable} {k : Bytes}
    (hl : l.Pairwise fun a b => a.metadata.id < b.metadata.id)
    (hm : m.Pairwise fun a b => a.metadata.id < b.metadata.id)
    (h : ∀ t : LoadedSstable, t.Holds k → (t ∈ l ↔ t ∈ m)) : topVersion l k = topVersion m k := by
  by_cases hex : ∃ t ∈ l, t.Holds k
  · obtain ⟨t, ht, hk⟩ := hex
    obtain ⟨u, hu⟩ := exists_topHolder ht hk
    have hum : TopHolder m k u :=
      ⟨(h u hu.holds).mp hu.mem, hu.holds, fun w hw hwk => hu.top w ((h w hwk).mpr hw) hwk⟩
    rw [topVersion_of_topHolder hl hu, topVersion_of_topHolder hm hum]
  · rw [topVersion_eq_none_of_not_holds fun t ht hk => hex ⟨t, ht, hk⟩,
      topVersion_eq_none_of_not_holds fun t ht hk => hex ⟨t, (h t hk).mpr ht, hk⟩]

structure Catalog (tables : List LoadedSstable) : Prop where
  ids : tables.Pairwise fun a b => a.metadata.id < b.metadata.id
  tables : ∀ t ∈ tables, t.WellFormed

def inputsOf (tables : List LoadedSstable) (ids : List Nat) : List LoadedSstable :=
  tables.filter fun t => t.metadata.id ∈ ids

def outsideOf (tables : List LoadedSstable) (ids : List Nat) : List LoadedSstable :=
  tables.filter fun t => t.metadata.id ∉ ids

/-- The result of a job over some tables of a catalog: what its merge kept, as tables whose ids are
fresh and above those of its inputs. -/
structure CompactionResult (p : GcPolicy) (tables : List LoadedSstable) (ids : List Nat)
    (written : List LoadedSstable) : Prop where
  runs : ∃ n, written.map (fun t => t.reader.entries) =
    compactionRuns p n ((inputsOf tables ids).map fun t => t.reader.entries)
  wellFormed : ∀ t ∈ written, t.WellFormed
  sorted : written.Pairwise fun a b => a.metadata.id < b.metadata.id
  fresh : ∀ o ∈ written, ∀ t ∈ tables, t.metadata.id ≠ o.metadata.id
  above : ∀ o ∈ written, ∀ t ∈ inputsOf tables ids, t.metadata.id < o.metadata.id

section Result

variable {p : GcPolicy} {tables written : List LoadedSstable} {ids : List Nat}

theorem mem_inputsOf {t : LoadedSstable} :
    t ∈ inputsOf tables ids ↔ t ∈ tables ∧ t.metadata.id ∈ ids := by
  simp [inputsOf]

theorem mem_outsideOf {t : LoadedSstable} :
    t ∈ outsideOf tables ids ↔ t ∈ tables ∧ t.metadata.id ∉ ids := by
  simp [outsideOf]

namespace CompactionResult

variable (h : CompactionResult p tables ids written)

include h

theorem mem_inputs_of_mem_written {o : LoadedSstable} (ho : o ∈ written) {v : Version}
    (hv : v ∈ o.reader.entries) : ∃ t ∈ inputsOf tables ids, v ∈ t.reader.entries := by
  obtain ⟨n, hruns⟩ := h.runs
  have hrun : o.reader.entries ∈ written.map fun t => t.reader.entries := List.mem_map_of_mem ho
  rw [hruns] at hrun
  obtain ⟨src, hsrc, hvs⟩ := mem_of_mem_compactionRuns hrun hv
  obtain ⟨t, ht, rfl⟩ := List.mem_map.mp hsrc
  exact ⟨t, ht, hvs⟩

theorem written_versions {v : Version} (hv : v ∈ tableVersions written) :
    v ∈ tableVersions tables := by
  obtain ⟨o, ho, hvo⟩ := mem_tableVersions.mp hv
  obtain ⟨t, ht, hvt⟩ := h.mem_inputs_of_mem_written ho hvo
  exact mem_tableVersions.mpr ⟨t, (mem_inputsOf.mp ht).1, hvt⟩

theorem written_unique (hc : Catalog tables) {o o' : LoadedSstable} {k : Bytes} (ho : o ∈ written)
    (ho' : o' ∈ written) (hk : o.Holds k) (hk' : o'.Holds k) : o = o' := by
  obtain ⟨n, hruns⟩ := h.runs
  have hbelow : (written.map fun t => t.reader.entries).Pairwise KeysBelow := by
    rw [hruns]
    refine compactionRuns_keysBelow fun src hsrc => ?_
    obtain ⟨t, ht, rfl⟩ := List.mem_map.mp hsrc
    exact (hc.tables t (mem_inputsOf.mp ht).1).sorted
  rw [List.pairwise_map] at hbelow
  obtain ⟨v, hv, hvk⟩ := hk
  obtain ⟨w, hw, hwk⟩ := hk'
  have hne : ∀ {a b : LoadedSstable}, KeysBelow a.reader.entries b.reader.entries →
      (∃ v ∈ a.reader.entries, v.userKey = k) → ¬ ∃ w ∈ b.reader.entries, w.userKey = k := by
    rintro a b hab ⟨x, hx, hxk⟩ ⟨y, hy, hyk⟩
    exact absurd (hab x hx y hy) (by rw [hxk, hyk]; exact lt_irrefl k)
  by_contra hdiff
  obtain ⟨i, hi, rfl⟩ := List.getElem_of_mem ho
  obtain ⟨j, hj, rfl⟩ := List.getElem_of_mem ho'
  rcases lt_trichotomy i j with hij | rfl | hij
  · exact hne (List.pairwise_iff_getElem.mp hbelow i j hi hj hij) ⟨v, hv, hvk⟩ ⟨w, hw, hwk⟩
  · exact hdiff rfl
  · exact hne (List.pairwise_iff_getElem.mp hbelow j i hj hi hij) ⟨w, hw, hwk⟩ ⟨v, hv, hvk⟩

theorem dead_of_dropped (hc : Catalog tables) (hco : Coherent (tableVersions tables)) {k : Bytes}
    {v : Version} (hv : newest (tableVersions tables) k = some v)
    (hout : v ∉ tableVersions (outsideOf tables ids)) (hw : v ∉ tableVersions written) :
    v.entry.isLive p.nowMs = false := by
  obtain ⟨n, hruns⟩ := h.runs
  obtain ⟨hvm, hvk, hmax⟩ := (newest_eq_some hco).mp hv
  have hsub : ∀ w, w ∈ mergeRaw ((inputsOf tables ids).map fun t => t.reader.entries) →
      w ∈ tableVersions tables := by
    intro w hwm
    obtain ⟨src, hsrc, hws⟩ := mem_mergeRaw.mp hwm
    obtain ⟨t, ht, rfl⟩ := List.mem_map.mp hsrc
    exact mem_tableVersions.mpr ⟨t, (mem_inputsOf.mp ht).1, hws⟩
  have hin : v ∈ mergeRaw ((inputsOf tables ids).map fun t => t.reader.entries) := by
    obtain ⟨t, ht, hvt⟩ := mem_tableVersions.mp hvm
    by_cases hid : t.metadata.id ∈ ids
    · exact mem_mergeRaw.mpr ⟨_, List.mem_map_of_mem (mem_inputsOf.mpr ⟨ht, hid⟩), hvt⟩
    · exact absurd (mem_tableVersions.mpr ⟨t, mem_outsideOf.mpr ⟨ht, hid⟩, hvt⟩) hout
  have hnew : newest (mergeRaw ((inputsOf tables ids).map fun t => t.reader.entries)) v.userKey =
      some v :=
    (newest_eq_some (hco.sublist hsub)).mpr ⟨hin, rfl, fun w hw hk => hmax w (hsub w hw) (hk.trans hvk)⟩
  refine not_live_of_lost (n := n) (fun src hsrc => ?_) hnew fun c hcr hvc => hw ?_
  · obtain ⟨t, ht, rfl⟩ := List.mem_map.mp hsrc
    exact (hc.tables t (mem_inputsOf.mp ht).1).sorted
  · rw [← hruns] at hcr
    obtain ⟨o, ho, rfl⟩ := List.mem_map.mp hcr
    exact mem_tableVersions.mpr ⟨o, ho, hvc⟩

end CompactionResult

end Result

end ZydecoDb
