import ZydecoDb.CompactionJobs

namespace ZydecoDb

open Lib

def Dead (v : Option Version) (nowMs : Nat) : Prop := ∀ w ∈ v, w.entry.isLive nowMs = false

theorem dead_iff_outcome {v : Option Version} {nowMs : Nat} :
    Dead v nowMs ↔ ∀ t, nowMs ≤ t → outcome v t = none := by
  constructor
  · intro h t ht
    rw [outcome_eq_none]
    exact fun w hw => Entry.isLive_antitone ht (h w hw)
  · exact fun h => outcome_eq_none.mp (h nowMs le_rfl)

theorem dead_or {a b : Option Version} {nowMs : Nat} :
    Dead (a.or b) nowMs ↔ Dead a nowMs ∧ (a = none → Dead b nowMs) := by
  cases a with
  | none => simp [Dead]
  | some v => simp

theorem ReadView.absent_iff {view : ReadView} (h : view.Layered) {k : Bytes} {nowMs : Nat} :
    (∀ t, nowMs ≤ t → view.getWithSeq k u64Max t = none ∧ view.ScanAbsent k t) ↔
      Dead ((newest view.memSources.flatten k).or (topVersion view.sstables k)) nowMs ∧
        Dead ((newest view.memSources.flatten k).or (newest (tableVersions view.sstables) k))
          nowMs := by
  rw [dead_iff_outcome, dead_iff_outcome, ← forall₂_and]
  refine forall₂_congr fun t _ => ?_
  rw [scanAbsent_iff h.tables h.coherent, getWithSeq, firstVisible_layers h, newestAt_layers h]

namespace EngineState

variable {st st' : EngineState} {cfg : CompactionConfig}

/-- Nothing live stands behind an expired newest version: not among the tables the job leaves, by
age and by id, and not right behind the tombstones it drops. -/
structure NothingBehind (cfg : CompactionConfig) (st : EngineState)
    (plan : CompactionJob × List SstableMeta) (nowMs : Nat) (k : Bytes) : Prop where
  outside : Dead (newest (tableVersions (st.outsideTables (plan.2.map SstableMeta.id))) k) nowMs
  kept : Dead (firstKept cfg st plan nowMs k) nowMs
  top : (∀ w ∈ firstKept cfg st plan nowMs k, w.entry.isTombstone = false) →
    Dead (topVersion (st.outsideTables (plan.2.map SstableMeta.id)) k) nowMs

theorem JobResult.dead_top {nowMs : Nat} {plan : CompactionJob × List SstableMeta}
    {written : List LoadedSstable} (h : JobResult cfg st nowMs plan written) (hi : st.Inv)
    (k : Bytes) :
    Dead (topVersion (st.outsideTables (plan.2.map SstableMeta.id) ++ written) k) nowMs ↔
      Dead (firstKept cfg st plan nowMs k) nowMs ∧
        ((∀ w ∈ firstKept cfg st plan nowMs k, w.entry.isTombstone = false) →
          Dead (topVersion (st.outsideTables (plan.2.map SstableMeta.id)) k) nowMs) := by
  rw [topVersion_append, dead_or, h.top_written hi, h.newest_written hi]
  cases firstKept cfg st plan nowMs k with
  | none => simp [Dead]
  | some w =>
    by_cases he : (gcPolicy cfg st plan.1 nowMs).expires w = true
    · have hw : w.entry.isTombstone = false ∧ w.entry.isLive nowMs = false := by
        simp only [GcPolicy.expires, gcPolicy, Bool.and_eq_true, Bool.not_eq_true'] at he
        simp [Entry.isLive, he.1, he.2]
      simp [Option.filter, he, hw.1, hw.2, Dead]
    · have hw : w.entry.isLive nowMs = false → w.entry.isTombstone = true := by
        intro hl
        simp only [GcPolicy.expires, gcPolicy] at he
        simp only [Entry.isLive] at hl
        cases ht : w.entry.isTombstone <;> simp_all
      simp only [Option.filter, he, Bool.not_false, ite_true, Dead, Option.mem_some_iff,
        forall_eq', reduceCtorEq, false_imp_iff, and_true]
      exact ⟨fun hl => ⟨hl, fun ht => absurd (hw hl) (by simp [ht])⟩, fun hl => hl.1⟩

/-- An expired newest version stays absent exactly when what lies outside the job is dead. -/
theorem JobResult.dead_newest {nowMs : Nat} {plan : CompactionJob × List SstableMeta}
    {written : List LoadedSstable} (h : JobResult cfg st nowMs plan written) (hi : st.Inv)
    {k : Bytes} {v : Version} (hv : newest (tableVersions st.sstables) k = some v)
    (hval : v.entry.isTombstone = false) (hexp : v.entry.isExpired nowMs = true) :
    Dead (newest (tableVersions (st.outsideTables (plan.2.map SstableMeta.id) ++ written)) k)
        nowMs ↔
      Dead (newest (tableVersions (st.outsideTables (plan.2.map SstableMeta.id))) k) nowMs := by
  set ids := plan.2.map SstableMeta.id
  set outside := tableVersions (st.outsideTables ids)
  have hco : Coherent (tableVersions st.sstables) := hi.coherent.sublist fun w hw =>
    ReadView.mem_versions_layers.mpr (Or.inr hw)
  have hout : ∀ w ∈ outside, w ∈ tableVersions st.sstables := by
    intro w hw
    obtain ⟨t, ht, hwt⟩ := mem_tableVersions.mp hw
    exact mem_tableVersions.mpr ⟨t, (List.mem_filter.mp ht).1, hwt⟩
  have hin : ∀ w ∈ tableVersions (st.inputTables ids), w ∈ tableVersions st.sstables := by
    intro w hw
    obtain ⟨t, ht, hwt⟩ := mem_tableVersions.mp hw
    exact mem_tableVersions.mpr ⟨t, (List.mem_filter.mp ht).1, hwt⟩
  have hsub : ∀ w ∈ outside ++ tableVersions written, w ∈ tableVersions st.sstables := by
    intro w hw
    rcases List.mem_append.mp hw with hw | hw
    · exact hout w hw
    · exact hin w (h.written_subset w hw)
  obtain ⟨hvm, hvk, hmax⟩ := (newest_eq_some hco).mp hv
  have hdead : Dead (some v) nowMs := by simp [Dead, Entry.isLive, hexp]
  rw [show tableVersions (st.outsideTables ids ++ written) = outside ++ tableVersions written from
    List.flatMap_append]
  by_cases hvo : v ∈ outside
  · have h1 : newest (outside ++ tableVersions written) k = some v :=
      (newest_eq_some (hco.sublist hsub)).mpr
        ⟨List.mem_append_left _ hvo, hvk, fun w hw => hmax w (hsub w hw)⟩
    have h2 : newest outside k = some v :=
      (newest_eq_some (hco.sublist hout)).mpr ⟨hvo, hvk, fun w hw => hmax w (hout w hw)⟩
    rw [h1, h2]
  · have hvi : v ∈ tableVersions (st.inputTables ids) := by
      obtain ⟨t, ht, hvt⟩ := mem_tableVersions.mp hvm
      by_cases hid : t.metadata.id ∈ ids
      · exact mem_tableVersions.mpr ⟨t, mem_inputTables.mpr ⟨ht, hid⟩, hvt⟩
      · exact absurd (mem_tableVersions.mpr
          ⟨t, List.mem_filter.mpr ⟨ht, decide_eq_true hid⟩, hvt⟩) hvo
    have hkept : firstKept cfg st plan nowMs k = some v := by
      have hnd : (gcPolicy cfg st plan.1 nowMs).dropsTombstone v = false :=
        GcPolicy.dropsTombstone_eq_false hval
      refine (newest_eq_some ((coherent_inputs hi _).sublist fun w hw =>
        (List.mem_filter.mp hw).1)).mpr ⟨List.mem_filter.mpr ⟨hvi, by simp [hnd]⟩, hvk, ?_⟩
      exact fun w hw => hmax w (hin w (List.mem_filter.mp hw).1)
    have hnone : newest (tableVersions written) k = none := by
      rw [h.newest_written hi, hkept]
      simp [Option.filter, GcPolicy.expires, gcPolicy, hval, hexp]
    have hcong : newest (outside ++ tableVersions written) k = newest outside k := by
      refine newest_congr (hco.sublist hsub) fun w hk => ?_
      rw [List.mem_append]
      exact or_iff_left fun hw => newest_eq_none.mp hnone w hw hk
    rw [hcong]

end EngineState

/-- A key whose newest version has expired stays absent after a compaction exactly when a memtable
holds it or nothing live stands behind that version. -/
theorem expired_stays_absent_iff (cfg : CompactionConfig) (st st' : EngineState)
    (plan : CompactionJob × List SstableMeta) (nowMs : Nat) (blooms : List (Bytes → Bool))
    (k : Bytes) (v : Version) (hi : st.Inv) (hp : planCompactionJob st.metas cfg = some plan)
    (hr : runFrom (EngineState.step cfg) st (jobActions nowMs blooms) = some st')
    (hv : newestAt st.view.versions k u64Max = some v) (hval : v.entry.isTombstone = false)
    (hexp : v.entry.isExpired nowMs = true) :
    (∀ t, nowMs ≤ t → st'.view.getWithSeq k u64Max t = none ∧ st'.view.ScanAbsent k t) ↔
      (∃ m ∈ st.memEntries, ∃ w ∈ m, w.userKey = k) ∨
        EngineState.NothingBehind cfg st plan nowMs k := by
  have hi' : st'.Inv := runFrom_invariant (P := EngineState.Inv)
    (fun _ _ _ h _ hs => EngineState.inv_step h hs) hi (meetsAlong_true _ _) hr
  obtain ⟨plan', written, hjob, rfl⟩ := EngineState.jobActions_cases hi hr
  cases hp.symm.trans hjob.planned
  have hlay := hi'.layered
  rw [ReadView.newestAt_layers hi.layered] at hv
  rw [ReadView.absent_iff hlay]
  change Dead ((newest st.view.memSources.flatten k).or
      (topVersion (st.outsideTables (plan.2.map SstableMeta.id) ++ written) k)) nowMs ∧
    Dead ((newest st.view.memSources.flatten k).or
      (newest (tableVersions (st.outsideTables (plan.2.map SstableMeta.id) ++ written)) k)) nowMs ↔ _
  cases hm : newest st.view.memSources.flatten k with
  | some w =>
    rw [hm] at hv
    cases Option.some.inj hv
    have hdead : Dead (some v) nowMs := by simp [Dead, Entry.isLive, hexp]
    obtain ⟨m, hmem, hvm⟩ := List.mem_flatten.mp (newest_mem hm).1
    exact iff_of_true ⟨hdead, hdead⟩ (Or.inl ⟨m, hmem, v, hvm, (newest_mem hm).2⟩)
  | none =>
    have hnone : ¬ ∃ m ∈ st.memEntries, ∃ w ∈ m, w.userKey = k := by
      rintro ⟨m, hmem, w, hw, hk⟩
      exact newest_eq_none.mp hm w (List.mem_flatten.mpr ⟨m, hmem, hw⟩) hk
    rw [hm] at hv
    rw [Option.none_or, Option.none_or, hjob.dead_top hi, hjob.dead_newest hi hv hval hexp,
      or_iff_right hnone]
    constructor
    · rintro ⟨⟨h1, h2⟩, h3⟩
      exact ⟨h3, h1, h2⟩
    · rintro ⟨h3, h1, h2⟩
      exact ⟨⟨h1, h2⟩, h3⟩

def expiringOverwrite : List EngineAction :=
  .put [1, 7] [10] 0 :: flushActions ++ .put [1, 7] [12] 5 :: flushActions

/-- The expired value and the one it had overwritten go into one job, which drops both. -/
theorem expired_stays_absent_iff_overwrite :
    ∃ st st' plan, runFrom (EngineState.step (.trigger 2)) .init expiringOverwrite = some st ∧
      planCompactionJob st.metas (.trigger 2) = some plan ∧
      runFrom (EngineState.step (.trigger 2)) st (jobActions 9 []) = some st' ∧
      ∀ t, 9 ≤ t → st'.view.getWithSeq [1, 7] u64Max t = none ∧ st'.view.ScanAbsent [1, 7] t := by
  refine ⟨_, _, _, rfl, rfl, rfl, ?_⟩
  refine (expired_stays_absent_iff (.trigger 2) _ _ _ 9 [] [1, 7]
    ⟨[1, 7], 2, .value [12] (some 5)⟩ (EngineState.inv_of_run (.trigger 2) expiringOverwrite rfl) rfl rfl
    (by decide +kernel) rfl rfl).mpr (Or.inr ⟨?_, ?_, fun _ => ?_⟩)
  all_goals simp only [Dead]; decide +kernel

/-- The old value has reached L2. Its overwrite expires in L0, and the job from L0 to L1 drops it
without seeing L2: the key reads the old value again, by get and by scan. -/
theorem expired_value_uncovers_deeper :
    ∃ st st', runFrom (EngineState.step
        { CompactionConfig.trigger 1 with l1TargetBytes := 100 }) .init
        (.put [1, 7] [10] 0 :: flushActions ++ compactActions 0 ++ compactActions 0 ++
          .put [1, 7] [12] 5 :: flushActions) = some st ∧
      newestAt st.view.versions [1, 7] u64Max = some ⟨[1, 7], 2, .value [12] (some 5)⟩ ∧
      st.view.get [1, 7] 9 = .ok none ∧
      runFrom (EngineState.step
        { CompactionConfig.trigger 1 with l1TargetBytes := 100 }) st
        (jobActions 9 []) = some st' ∧
      st'.view.get [1, 7] 9 = .ok (some [10]) ∧
      st'.view.scan u64Max [1, 7] [1, 8] 9 = some [([1, 7], [10])] := by
  refine ⟨_, _, rfl, by decide +kernel, by decide +kernel, rfl, by decide +kernel,
    by decide +kernel⟩

end ZydecoDb
