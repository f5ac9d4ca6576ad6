import ZydecoDb.CacheFresh

namespace ZydecoDb

open Lib

namespace CachedEngine

open EngineState

def publishedCatalog (st : EngineState) : List LoadedSstable :=
  match st.compacting with
  | some c => publishCatalog (c.inputMetas.map SstableMeta.id) c.written st.sstables
  | none => st.sstables

/-- What the cache cannot see: writes that do not take their keys out of it (a system delete reads its
key into the cache first), and a job that changes which version of a cached key the walk meets. -/
def CacheSafe (s : CachedEngine) : CachedAction → Prop
  | .writeBatch _ sysPuts => ∀ p ∈ sysPuts, s.cached p.1 = none
  | .sysPut key _ => s.cached key = none
  | .sysDel key nowMs => s.cached key = none ∧
    (¬ s.engine.OutOfMemtables key ∨ outcome (topVersion s.engine.sstables key) nowMs = none)
  | .applySegment seg => ∀ v ∈ seg.pairsAbove (sstableMaxSeq s.engine.sstables),
    s.cached v.userKey = none
  | .maintain .compactionPublish => ∀ v ∈ tableVersions s.engine.sstables,
    s.cached v.userKey ≠ none →
      topVersion (publishedCatalog s.engine) v.userKey = topVersion s.engine.sstables v.userKey
  | _ => True

instance decidableCacheSafe (s : CachedEngine) : (a : CachedAction) → Decidable (s.CacheSafe a)
  | .writeBatch _ sysPuts => inferInstanceAs (Decidable (∀ p ∈ sysPuts, _))
  | .sysPut key _ => inferInstanceAs (Decidable (s.cached key = none))
  | .sysDel _ _ => inferInstanceAs (Decidable (_ ∧ (¬ _ ∨ _)))
  | .applySegment seg => inferInstanceAs (Decidable (∀ v ∈ seg.pairsAbove _, _))
  | .maintain .compactionPublish =>
    inferInstanceAs (Decidable (∀ v ∈ tableVersions s.engine.sstables, _))
  | .maintain (.put _ _ _) | .maintain (.del _) | .maintain (.writeBatch _ _) | .maintain .syncWal
  | .maintain .freeze | .maintain (.flushExecute _) | .maintain .flushPublish
  | .maintain .flushFailed | .maintain (.submitCompaction _) | .maintain (.writeCompactionOutput _)
  | .maintain .compactionFailed | .maintain .snapshotOwned | .maintain (.snapshotDrop _)
  | .put _ _ _ | .del _ _ | .get _ _ | .sysGet _ _ | .snapshotGet _ _ _
  | .snapshotGetWithSeq _ _ _ | .getIncludingExpired _ _ => isTrue trivial

variable {s s' : CachedEngine} {cfg : CompactionConfig}

variable {key : Bytes} {st : EngineState}

theorem Fresh.sysDel (h : s.Fresh) {nowMs : Nat} (hc : s.CacheSafe (.sysDel key nowMs))
    (hs : s.engine.sysDel key = some st) :
    Fresh ⟨st, (s.sysGet key nowMs).2.resultCache⟩ := by
  obtain ⟨ho, hcm⟩ := sysDel_cases hs
  obtain ⟨hnone, hdead⟩ := hc
  refine h.commit ho hcm fun k b hk => ?_
  have hk' : (s.sysGet key nowMs).2.cached k = some b := hk
  have hold : s.cached k = some b := by
    rcases checkedGet_snd validateSystemKey s key nowMs with
      he | he
    · rw [sysGet, he] at hk'
      exact hk'
    · rw [sysGet, he] at hk'
      rcases cached_of_snapshotGetInner hk' with hold | ⟨rfl, hm, v, hv, hres⟩
      · exact hold
      · rw [memVisible_eq_none h.engine] at hm
        rw [tableVisible_eq_topVersion h.engine] at hv
        rcases hdead with hin | hdead
        · exact absurd hm hin
        · rw [hv] at hdead
          have hsame : v.resolve nowMs = v.resolveEntry nowMs false := by
            simp [Version.resolve, Version.resolveEntry]
          rw [outcome, Option.bind_some, hsame, hres] at hdead
          simp at hdead
  refine ⟨hold, ?_⟩
  simp only [List.map_cons, List.map_nil, List.mem_singleton, BatchOp.key]
  rintro rfl
  simp [hnone] at hold

theorem Fresh.applySegment (h : s.Fresh) {seg : SealedSegment}
    (hc : s.CacheSafe (.applySegment seg)) (hs : s.engine.applyInstalledWalSegment seg = some st) :
    Fresh { s with engine := st } := by
  have hi := h.engine.applyInstalledWalSegment hs
  obtain ⟨himm, -, -, active, next, buffered, synced, rfl, hact, -⟩ :=
    applyInstalledWalSegment_cases hs
  refine h.frame hi (fun k b hk => hk) (fun k b hk _ m hm v hv => ?_) fun k b hk _ => rfl
  have hm' : m = active.entries := by simpa [memEntries, himm] using hm
  subst hm'
  rintro rfl
  have hnone := hc v (hact v hv)
  rw [show s.cached v.userKey = some b from hk] at hnone
  simp at hnone

theorem Fresh.flushPublish (h : s.Fresh) (hs : s.engine.flushPublish = some st) :
    Fresh { s with engine := st } := by
  have hi := h.engine.flushPublish hs
  obtain ⟨t, ht, rfl⟩ := Option.map_eq_some_iff.mp hs
  obtain ⟨-, -, mt, hmt, he⟩ := h.engine.flushed t ht
  obtain ⟨rest, himm⟩ : ∃ rest, s.engine.immutable = mt :: rest := List.head?_eq_some_iff.mp hmt
  refine h.frame hi (fun k b hk => hk) (fun k b _ hout m hm => ?_) fun k b _ hout => ?_
  · refine hout m ?_
    simp only [memEntries, himm, List.tail_cons, List.mem_cons, List.mem_map, List.mem_reverse] at hm ⊢
    rcases hm with hm | ⟨mt', hmt', rfl⟩
    · exact Or.inl hm
    · exact Or.inr ⟨mt', Or.inr hmt', rfl⟩
  · -- the new table is the oldest memtable, which does not have the key
    refine topVersion_congr hi.ids h.engine.ids fun u hu => ?_
    rw [mem_publishCatalog]
    simp only [List.not_mem_nil, not_false_eq_true, and_true, List.mem_singleton]
    refine or_iff_left ?_
    rintro rfl
    obtain ⟨v, hv, hk⟩ := hu
    have hin : mt.entries ∈ s.engine.memEntries := by simp [memEntries, himm]
    exact hout _ hin v (he ▸ hv) hk

theorem Fresh.compactionPublish (h : s.Fresh) (hc : s.CacheSafe (.maintain .compactionPublish))
    (hs : s.engine.compactionPublish = some st) :
    Fresh { s with engine := st } := by
  have hi := h.engine.compactionPublish hs
  obtain ⟨job, metas, written, hcomp, rfl⟩ := compactionPublish_cases hs
  refine h.frame hi (fun k b hk => hk) (fun k b _ hout => hout) fun k b hk _ => ?_
  obtain ⟨-, v, hv, -⟩ := h.cached k b hk
  obtain ⟨hvm, rfl⟩ := topVersion_mem hv
  have hcached : s.cached v.userKey ≠ none := by
    rw [show s.cached v.userKey = some b from hk]
    simp
  have hpub := hc v hvm hcached
  rw [publishedCatalog, hcomp] at hpub
  exact hpub

theorem Fresh.maintain (h : s.Fresh) {a : EngineAction} (hc : s.CacheSafe (.maintain a))
    (ha : a.isMaintenance = true) (hs : s.engine.step cfg a = some st) :
    Fresh { s with engine := st } := by
  have hi := inv_step h.engine hs
  cases a with
  | put _ _ _ | del _ | writeBatch _ _ => simp [EngineAction.isMaintenance] at ha
  | syncWal | flushFailed | compactionFailed | snapshotOwned | snapshotDrop seqUpper =>
    cases Option.some.inj hs
    exact h.frame hi (fun k b hk => hk) (fun k b _ hout => hout) fun k b _ _ => rfl
  | freeze =>
    obtain ⟨-, rfl⟩ := freeze_cases hs
    refine h.frame hi (fun k b hk => hk) (fun k b _ hout m hm => ?_) fun k b _ _ => rfl
    simp only [memEntries, List.reverse_append, List.reverse_singleton, List.singleton_append,
      List.map_cons, List.mem_cons] at hm
    rcases hm with rfl | hm
    · simp [Memtable.empty]
    · exact hout m (List.mem_cons.mpr hm)
  | flushExecute bloom =>
    obtain ⟨-, mt, rest, -, -, rfl⟩ := flushExecute_cases hs
    exact h.frame hi (fun k b hk => hk) (fun k b _ hout => hout) fun k b _ _ => rfl
  | flushPublish => exact h.flushPublish hs
  | submitCompaction nowMs =>
    obtain ⟨-, plan, -, rfl⟩ := submitCompaction_cases hs
    exact h.frame hi (fun k b hk => hk) (fun k b _ hout => hout) fun k b _ _ => rfl
  | writeCompactionOutput bloom =>
    obtain ⟨job, metas, run, pending, written, f, -, -, rfl⟩ := writeCompactionOutput_cases hs
    exact h.frame hi (fun k b hk => hk) (fun k b _ hout => hout) fun k b _ _ => rfl
  | compactionPublish => exact h.compactionPublish hc hs

theorem fresh_step {a : CachedAction} (h : s.Fresh) (hc : s.CacheSafe a)
    (hs : s.step cfg a = some s') : s'.Fresh := by
  cases a with
  | put key value expiresAt =>
    obtain ⟨st, hp, rfl⟩ := Option.map_eq_some_iff.mp hs
    obtain ⟨ho, hcm⟩ := put_cases hp
    exact h.commit ho hcm fun k b hk => cached_invalidate hk
  | del key nowMs =>
    obtain ⟨st, hp, rfl⟩ := Option.map_eq_some_iff.mp hs
    obtain ⟨ho, hcm⟩ := del_cases hp
    have hread : (s.get key nowMs).2.Fresh := h.checkedGet
    rw [← checkedGet_engine validateUserKey s key nowMs] at hcm
    exact hread.commit ho hcm fun k b hk => cached_invalidate hk
  | writeBatch ops sysPuts =>
    obtain ⟨st, hp, rfl⟩ := Option.map_eq_some_iff.mp hs
    obtain ⟨ho, hcm⟩ := writeBatch_cases hp
    refine h.commit ho hcm fun k b hk => ?_
    obtain ⟨hk, hops⟩ := cached_invalidate hk
    refine ⟨hk, fun hin => ?_⟩
    rw [List.map_append, List.mem_append, List.map_map] at hin
    rcases hin with hin | hin
    · exact hops hin
    · obtain ⟨p, hp, rfl⟩ := List.mem_map.mp hin
      have hnone := hc p hp
      rw [show s.cached p.1 = some b from hk] at hnone
      simp at hnone
  | sysPut key value =>
    obtain ⟨st, hp, rfl⟩ := Option.map_eq_some_iff.mp hs
    obtain ⟨ho, hcm⟩ := sysPut_cases hp
    refine h.commit ho hcm fun k b hk => ⟨hk, ?_⟩
    simp only [List.map_cons, List.map_nil, List.mem_singleton, BatchOp.key]
    rintro rfl
    have hnone : s.cached k = none := hc
    rw [show s.cached k = some b from hk] at hnone
    simp at hnone
  | sysDel key nowMs =>
    obtain ⟨st, hp, rfl⟩ := Option.map_eq_some_iff.mp hs
    exact h.sysDel hc hp
  | applySegment seg =>
    obtain ⟨st, hp, rfl⟩ := Option.map_eq_some_iff.mp hs
    exact h.applySegment hc hp
  | maintain a =>
    simp only [step] at hs
    split at hs
    next ha =>
      obtain ⟨st, hp, rfl⟩ := Option.map_eq_some_iff.mp hs
      exact h.maintain hc ha hp
    next => simp at hs
  | get key nowMs | sysGet key nowMs =>
    cases Option.some.inj hs
    exact h.checkedGet
  | snapshotGet seqUpper key nowMs | snapshotGetWithSeq seqUpper key nowMs
  | getIncludingExpired key nowMs =>
    cases Option.some.inj hs
    exact h.snapshotGetInner

theorem uncached_snapshotGetInner {seqUpper nowMs : Nat} {useResultCache includeExpired : Bool} :
    (s.uncached.snapshotGetInner seqUpper key useResultCache includeExpired nowMs).2 =
      s.uncached := by
  rcases s.uncached.snapshotGetInner_cases seqUpper key useResultCache includeExpired nowMs with
    ⟨e, -, h⟩ | ⟨-, ⟨v, -, h⟩ | ⟨-, ⟨value, -, h⟩ | ⟨-, h⟩⟩⟩
  all_goals rw [h]
  · rfl
  · rfl

variable {validate : Bytes → Except EngineError Unit}

theorem uncached_checkedGet {nowMs : Nat} :
    (checkedGet validate s.uncached key nowMs).2 = s.uncached := by
  rcases checkedGet_snd validate s.uncached key nowMs with
    he | he
  · exact he
  · rw [he]
    exact uncached_snapshotGetInner

/-- The engine without a cache takes the same steps. -/
theorem step_uncached {a : CachedAction} (h : s.step cfg a = some s') :
    s.uncached.step cfg a = some s'.uncached := by
  cases a with
  | put key value expiresAt | writeBatch ops sysPuts | sysPut key value | applySegment seg =>
    obtain ⟨st, hp, rfl⟩ := Option.map_eq_some_iff.mp h
    exact Option.map_eq_some_iff.mpr ⟨st, hp, rfl⟩
  | del key nowMs =>
    obtain ⟨st, hp, rfl⟩ := Option.map_eq_some_iff.mp h
    refine Option.map_eq_some_iff.mpr ⟨st, hp, ?_⟩
    rw [get, uncached_checkedGet]
    rfl
  | sysDel key nowMs =>
    obtain ⟨st, hp, rfl⟩ := Option.map_eq_some_iff.mp h
    refine Option.map_eq_some_iff.mpr ⟨st, hp, ?_⟩
    rw [sysGet, uncached_checkedGet]
    rfl
  | maintain a =>
    simp only [step] at h ⊢
    split at h
    next ha =>
      obtain ⟨st, hp, rfl⟩ := Option.map_eq_some_iff.mp h
      rw [if_pos ha]
      exact Option.map_eq_some_iff.mpr ⟨st, hp, rfl⟩
    next => simp at h
  | get key nowMs | sysGet key nowMs =>
    cases Option.some.inj h
    refine congrArg some (uncached_checkedGet.trans ?_)
    rw [uncached, uncached]
    exact congrArg (CachedEngine.mk · none) (checkedGet_engine _ _ _ _).symm
  | snapshotGet seqUpper key nowMs | snapshotGetWithSeq seqUpper key nowMs
  | getIncludingExpired key nowMs =>
    cases Option.some.inj h
    refine congrArg some (uncached_snapshotGetInner.trans ?_)
    rw [uncached, uncached]
    exact congrArg (CachedEngine.mk · none) snapshotGetInner_engine.symm

theorem run_uncached {actions : List CachedAction}
    (h : runFrom (CachedEngine.step cfg) s actions = some s') :
    runFrom (CachedEngine.step cfg) s.uncached actions = some s'.uncached := by
  induction actions generalizing s with
  | nil =>
    cases Option.some.inj h
    rfl
  | cons a actions ih =>
    obtain ⟨t, ht, hr⟩ := runFrom_cons.mp h
    exact runFrom_cons.mpr ⟨t.uncached, step_uncached ht, ih hr⟩

theorem fresh_new (resultCacheBytes : Nat) : (CachedEngine.new resultCacheBytes).Fresh where
  engine := EngineState.inv_init
  cached k b h := by
    unfold new at h
    split at h <;> simp [CachedEngine.cached] at h

theorem fresh_of_run {resultCacheBytes : Nat} {actions : List CachedAction}
    (hr : runFrom (CachedEngine.step cfg) (.new resultCacheBytes) actions = some s)
    (hc : MeetsAlong (CachedEngine.step cfg) CacheSafe (.new resultCacheBytes) actions) : s.Fresh :=
  runFrom_invariant (P := Fresh) (fun _ _ _ h hc hs => fresh_step h hc hs) (fresh_new _) hc hr

def Unexpired (s : CachedEngine) (key : Bytes) (nowMs : Nat) : Prop :=
  s.cached key ≠ none → ∀ v ∈ topVersion s.engine.sstables key, v.entry.isExpired nowMs = false

instance decidableUnexpired (s : CachedEngine) (key : Bytes) (nowMs : Nat) :
    Decidable (s.Unexpired key nowMs) := inferInstanceAs (Decidable (_ ≠ none → _))

/-- A cached get differs from an uncached one only by serving an expired value. -/
theorem Fresh.checkedGet_eq_iff (h : s.Fresh) {nowMs : Nat}
    (hv : validate key = .ok () →
      ((validateUserKey key).tryCatch fun _ => validateSystemKey key) = .ok ()) :
    (CachedEngine.checkedGet validate s key nowMs).1 =
        (CachedEngine.checkedGet validate s.uncached key nowMs).1 ↔
      (validate key = .ok () → s.Unexpired key nowMs) := by
  unfold CachedEngine.checkedGet
  cases hval : validate key with
  | error e => simp
  | ok u =>
    simp only [forall_const]
    cases hb : s.cached key with
    | none =>
      have hsame : (s.snapshotGetInner u64Max key true false nowMs).1 =
          (s.uncached.snapshotGetInner u64Max key true false nowMs).1 :=
        snapshotGetInner_of_miss fun _ => hb
      simp only [snapshotGet, valueOnly, hsame, true_iff, Unexpired, hb]
      simp
    | some b =>
      obtain ⟨hout, v, htop, htomb, hval'⟩ := h.cached key b hb
      have hmem := (memVisible_eq_none h.engine).mpr hout
      have htab := (tableVisible_eq_topVersion h.engine key).trans htop
      have hhit : (s.snapshotGet u64Max key nowMs).1 = .ok (some b) := by
        rw [snapshotGet, valueOnly, snapshotGetInner_fst, hv hval, hmem, consult_fst,
          if_pos ⟨rfl, rfl⟩, hb]
        rfl
      have hmiss : (s.uncached.snapshotGet u64Max key nowMs).1 =
          .ok ((v.resolveEntry nowMs false).map Prod.fst) := by
        rw [snapshotGet, valueOnly, snapshotGetInner_fst, hv hval,
          show s.uncached.engine.view.memVisible key u64Max = none from hmem, consult_fst,
          show s.uncached.engine.view.tableVisible key u64Max = some v from htab]
        rfl
      rw [hhit, hmiss]
      simp only [Except.ok.injEq, Unexpired, hb, htop, Version.resolveEntry, htomb]
      cases hexp : v.entry.isExpired nowMs <;> simp [hval', hexp]

end CachedEngine

open CachedEngine

/-- As long as system writes and applied segments leave cached keys alone and no job changes which
version of a cached key the walk meets, a get through the cache answers as without one exactly while
the version behind the cached value has not expired; the reads that pass the cache by always do. -/
theorem cache_transparent_iff (cfg : CompactionConfig) (resultCacheBytes : Nat)
    (actions : List CachedAction) (s : CachedEngine)
    (hr : runFrom (CachedEngine.step cfg) (.new resultCacheBytes) actions = some s)
    (hc : MeetsAlong (CachedEngine.step cfg) CacheSafe (.new resultCacheBytes) actions) :
    ∃ s₀, runFrom (CachedEngine.step cfg) (.new 0) actions = some s₀ ∧ ∀ key nowMs,
      ((s.get key nowMs).1 = (s₀.get key nowMs).1 ↔
        (validateUserKey key = .ok () → s.Unexpired key nowMs)) ∧
      ((s.sysGet key nowMs).1 = (s₀.sysGet key nowMs).1 ↔
        (validateSystemKey key = .ok () → s.Unexpired key nowMs)) ∧
      (s.getIncludingExpired key nowMs).1 = (s₀.getIncludingExpired key nowMs).1 ∧
      ∀ seqUpper, (s.snapshotGetWithSeq seqUpper key nowMs).1 =
          (s₀.snapshotGetWithSeq seqUpper key nowMs).1 ∧
        (seqUpper ≠ u64Max →
          (s.snapshotGet seqUpper key nowMs).1 = (s₀.snapshotGet seqUpper key nowMs).1) := by
  have hfresh := fresh_of_run hr hc
  have hnew : (CachedEngine.new resultCacheBytes).uncached = .new 0 := rfl
  refine ⟨s.uncached, hnew ▸ run_uncached hr, fun key nowMs => ⟨?_, ?_, ?_, fun seqUpper => ⟨?_, ?_⟩⟩⟩
  · refine hfresh.checkedGet_eq_iff fun hv => ?_
    rw [hv]
    rfl
  · refine hfresh.checkedGet_eq_iff fun hv => ?_
    cases hu : validateUserKey key with
    | ok u => rfl
    | error e => exact hv
  · simp only [getIncludingExpired, valueOnly]
    rw [snapshotGetInner_of_miss (by simp)]
  · exact snapshotGetInner_of_miss (by simp)
  · intro hne
    simp only [snapshotGet, valueOnly]
    rw [snapshotGetInner_of_miss fun hu => absurd hu.2 hne]

def mergedReadRun : List CachedAction :=
  .put [1, 7] [10] 5 :: flushActions.map .maintain ++ .get [1, 7] 1 :: .sysPut [0, 7] [11] ::
    flushActions.map .maintain ++ (compactActions 0).map .maintain

/-- A flushed value with an expiry is read into the cache, a system record is written, and a job
merges the tables: before its expiry the value reads the same with and without the cache. -/
theorem cache_transparent_before_expiry :
    ∃ s s₀, runFrom (CachedEngine.step (.trigger 2)) (.new 100) mergedReadRun = some s ∧
      runFrom (CachedEngine.step (.trigger 2)) (.new 0) mergedReadRun = some s₀ ∧
      s.cached [1, 7] = some [10] ∧ (s.get [1, 7] 3).1 = (s₀.get [1, 7] 3).1 := by
  obtain ⟨s₀, h₀, h⟩ := cache_transparent_iff (.trigger 2) 100 mergedReadRun _ rfl (by decide +kernel)
  exact ⟨_, s₀, rfl, h₀, by decide +kernel, (h [1, 7] 3).1.mpr fun _ => by decide +kernel⟩

/-- The cache answers with a value that has expired since it was read, with one that had expired when
it was read on behalf of a caller who asked for expired values, and with a system record that has
been overwritten or deleted since. -/
theorem cache_serves_stale_values :
    ((runFrom (CachedEngine.step .default) (.new 100)
        (.put [1, 7] [10] 5 :: flushActions.map .maintain ++ [.get [1, 7] 1])).map
          fun s => (s.get [1, 7] 9).1.toOption) = some (some (some [10])) ∧
    ((runFrom (CachedEngine.step .default) (.new 0)
        (.put [1, 7] [10] 5 :: flushActions.map .maintain ++ [.get [1, 7] 1])).map
          fun s => (s.get [1, 7] 9).1.toOption) = some (some none) ∧
    ((runFrom (CachedEngine.step .default) (.new 100)
        (.put [1, 7] [10] 5 :: flushActions.map .maintain ++ [.getIncludingExpired [1, 7] 9])).map
          fun s => (s.get [1, 7] 9).1.toOption) = some (some (some [10])) ∧
    ((runFrom (CachedEngine.step .default) (.new 100)
        (.sysPut [0, 7] [10] :: flushActions.map .maintain ++ .sysGet [0, 7] 1 ::
          .sysPut [0, 7] [12] :: flushActions.map .maintain)).map
          fun s => (s.sysGet [0, 7] 1).1.toOption) = some (some (some [10])) ∧
    ((runFrom (CachedEngine.step .default) (.new 100)
        (.sysPut [0, 7] [10] :: flushActions.map .maintain ++ .sysDel [0, 7] 1 ::
          flushActions.map .maintain)).map
          fun s => (s.sysGet [0, 7] 1).1.toOption) = some (some (some [10])) ∧
    ((runFrom (CachedEngine.step .default) (.new 0)
        (.sysPut [0, 7] [10] :: flushActions.map .maintain ++ .sysDel [0, 7] 1 ::
          flushActions.map .maintain)).map
          fun s => (s.sysGet [0, 7] 1).1.toOption) = some (some none) :=
  ⟨by decide +kernel, by decide +kernel, by decide +kernel, by decide +kernel, by decide +kernel,
    by decide +kernel⟩

end ZydecoDb
