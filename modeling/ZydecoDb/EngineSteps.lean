import ZydecoDb.EngineInvariant
import ZydecoDb.PlannedJobs

namespace ZydecoDb

open Lib

def EngineAction.onMemory : EngineAction → Bool
  | .put _ _ _ | .del _ | .writeBatch _ _ | .syncWal | .freeze | .snapshotOwned | .snapshotDrop _ => true
  | _ => false

def EngineAction.onJob : EngineAction → Bool
  | .submitCompaction _ => true
  | .writeCompactionOutput _ => true
  | .compactionPublish => true
  | .compactionFailed => true
  | _ => false

namespace EngineState

variable {st st' : EngineState} {cfg : CompactionConfig}

variable {bloom : Bytes → Bool}

theorem Inv.setJobs (hi : st.Inv) {flushed : Option LoadedSstable} {compacting : Option Compacting}
    {next : Nat}
    (hnd : ((allTables { st with flushed := flushed, compacting := compacting }).map
      fun t => t.metadata.id).Nodup)
    (hlt : ∀ t ∈ allTables { st with flushed := flushed, compacting := compacting }, t.metadata.id < next)
    (hfl : ∀ t ∈ flushed, t.WellFormed ∧ t.metadata.level = 0 ∧
      ∃ mt, st.immutable.head? = some mt ∧ t.reader.entries = mt.entries)
    (hc : ∀ c ∈ compacting, CompactingOk st.sstables c) :
    Inv { st with flushed := flushed, compacting := compacting, nextSstableId := next } :=
  ⟨hi.seq_lt, hi.next_le, hi.key_ne, hi.coherent, hi.mems, hi.mems_newer, hi.imm_ne, hi.tables,
    hi.ids, hnd, hlt, hfl, hc⟩

/-- A new table takes the next id. -/
theorem ids_fresh {old new : List LoadedSstable} {t : LoadedSstable} {n : Nat}
    (hperm : new.Perm (t :: old)) (hid : t.metadata.id = n)
    (hnd : (old.map fun u => u.metadata.id).Nodup) (hlt : ∀ u ∈ old, u.metadata.id < n) :
    (new.map fun u => u.metadata.id).Nodup ∧ ∀ u ∈ new, u.metadata.id < n + 1 := by
  refine ⟨(hperm.map _).nodup_iff.mpr ?_, fun u hu => ?_⟩
  · rw [List.map_cons, List.nodup_cons]
    refine ⟨fun hm => ?_, hnd⟩
    obtain ⟨u, hu, he⟩ := List.mem_map.mp hm
    exact (hlt u hu).ne (he.trans hid)
  · rcases List.mem_cons.mp (hperm.mem_iff.mp hu) with rfl | hu
    · exact hid ▸ Nat.lt_succ_self _
    · exact Nat.lt_succ_of_lt (hlt u hu)

theorem flushExecute_cases (h : st.flushExecute bloom = some st') :
    st.flushed = none ∧ ∃ mt rest, st.immutable = mt :: rest ∧
      (∀ v ∈ mt.entries, bloom v.userKey = true) ∧
      st' = { st with
        flushed := some (buildSstable st.nextSstableId 0 mt.entries (some bloom))
        nextSstableId := st.nextSstableId + 1 } := by
  unfold EngineState.flushExecute at h
  split at h
  next mt rest hf himm =>
    split at h
    next hb => exact ⟨hf, mt, rest, himm, List.all_eq_true.mp hb, (Option.some.inj h).symm⟩
    next => simp at h
  next => simp at h

theorem Inv.flushExecute (hi : st.Inv) (h : st.flushExecute bloom = some st') :
    st'.Inv := by
  obtain ⟨hf, mt, rest, himm, hb, rfl⟩ := flushExecute_cases h
  have hmt : mt ∈ st.immutable := himm ▸ List.mem_cons_self
  have hkey : ∀ v ∈ mt.entries, v.userKey ≠ [] := fun v hv =>
    hi.key_ne v (ReadView.mem_versions.mpr (Or.inr (Or.inl ⟨mt, hmt, hv⟩)))
  have hlt := hi.ids_lt
  have hnd := hi.ids_nodup
  simp only [allTables, hf, Option.toList_none, List.nil_append] at hlt hnd
  obtain ⟨hnd', hlt'⟩ := ids_fresh (t := buildSstable st.nextSstableId 0 mt.entries (some bloom))
    List.perm_middle rfl hnd hlt
  refine hi.setJobs hnd' hlt' (fun t ht => ?_) hi.compacting
  cases Option.mem_some_iff.mp ht
  refine ⟨buildSstable_wellFormed mt.sorted (hi.imm_ne mt hmt) hkey ?_, rfl, mt, by rw [himm]; rfl, rfl⟩
  intro f hf
  cases Option.mem_some_iff.mp hf
  exact hb

theorem flushPublish_versions (hi : st.Inv) (h : st.flushPublish = some st') (v : Version) :
    v ∈ st'.view.versions ↔ v ∈ st.view.versions := by
  obtain ⟨t, ht, rfl⟩ := Option.map_eq_some_iff.mp h
  obtain ⟨-, -, mt, hmt, he⟩ := hi.flushed t ht
  obtain ⟨rest, himm⟩ : ∃ rest, st.immutable = mt :: rest := List.head?_eq_some_iff.mp hmt
  rw [ReadView.mem_versions, ReadView.mem_versions]
  simp only [view, himm, List.tail_cons, mem_publishCatalog, List.not_mem_nil, not_false_eq_true,
    and_true, List.mem_cons, or_and_right, exists_or, exists_eq_left, he, or_false]
  constructor
  · rintro (hv | hv | hv | hv)
    · exact Or.inl hv
    · exact Or.inr (Or.inl (Or.inr hv))
    · exact Or.inr (Or.inr hv)
    · exact Or.inr (Or.inl (Or.inl hv))
  · rintro (hv | (hv | hv) | hv)
    · exact Or.inl hv
    · exact Or.inr (Or.inr (Or.inr hv))
    · exact Or.inr (Or.inl hv)
    · exact Or.inr (Or.inr (Or.inl hv))

theorem Inv.flushPublish (hi : st.Inv) (h : st.flushPublish = some st') : st'.Inv := by
  have hv := flushPublish_versions hi h
  obtain ⟨t, ht, rfl⟩ := Option.map_eq_some_iff.mp h
  obtain ⟨hwf, -, mt, hmt, he⟩ := hi.flushed t ht
  obtain ⟨rest, himm⟩ : ∃ rest, st.immutable = mt :: rest := List.head?_eq_some_iff.mp hmt
  have hmems : st.memEntries =
      (st.active.entries :: rest.reverse.map Memtable.entries) ++ [mt.entries] := by
    simp [memEntries, himm]
  have hpair := hi.mems
  rw [hmems, List.pairwise_append] at hpair
  have hids := hi.ids_nodup
  simp only [allTables, show st.flushed = some t from ht, Option.toList_some] at hids
  refine ⟨fun v h => hi.seq_lt v ((hv v).mp h), hi.next_le, fun v h => hi.key_ne v ((hv v).mp h),
    hi.coherent.sublist fun v h => (hv v).mp h, ?_, ?_, ?_, ?_, ?_, ?_, ?_, by simp, ?_⟩
  · simpa [memEntries, himm] using hpair.1
  · intro m hm u hu
    have hm' : m ∈ st.active.entries :: rest.reverse.map Memtable.entries := by
      simpa [memEntries, himm] using hm
    rcases publishFlush_mem.mp hu with hu | rfl
    · exact hi.mems_newer m (hmems ▸ List.mem_append_left _ hm') u hu
    · rw [he]
      exact hpair.2.2 m hm' mt.entries (List.mem_singleton.mpr rfl)
  · intro m hm
    exact hi.imm_ne m (List.mem_of_mem_tail hm)
  · intro u hu
    rcases publishFlush_mem.mp hu with hu | rfl
    · exact hi.tables u hu
    · exact hwf
  · refine publishCatalog_ids (hids.sublist (List.Sublist.map _ ?_))
    exact (List.Sublist.refl _).append (List.sublist_append_left _ _)
  · have hperm := (publishFlush_perm t st.sstables).append_right st.writtenTables
    rw [List.append_assoc] at hperm
    exact ((hperm.map _).nodup_iff).mpr hids
  · intro u hu
    refine hi.ids_lt u ?_
    simp only [allTables, Option.toList_none, List.nil_append, List.mem_append, publishFlush_mem] at hu
    simp only [allTables, show st.flushed = some t from ht, Option.toList_some, List.mem_append,
      List.mem_singleton]
    tauto
  · intro c hc
    exact (hi.compacting c hc).mono fun u hu => publishFlush_mem.mpr (Or.inl hu)

theorem submitCompaction_cases {now : Nat} (h : st.submitCompaction cfg now = some st') :
    st.compacting = none ∧ ∃ plan, planCompactionJob st.metas cfg = some plan ∧
      st' = { st with compacting := some ⟨plan.1, plan.2, compactionRuns
        ⟨st.compactionGcWatermark, st.compactionDropTombstones cfg plan.1, now⟩ cfg.targetFileBytes
        ((st.inputTables (plan.2.map SstableMeta.id)).map fun t => t.reader.entries), []⟩ } := by
  unfold submitCompaction at h
  split at h
  next => simp at h
  next hn =>
    obtain ⟨plan, hp, rfl⟩ := Option.map_eq_some_iff.mp h
    exact ⟨hn, plan, hp, rfl⟩

theorem mem_inputTables {ids : List Nat} {t : LoadedSstable} :
    t ∈ st.inputTables ids ↔ t ∈ st.sstables ∧ t.metadata.id ∈ ids := by
  simp [inputTables]

theorem Inv.inputs_sorted (hi : st.Inv) (ids : List Nat) :
    ∀ src ∈ (st.inputTables ids).map (fun t => t.reader.entries), src.Pairwise Version.le := by
  intro src hsrc
  obtain ⟨t, ht, rfl⟩ := List.mem_map.mp hsrc
  exact (hi.tables t (mem_inputTables.mp ht).1).sorted

theorem Inv.submitCompaction (hi : st.Inv) {now : Nat} (h : st.submitCompaction cfg now = some st') :
    st'.Inv := by
  obtain ⟨hn, plan, hp, rfl⟩ := submitCompaction_cases h
  obtain ⟨-, hin, -⟩ := planCompactionJob_inputs hp
  have hsorted := hi.inputs_sorted (plan.2.map SstableMeta.id)
  have hall := hi.ids_nodup
  have hlt := hi.ids_lt
  simp only [allTables, writtenTables, hn] at hall hlt
  refine hi.setJobs hall hlt hi.flushed fun c hc => ?_
  cases Option.mem_some_iff.mp hc
  refine ⟨?_, compactionRuns_keysBelow hsorted, ?_, by simp, ?_⟩
  · intro m hm
    rw [hin] at hm
    exact List.mem_map.mp (List.mem_filter.mp hm).1
  · intro r hr
    exact ⟨compactionRuns_sorted hsorted r hr, compactionRuns_ne_nil hsorted r hr⟩
  · intro r hr v hv
    obtain ⟨src, hsrc, hvs⟩ := mem_of_mem_compactionRuns hr hv
    obtain ⟨t, ht, rfl⟩ := List.mem_map.mp hsrc
    obtain ⟨hlive, hid⟩ := mem_inputTables.mp ht
    exact ⟨t, hlive, hid, hvs⟩

/-- Writing an output leaves the job's runs as they are. -/
theorem runs_written (written : List LoadedSstable) (id level : Nat) (run : List Version)
    (f : Option (Bytes → Bool)) (pending : List (List Version)) :
    (written ++ [buildSstable id level run f]).map (fun t => t.reader.entries) ++ pending =
      written.map (fun t => t.reader.entries) ++ run :: pending := by
  simp [buildSstable]

theorem writeCompactionOutput_cases (h : st.writeCompactionOutput cfg bloom = some st') :
    ∃ job metas run pending written f, st.compacting = some ⟨job, metas, run :: pending, written⟩ ∧
      (∀ g ∈ f, ∀ v ∈ run, g v.userKey = true) ∧
      st' = { st with
        compacting := some ⟨job, metas, pending,
          written ++ [buildSstable st.nextSstableId job.outputLevel run f]⟩
        nextSstableId := st.nextSstableId + 1 } := by
  unfold writeCompactionOutput at h
  split at h
  next job metas run pending written hc =>
    simp only at h
    obtain ⟨hb, h⟩ := Option.ite_none_right_eq_some.mp h
    refine ⟨job, metas, run, pending, written, _, hc, ?_, (Option.some.inj h).symm⟩
    intro g hg v hv
    split at hg
    next =>
      cases Option.mem_some_iff.mp hg
      exact List.all_eq_true.mp hb v hv
    next => simp at hg
  next => simp at h

theorem Inv.writeCompactionOutput (hi : st.Inv) (h : st.writeCompactionOutput cfg bloom = some st') :
    st'.Inv := by
  obtain ⟨job, metas, run, pending, written, f, hc, hf, rfl⟩ := writeCompactionOutput_cases h
  obtain ⟨hin, hruns, hpend, hwr, horig⟩ := hi.compacting _ hc
  obtain ⟨hsort, hne⟩ := hpend run List.mem_cons_self
  have hlt := hi.ids_lt
  have hnd := hi.ids_nodup
  simp only [allTables, writtenTables, hc] at hlt hnd
  have hkey : ∀ v ∈ run, v.userKey ≠ [] := by
    intro v hv
    obtain ⟨t, ht, -, hvt⟩ := horig run (by simp) v hv
    exact hi.key_ne v (mem_view_versions.mpr (Or.inr ⟨t, ht, hvt⟩))
  have hperm : (st.sstables ++ (st.flushed.toList ++
      (written ++ [buildSstable st.nextSstableId job.outputLevel run f]))).Perm
      (buildSstable st.nextSstableId job.outputLevel run f ::
        (st.sstables ++ (st.flushed.toList ++ written))) := by
    simpa only [List.append_assoc] using List.perm_append_singleton _
      (st.sstables ++ (st.flushed.toList ++ written))
  obtain ⟨hnd', hlt'⟩ := ids_fresh hperm rfl hnd hlt
  refine hi.setJobs hnd' hlt' hi.flushed fun c hc' => ?_
  cases Option.mem_some_iff.mp hc'
  refine ⟨hin, ?_, fun r hr => hpend r (List.mem_cons_of_mem _ hr), ?_, ?_⟩
  · rw [runs_written]
    exact hruns
  · intro t ht
    rcases List.mem_append.mp ht with ht | ht
    · exact hwr t ht
    · cases List.mem_singleton.mp ht
      exact ⟨buildSstable_wellFormed hsort hne hkey hf, rfl⟩
  · rw [runs_written]
    exact horig

theorem compactionPublish_cases (h : st.compactionPublish = some st') :
    ∃ job metas written, st.compacting = some ⟨job, metas, [], written⟩ ∧
      st' = { st with
        sstables := publishCatalog (metas.map SstableMeta.id) written st.sstables
        compacting := none } := by
  unfold compactionPublish at h
  split at h
  next job metas written hc => exact ⟨job, metas, written, hc, (Option.some.inj h).symm⟩
  next => simp at h

theorem CompactingOk.written_origin {live : List LoadedSstable} {c : Compacting}
    (h : CompactingOk live c) {t : LoadedSstable} (ht : t ∈ c.written) {v : Version}
    (hv : v ∈ t.reader.entries) :
    ∃ u ∈ live, u.metadata.id ∈ c.inputMetas.map SstableMeta.id ∧ v ∈ u.reader.entries :=
  h.origin _ (List.mem_append_left _ (List.mem_map_of_mem ht)) v hv

theorem compactionPublish_versions (hi : st.Inv) (h : st.compactionPublish = some st') (v : Version)
    (hv : v ∈ st'.view.versions) : v ∈ st.view.versions := by
  obtain ⟨job, metas, written, hc, rfl⟩ := compactionPublish_cases h
  rcases mem_view_versions.mp hv with hv | ⟨t, ht, hv⟩
  · exact mem_view_versions.mpr (Or.inl hv)
  · rcases mem_publishCatalog.mp ht with ⟨ht, -⟩ | ht
    · exact mem_view_versions.mpr (Or.inr ⟨t, ht, hv⟩)
    · obtain ⟨u, hu, -, hvu⟩ := (hi.compacting _ hc).written_origin ht hv
      exact mem_view_versions.mpr (Or.inr ⟨u, hu, hvu⟩)

theorem Inv.compactionPublish (hi : st.Inv) (h : st.compactionPublish = some st') : st'.Inv := by
  have hv := compactionPublish_versions hi h
  obtain ⟨job, metas, written, hc, rfl⟩ := compactionPublish_cases h
  have hok := hi.compacting _ hc
  have hlt := hi.ids_lt
  have hnd := hi.ids_nodup
  simp only [allTables, writtenTables, hc] at hlt hnd
  have hperm : (publishCatalog (metas.map SstableMeta.id) written st.sstables ++
      (st.flushed.toList ++ [])).Perm
      ((st.sstables.filter fun t : LoadedSstable => t.metadata.id ∉ metas.map SstableMeta.id) ++
        (st.flushed.toList ++ written)) := by
    rw [List.append_nil]
    refine ((publishCatalog_perm _ _ _).append_right _).trans ?_
    rw [List.append_assoc]
    exact List.perm_append_comm.append_left _
  have hsub : List.Sublist
      ((st.sstables.filter fun t : LoadedSstable => t.metadata.id ∉ metas.map SstableMeta.id) ++
        (st.flushed.toList ++ written)) (st.sstables ++ (st.flushed.toList ++ written)) :=
    List.filter_sublist.append (List.Sublist.refl _)
  refine ⟨fun v h => hi.seq_lt v (hv v h), hi.next_le, fun v h => hi.key_ne v (hv v h),
    hi.coherent.sublist hv, hi.mems, ?_, hi.imm_ne, ?_, ?_, ?_, ?_, hi.flushed, by simp⟩
  · intro m hm t ht v hvm w hw
    rcases mem_publishCatalog.mp ht with ⟨ht, -⟩ | ht
    · exact hi.mems_newer m hm t ht v hvm w hw
    · obtain ⟨u, hu, -, hwu⟩ := hok.written_origin ht hw
      exact hi.mems_newer m hm u hu v hvm w hwu
  · intro t ht
    rcases mem_publishCatalog.mp ht with ⟨ht, -⟩ | ht
    · exact hi.tables t ht
    · exact (hok.written t ht).1
  · refine publishCatalog_ids (hnd.sublist (List.Sublist.map _ ?_))
    exact (List.Sublist.refl _).append (List.sublist_append_right _ _)
  · exact ((hperm.map _).nodup_iff).mpr (hnd.sublist (hsub.map _))
  · intro t ht
    exact hlt t (hsub.subset (hperm.mem_iff.mp ht))

theorem Inv.flushFailed (hi : st.Inv) : st.flushFailed.Inv := by
  have hsub : st.flushFailed.allTables.Sublist st.allTables :=
    (List.Sublist.refl _).append (List.sublist_append_right _ _)
  exact hi.setJobs (hi.ids_nodup.sublist (hsub.map _)) (fun t ht => hi.ids_lt t (hsub.subset ht))
    (by simp) hi.compacting

theorem Inv.compactionFailed (hi : st.Inv) : st.compactionFailed.Inv := by
  have hsub : st.compactionFailed.allTables.Sublist st.allTables :=
    (List.Sublist.refl _).append ((List.Sublist.refl _).append (List.nil_sublist _))
  exact hi.setJobs (hi.ids_nodup.sublist (hsub.map _)) (fun t ht => hi.ids_lt t (hsub.subset ht))
    hi.flushed (by simp)

theorem Inv.setMarks (hi : st.Inv) (buffered synced : Nat) (snaps : List Nat) :
    Inv { st with bufferedSeq := buffered, syncedSeq := synced, liveSnapshotSeqs := snaps } :=
  ⟨hi.seq_lt, hi.next_le, hi.key_ne, hi.coherent, hi.mems, hi.mems_newer, hi.imm_ne, hi.tables,
    hi.ids, hi.ids_nodup, hi.ids_lt, hi.flushed, hi.compacting⟩

theorem commit_tables {ops : List BatchOp} (h : st.commit ops = some st') :
    st'.sstables = st.sstables ∧ st'.flushed = st.flushed ∧ st'.compacting = st.compacting := by
  obtain ⟨-, rfl⟩ := commit_cases h
  exact ⟨rfl, rfl, rfl⟩

theorem flushExecute_tables (h : st.flushExecute bloom = some st') :
    st'.sstables = st.sstables ∧ st'.compacting = st.compacting := by
  obtain ⟨-, mt, rest, -, -, rfl⟩ := flushExecute_cases h
  exact ⟨rfl, rfl⟩

/-- An action on the memtables, the WAL or the snapshots leaves the tables and their ids. -/
theorem step_frame {action : EngineAction} (ha : action.onMemory = true)
    (h : st.step cfg action = some st') : st'.sstables = st.sstables ∧ st'.flushed = st.flushed ∧
      st'.compacting = st.compacting ∧ st'.nextSstableId = st.nextSstableId := by
  cases action with
  | put key value expiresAt =>
    obtain ⟨-, rfl⟩ := commit_cases (put_cases h).2
    exact ⟨rfl, rfl, rfl, rfl⟩
  | del key =>
    obtain ⟨-, rfl⟩ := commit_cases (del_cases h).2
    exact ⟨rfl, rfl, rfl, rfl⟩
  | writeBatch ops sysPuts =>
    obtain ⟨-, rfl⟩ := commit_cases (writeBatch_cases h).2
    exact ⟨rfl, rfl, rfl, rfl⟩
  | freeze =>
    obtain ⟨-, rfl⟩ := freeze_cases h
    exact ⟨rfl, rfl, rfl, rfl⟩
  | syncWal | snapshotOwned | snapshotDrop seqUpper =>
    cases Option.some.inj h
    exact ⟨rfl, rfl, rfl, rfl⟩
  | _ => simp [EngineAction.onMemory] at ha

/-- The invariant needs no condition on the steps. -/
theorem inv_step {action : EngineAction} (hi : st.Inv) (h : st.step cfg action = some st') :
    st'.Inv := by
  cases action with
  | put key value expiresAt =>
    obtain ⟨ho, h⟩ := put_cases h
    exact hi.commit ho h
  | del key =>
    obtain ⟨ho, h⟩ := del_cases h
    exact hi.commit ho h
  | writeBatch ops sysPuts =>
    obtain ⟨ho, h⟩ := writeBatch_cases h
    exact hi.commit ho h
  | syncWal =>
    cases Option.some.inj h
    exact hi.setMarks _ _ _
  | freeze => exact hi.freeze h
  | flushExecute bloom => exact hi.flushExecute h
  | flushPublish => exact hi.flushPublish h
  | flushFailed =>
    cases Option.some.inj h
    exact hi.flushFailed
  | submitCompaction nowMs => exact hi.submitCompaction h
  | writeCompactionOutput bloom => exact hi.writeCompactionOutput h
  | compactionPublish => exact hi.compactionPublish h
  | compactionFailed =>
    cases Option.some.inj h
    exact hi.compactionFailed
  | snapshotOwned =>
    cases Option.some.inj h
    exact hi.setMarks _ _ _
  | snapshotDrop seqUpper =>
    cases Option.some.inj h
    exact hi.setMarks _ _ _

theorem inv_of_run (cfg : CompactionConfig) (actions : List EngineAction)
    (hr : runFrom (EngineState.step cfg) .init actions = some st) : st.Inv :=
  runFrom_invariant (P := Inv) (fun _ _ _ h _ hs => inv_step h hs) inv_init (meetsAlong_true _ _) hr

end EngineState

end ZydecoDb
