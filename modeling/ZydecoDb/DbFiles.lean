import ZydecoDb.FlushedJobs

namespace ZydecoDb

open Lib EngineState

def EngineState.Recoverable (st : EngineState) (tables : List LoadedSstable) : Prop :=
  tables = st.sstables ∨ ∃ job metas written j, st.compacting = some ⟨job, metas, [], written⟩ ∧
    tables = cutCatalog st.sstables (metas.map SstableMeta.id) written j

theorem EngineState.Backed.recoverable {st : EngineState} {clock : Nat} {accepted : List WalEntry}
    (h : st.Backed clock accepted) {tables : List LoadedSstable} (hr : st.Recoverable tables) :
    Catalog tables ∧ sstableMaxSeq tables = sstableMaxSeq st.sstables ∧
      Answers clock tables (flushedVersions accepted st.sstables) ∧
      ∀ t ∈ tables, t ∈ st.allTables := by
  rcases hr with rfl | ⟨job, metas, written, j, hc, rfl⟩
  · exact ⟨h.catalog, rfl, h.answers, fun t ht => List.mem_append_left _ ht⟩
  · obtain ⟨p, hres⟩ := h.compactionResult hc
    obtain ⟨h1, h2, h3⟩ := h.cut hc j
    refine ⟨h1, h2, h3, fun t ht => ?_⟩
    have hmem := (cutCatalog_spec h.catalog hres j).2.2 t ht
    simp only [allTables, writtenTables, hc, List.mem_append] at hmem ⊢
    tauto

namespace Db

def base (db : Db) : EngineState :=
  match db.flushApply with
  | some (_, true) => db.engine.flushPublish.getD db.engine
  | _ => db.engine

def durableTables (db : Db) : List LoadedSstable :=
  match db.compactionApplied, db.engine.compacting with
  | true, some c => publishCatalog (c.inputMetas.map SstableMeta.id) c.written db.base.sstables
  | _, _ => db.base.sstables

/-- The files hold every table the engine may read again, and the manifest lists the tables of the
applies that are durable. -/
structure Stored (crc : Bytes → UInt32) (db : Db) : Prop where
  files : ∀ t ∈ db.engine.allTables, t ∈ db.sstFiles
  ids : (db.sstFiles.map fun t => t.metadata.id).Nodup
  ids_lt : ∀ t ∈ db.sstFiles, t.metadata.id < db.engine.nextSstableId
  fits : ∀ t ∈ db.sstFiles, t.metadata.Fits
  flush : db.flushApply ≠ none → ∃ t, db.engine.flushed = some t
  applied : db.compactionApplied = true →
    ∃ job metas written, db.engine.compacting = some ⟨job, metas, [], written⟩
  manifest : ∃ recs, db.manifest = (manifestCodec crc).encodeAll recs ∧ (∀ r ∈ recs, r.Fits) ∧
    (ManifestState.ofRecords recs).liveSstables.Perm (db.durableTables.map LoadedSstable.metadata)

variable {crc : Bytes → UInt32} {db db' : Db} {cfg : CompactionConfig} {st : EngineState}
  {t : LoadedSstable}

theorem stored_init : Db.init.Stored crc where
  files := by simp [init, EngineState.init, allTables, writtenTables]
  ids := List.nodup_nil
  ids_lt := by simp [init]
  fits := by simp [init]
  flush := by simp [init]
  applied := by simp [init]
  manifest := ⟨[], rfl, by simp, List.Perm.refl _⟩

theorem Stored.frame (h : db.Stored crc) (hm : db'.manifest = db.manifest)
    (hd : db'.durableTables = db.durableTables) (hs : db'.sstFiles = db.sstFiles)
    (ha : ∀ t ∈ db'.engine.allTables, t ∈ db.engine.allTables)
    (hn : db'.engine.nextSstableId = db.engine.nextSstableId)
    (hf : db'.flushApply ≠ none → ∃ t, db'.engine.flushed = some t)
    (hc : db'.compactionApplied = true →
      ∃ job metas written, db'.engine.compacting = some ⟨job, metas, [], written⟩) :
    db'.Stored crc := by
  refine ⟨fun t ht => ?_, hs ▸ h.ids, ?_, hs ▸ h.fits, hf, hc, ?_⟩
  · rw [hs]
    exact h.files t (ha t ht)
  · rw [hs, hn]
    exact h.ids_lt
  · rw [hm, hd]
    exact h.manifest

theorem Stored.newFile (h : db.Stored crc) (hm : db'.manifest = db.manifest)
    (hd : db'.durableTables = db.durableTables) (hs : db'.sstFiles = db.sstFiles ++ [t])
    (hid : t.metadata.id = db.engine.nextSstableId) (hfit : t.metadata.Fits)
    (ha : ∀ u ∈ db'.engine.allTables, u ∈ db.engine.allTables ∨ u = t)
    (hn : db'.engine.nextSstableId = db.engine.nextSstableId + 1)
    (hf : db'.flushApply ≠ none → ∃ t, db'.engine.flushed = some t)
    (hc : db'.compactionApplied = true →
      ∃ job metas written, db'.engine.compacting = some ⟨job, metas, [], written⟩) :
    db'.Stored crc := by
  refine ⟨fun u hu => ?_, ?_, fun u hu => ?_, fun u hu => ?_, hf, hc, ?_⟩
  · rw [hs, List.mem_append, List.mem_singleton]
    exact (ha u hu).imp_left (h.files u)
  · rw [hs, List.map_append, List.nodup_append]
    refine ⟨h.ids, by simp, fun a ha b hb => ?_⟩
    obtain ⟨u, hu, rfl⟩ := List.mem_map.mp ha
    rw [List.mem_singleton.mp hb]
    exact Nat.ne_of_lt ((h.ids_lt u hu).trans_eq hid.symm)
  · rw [hs, List.mem_append, List.mem_singleton] at hu
    rw [hn]
    rcases hu with hu | rfl
    · exact Nat.lt_succ_of_lt (h.ids_lt u hu)
    · omega
  · rw [hs, List.mem_append, List.mem_singleton] at hu
    rcases hu with hu | rfl
    · exact h.fits u hu
    · exact hfit
  · rw [hm, hd]
    exact h.manifest

theorem durableTables_of_not_applied (h : db.compactionApplied = false) :
    db.durableTables = db.base.sstables := by
  simp [durableTables, h]

theorem durableTables_of_applied (h : db.compactionApplied = true) {c : Compacting}
    (hc : db.engine.compacting = some c) : db.durableTables =
      publishCatalog (c.inputMetas.map SstableMeta.id) c.written db.base.sstables := by
  simp [durableTables, h, hc]

theorem base_sstables_congr (hf : db'.flushApply = db.flushApply)
    (hs : db'.engine.sstables = db.engine.sstables) (hfl : db'.engine.flushed = db.engine.flushed) :
    db'.base.sstables = db.base.sstables := by
  unfold base EngineState.flushPublish
  rw [hf, hfl]
  split
  · cases db.engine.flushed <;> simp [hs]
  · exact hs

theorem durableTables_congr (hf : db'.flushApply = db.flushApply)
    (ha : db'.compactionApplied = db.compactionApplied)
    (hs : db'.engine.sstables = db.engine.sstables) (hfl : db'.engine.flushed = db.engine.flushed)
    (hc : db'.engine.compacting = db.engine.compacting) : db'.durableTables = db.durableTables := by
  unfold durableTables
  rw [ha, hc, base_sstables_congr hf hs hfl]

theorem base_eq (db : Db) : db.base = db.engine ∨ db.engine.flushPublish = some db.base := by
  unfold base
  split
  · cases hf : db.engine.flushPublish with
    | none => exact Or.inl rfl
    | some st => exact Or.inr rfl
  · exact Or.inl rfl

theorem base_compacting (db : Db) : db.base.compacting = db.engine.compacting := by
  rcases db.base_eq with h | h
  · rw [h]
  · obtain ⟨t, -, he⟩ := Option.map_eq_some_iff.mp h
    rw [← he]

theorem base_backed {clock : Nat} {accepted : List WalEntry}
    (h : db.engine.Backed clock accepted) : db.base.Backed clock accepted := by
  rcases db.base_eq with hb | hb
  · rwa [hb]
  · exact h.flushPublish hb

theorem Stored.durable_recoverable (h : db.Stored crc) : db.base.Recoverable db.durableTables := by
  cases ha : db.compactionApplied with
  | false => exact Or.inl (durableTables_of_not_applied ha)
  | true =>
    obtain ⟨job, metas, written, hc⟩ := h.applied ha
    refine Or.inr ⟨job, metas, written, written.length + db.base.sstables.length + 1,
      db.base_compacting.trans hc, ?_⟩
    rw [durableTables_of_applied ha hc, cutCatalog_all]

theorem flush_durableTables {clock : Nat} {accepted : List WalEntry}
    (hb : db.engine.Backed clock accepted) (ht : db.engine.flushed = some t) {covered : Nat}
    (hf : db.flushApply = some (covered, false)) (manifest : Bytes) :
    (durableTables { db with manifest := manifest, flushApply := some (covered, true) }).Perm
      (db.durableTables ++ [t]) := by
  have hbase : base { db with manifest := manifest, flushApply := some (covered, true) } =
      { db.engine with
        sstables := publishCatalog [] [t] db.engine.sstables
        immutable := db.engine.immutable.tail
        flushed := none
        bufferedSeq := max db.engine.bufferedSeq t.metadata.maxSeq
        syncedSeq := max db.engine.syncedSeq t.metadata.maxSeq } := by
    simp [base, EngineState.flushPublish, ht]
  have hold : db.base = db.engine := by simp [base, hf]
  unfold durableTables
  rw [hbase, hold]
  cases ha : db.compactionApplied with
  | false => exact publishFlush_perm t _
  | true =>
  cases hc : db.engine.compacting with
  | none => exact publishFlush_perm t _
  | some c =>
    have hid : t.metadata.id ∉ c.inputMetas.map SstableMeta.id := fun hin => by
      obtain ⟨u, hu, he⟩ := (hb.job c hc).input_ids hin
      exact hb.inv.flushed_fresh ht u hu he
    refine (publishCatalog_perm _ _ _).trans ?_
    refine List.Perm.trans ?_ ((publishCatalog_perm _ _ _).append_right _).symm
    have hfilter := ((publishFlush_perm t db.engine.sstables).filter
      fun u => decide (u.metadata.id ∉ c.inputMetas.map SstableMeta.id)).append_right c.written
    refine hfilter.trans ?_
    rw [List.filter_append, List.filter_cons_of_pos (by simpa using hid), List.filter_nil,
      List.append_assoc, List.append_assoc]
    exact List.perm_append_comm.append_left _

theorem live_flushRecords (recs : List ManifestRecord) (t : LoadedSstable) (covered j : Nat) :
    (ManifestState.ofRecords (recs ++ (flushRecords t covered).take (j + 1))).liveSstables =
      (ManifestState.ofRecords recs).liveSstables ++ [t.metadata] := by
  unfold ManifestState.ofRecords flushRecords
  rw [List.foldl_append]
  split_ifs <;> cases j <;> simp [ManifestState.apply]

theorem flushRecords_fits {covered : Nat} (hfit : t.metadata.Fits) (hc : covered < 256 ^ 8) :
    ∀ r ∈ flushRecords t covered, r.Fits := by
  intro r hr
  simp only [flushRecords, List.mem_cons] at hr
  rcases hr with rfl | hr
  · exact hfit
  · split_ifs at hr with h
    · rw [List.mem_singleton.mp hr]
      exact hc
    · simp at hr

/-- The flush's records become durable while its table waits to be published. -/
theorem Stored.flushDurable {clock : Nat} {accepted : List WalEntry} (h : db.Stored crc)
    (hb : db.engine.Backed clock accepted) (ht : db.engine.flushed = some t) {covered : Nat}
    (hf : db.flushApply = some (covered, false)) (hc : covered < 256 ^ 8) :
    Stored crc { db with
      manifest := db.manifest ++ (manifestCodec crc).encodeAll (flushRecords t covered)
      flushApply := some (covered, true) } := by
  obtain ⟨recs, hm, hfits, hlive⟩ := h.manifest
  have hfit : t.metadata.Fits := h.fits t (h.files t (by simp [allTables, ht]))
  refine ⟨h.files, h.ids, h.ids_lt, h.fits, fun _ => ⟨t, ht⟩, h.applied,
    recs ++ flushRecords t covered, ?_, fun r hr => ?_, ?_⟩
  · simp only [hm]
    rw [(manifestCodec crc).encodeAll_append]
  · rcases List.mem_append.mp hr with hr | hr
    · exact hfits r hr
    · exact flushRecords_fits hfit hc r hr
  · have hall := live_flushRecords recs t covered 1
    have htake : (flushRecords t covered).take (1 + 1) = flushRecords t covered := by
      refine List.take_of_length_le ?_
      simp only [flushRecords]
      split_ifs <;> simp
    rw [htake] at hall
    rw [hall]
    refine (hlive.append_right _).trans ?_
    have hperm := (flush_durableTables hb ht hf
      (db.manifest ++ (manifestCodec crc).encodeAll (flushRecords t covered))).map
        LoadedSstable.metadata
    rw [List.map_append] at hperm
    exact hperm.symm

end Db

end ZydecoDb
