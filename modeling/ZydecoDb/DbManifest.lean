import ZydecoDb.DbFiles

namespace ZydecoDb

open Lib EngineState

namespace Db

variable {crc : Bytes → UInt32} {db db' : Db} {cfg : CompactionConfig} {st : EngineState}
  {clock : Nat} {accepted : List WalEntry} {job : CompactionJob} {metas : List SstableMeta}
  {written : List LoadedSstable}

theorem live_compactionRecords (hb : db.engine.Backed clock accepted)
    (hc : db.engine.compacting = some ⟨job, metas, [], written⟩) {recs : List ManifestRecord}
    (hl : (ManifestState.ofRecords recs).liveSstables.Perm
      (db.base.sstables.map LoadedSstable.metadata)) (j : Nat) :
    (ManifestState.ofRecords (recs ++
        (compactionRecords (written.map LoadedSstable.metadata) metas).take j)).liveSstables.Perm
      ((cutCatalog db.base.sstables (metas.map SstableMeta.id) written j).map
        LoadedSstable.metadata) := by
  have hbase := base_backed hb
  have hc' := db.base_compacting.trans hc
  obtain ⟨p, hres⟩ := hbase.compactionResult hc'
  have hmetas := (hbase.job _ hc').metas
  have hcut := live_after_cut hres hl j
  rw [applyRecords, ← hmetas] at hcut
  exact hcut

theorem compactionRecords_fits (h : db.Stored crc) (hb : db.engine.Backed clock accepted)
    (hc : db.engine.compacting = some ⟨job, metas, [], written⟩) :
    ∀ r ∈ compactionRecords (written.map LoadedSstable.metadata) metas, r.Fits := by
  intro r hr
  have hfit : ∀ t ∈ db.engine.allTables, t.metadata.Fits := fun t ht => h.fits t (h.files t ht)
  rcases List.mem_append.mp hr with hr | hr
  · obtain ⟨m, hm, rfl⟩ := List.mem_map.mp hr
    obtain ⟨t, ht, rfl⟩ := List.mem_map.mp hm
    refine hfit t ?_
    simp only [allTables, writtenTables, hc, List.mem_append]
    exact Or.inr (Or.inr ht)
  · obtain ⟨m, hm, rfl⟩ := List.mem_map.mp hr
    obtain ⟨t, ht, he⟩ := (hb.job _ hc).input_ids (List.mem_map_of_mem hm)
    exact he ▸ (hfit t (List.mem_append_left _ ht)).1

theorem Stored.compactionDurable (h : db.Stored crc) (hb : db.engine.Backed clock accepted)
    (hc : db.engine.compacting = some ⟨job, metas, [], written⟩)
    (ha : db.compactionApplied = false) :
    Stored crc { db with
      manifest := db.manifest ++ (manifestCodec crc).encodeAll
        (compactionRecords (written.map LoadedSstable.metadata) metas)
      compactionApplied := true } := by
  obtain ⟨recs, hm, hfits, hlive⟩ := h.manifest
  rw [durableTables_of_not_applied ha] at hlive
  have hlen : metas.length ≤ db.base.sstables.length := by
    have hmetas := congrArg List.length ((base_backed hb).job _ (db.base_compacting.trans hc)).metas
    rw [List.length_map] at hmetas
    exact hmetas.trans_le (List.length_filter_le _ _)
  have htake : (compactionRecords (written.map LoadedSstable.metadata) metas).take
      (written.length + db.base.sstables.length + 1) =
      compactionRecords (written.map LoadedSstable.metadata) metas := by
    refine List.take_of_length_le ?_
    simp only [compactionRecords, List.length_append, List.length_map]
    omega
  have hcut := live_compactionRecords hb hc hlive (written.length + db.base.sstables.length + 1)
  rw [htake, cutCatalog_all] at hcut
  refine ⟨h.files, h.ids, h.ids_lt, h.fits, h.flush, fun _ => ⟨job, metas, written, hc⟩,
    recs ++ compactionRecords (written.map LoadedSstable.metadata) metas, ?_, fun r hr => ?_, ?_⟩
  · simp only [hm]
    rw [(manifestCodec crc).encodeAll_append]
  · rcases List.mem_append.mp hr with hr | hr
    · exact hfits r hr
    · exact compactionRecords_fits h hb hc r hr
  · simp only [durableTables, hc]
    exact hcut

/-- A flush and a compaction publish in either order. -/
theorem publish_comm (hb : db.engine.Backed clock accepted)
    (hc : db.engine.compacting = some ⟨job, metas, [], written⟩) {t : LoadedSstable}
    (ht : db.engine.flushed = some t) :
    publishCatalog (metas.map SstableMeta.id) written (publishCatalog [] [t] db.engine.sstables) =
      publishCatalog [] [t] (publishCatalog (metas.map SstableMeta.id) written db.engine.sstables) := by
  have hnd := hb.inv.ids_nodup
  simp only [allTables, writtenTables, hc, ht, Option.toList_some] at hnd
  have hid : t.metadata.id ∉ metas.map SstableMeta.id := fun hin => by
    obtain ⟨u, hu, he⟩ := (hb.job _ hc).input_ids hin
    exact hb.inv.flushed_fresh ht u hu he
  refine catalog_ext (publishCatalog_ids ?_) (publishCatalog_ids ?_) fun u => ?_
  · have hperm := (publishFlush_perm t db.engine.sstables).append_right written
    rw [List.append_assoc] at hperm
    exact ((hperm.map _).nodup_iff).mpr hnd
  · have hperm : (publishCatalog (metas.map SstableMeta.id) written db.engine.sstables ++ [t]).Perm
        ((db.engine.sstables.filter fun u => u.metadata.id ∉ metas.map SstableMeta.id) ++
          ([t] ++ written)) := by
      refine ((publishCatalog_perm _ _ _).append_right _).trans ?_
      rw [List.append_assoc]
      exact List.perm_append_comm.append_left _
    refine ((hperm.map _).nodup_iff).mpr (hnd.sublist (List.Sublist.map _ ?_))
    exact List.filter_sublist.append (List.Sublist.refl _)
  · rw [mem_publishCatalog, publishFlush_mem, publishFlush_mem, mem_publishCatalog]
    constructor
    · rintro (⟨hu | rfl, hn⟩ | hu)
      · exact Or.inl (Or.inl ⟨hu, hn⟩)
      · exact Or.inr rfl
      · exact Or.inl (Or.inr hu)
    · rintro ((⟨hu, hn⟩ | hu) | rfl)
      · exact Or.inl ⟨Or.inl hu, hn⟩
      · exact Or.inr hu
      · exact Or.inl ⟨Or.inr rfl, hid⟩

theorem Stored.compactionPublish (h : db.Stored crc) (hb : db.engine.Backed clock accepted)
    (ha : db.compactionApplied = true) (hs : db.engine.compactionPublish = some st) :
    Stored crc { db with engine := st, compactionApplied := false } := by
  obtain ⟨job, metas, written, hc, rfl⟩ := compactionPublish_cases hs
  refine h.frame rfl ?_ rfl (fun t ht => ?_) rfl h.flush (by simp)
  · rw [durableTables_of_not_applied rfl, durableTables_of_applied ha hc]
    unfold base
    cases hfa : db.flushApply with
    | none => rfl
    | some f =>
      obtain ⟨covered, durable⟩ := f
      cases durable with
      | false => rfl
      | true =>
        obtain ⟨t, ht⟩ := h.flush (by simp [hfa])
        simp only [EngineState.flushPublish, ht, Option.map_some, Option.getD_some]
        exact (publish_comm hb hc ht).symm
  · simp only [allTables, writtenTables, hc, List.mem_append, mem_publishCatalog] at ht ⊢
    simp only [List.not_mem_nil, or_false] at ht
    tauto

theorem Stored.flushPublish (h : db.Stored crc) {covered : Nat}
    (hf : db.flushApply = some (covered, true)) (hs : db.engine.flushPublish = some st) (n : Nat) :
    Stored crc { db with engine := st, flushApply := none, unlinkUpTo := n } := by
  have hold : db.base = st := by simp [base, hf, hs]
  have hnew : base { db with engine := st, flushApply := none, unlinkUpTo := n } = st := rfl
  have hcomp : st.compacting = db.engine.compacting := hold ▸ db.base_compacting
  obtain ⟨t, ht, he⟩ := Option.map_eq_some_iff.mp hs
  refine h.frame rfl ?_ rfl (fun u hu => ?_) ?_ (by simp) ?_
  · unfold durableTables
    rw [hold, hnew]
    simp only [hcomp]
  · subst he
    simp only [allTables, writtenTables, List.mem_append, publishFlush_mem, ht,
      Option.toList_some, Option.toList_none, List.not_mem_nil, List.mem_singleton] at hu ⊢
    tauto
  · rw [← he]
  · intro ha
    obtain ⟨job, metas, written, hc⟩ := h.applied ha
    exact ⟨job, metas, written, hcomp.trans hc⟩

theorem find_sstFile {files : List LoadedSstable} (hnd : (files.map fun t => t.metadata.id).Nodup)
    {t : LoadedSstable} (ht : t ∈ files) :
    (files.map fun t => (t.metadata.id, t.reader)).find? (fun f => f.1 = t.metadata.id) =
      some (t.metadata.id, t.reader) := by
  rw [List.find?_map, Option.map_eq_some_iff]
  refine ⟨t, ?_, rfl⟩
  cases hf : files.find? ((fun f : Nat × SstableReader => decide (f.1 = t.metadata.id)) ∘
      fun t => (t.metadata.id, t.reader)) with
  | none =>
    have hno := List.find?_eq_none.mp hf t ht
    simp at hno
  | some u =>
    have hu := List.find?_some hf
    simp only [Function.comp_apply, decide_eq_true_eq] at hu
    rw [List.inj_on_of_nodup_map hnd (List.mem_of_find?_eq_some hf) ht hu]

/-- Open loads the published catalog, or the one a durable flush is about to publish. -/
theorem Stored.loadCatalog (h : db.Stored crc) (hb : db.engine.Backed clock accepted)
    (hcov : ∀ covered durable, db.flushApply = some (covered, durable) → covered < 256 ^ 8)
    {dir : DataDir} (hd : db.CrashLeaves crc dir) :
    ∃ state st tables, replay crc dir.manifest = .ok state ∧
      ZydecoDb.loadCatalog dir.sstFiles state = .ok tables ∧
      (st = db.engine ∨ db.engine.flushPublish = some st) ∧ st.Recoverable tables := by
  -- it is enough to find the catalog the records stand for
  have hload : ∀ {recs : List ManifestRecord} {st : EngineState} {tables : List LoadedSstable},
      (st = db.engine ∨ db.engine.flushPublish = some st) → st.Recoverable tables →
      (ManifestState.ofRecords recs).liveSstables.Perm (tables.map LoadedSstable.metadata) →
      ZydecoDb.loadCatalog dir.sstFiles (.ofRecords recs) = .ok tables := by
    intro recs st tables hst hrec hperm
    have hstb : st.Backed clock accepted := by
      rcases hst with rfl | hst
      · exact hb
      · exact hb.flushPublish hst
    obtain ⟨hcat, -, -, hsub⟩ := hstb.recoverable hrec
    refine loadCatalog_of_perm hcat.ids hperm fun t ht => ?_
    have hall : t ∈ db.engine.allTables := by
      have hts := hsub t ht
      rcases hst with rfl | hst
      · exact hts
      · obtain ⟨u, hu, rfl⟩ := Option.map_eq_some_iff.mp hst
        simp only [allTables, writtenTables, List.mem_append, publishFlush_mem, hu,
          Option.toList_some, Option.toList_none, List.not_mem_nil, List.mem_singleton] at hts ⊢
        tauto
    rw [hd.sstFiles]
    exact find_sstFile h.ids (h.files t hall)
  obtain ⟨recs, hm, hfits, hlive⟩ := h.manifest
  obtain ⟨added, hadded, n, hbytes⟩ := hd.manifest
  have hbase : db.base = db.engine ∨ db.engine.flushPublish = some db.base := db.base_eq
  have hnone : ∀ added' : List ManifestRecord, (∀ r ∈ added', r.Fits) →
      dir.manifest = db.manifest ++ ((manifestCodec crc).encodeAll added').take n →
      ∃ j, replay crc dir.manifest = .ok (.ofRecords (recs ++ added'.take j)) := by
    intro added' hfit hb'
    obtain ⟨j, -, hj⟩ := replay_cut crc hfits hfit n
    exact ⟨j, by rw [hb', hm, hj]⟩
  simp only [pendingAppends, List.mem_cons, List.mem_append] at hadded
  rcases hadded with rfl | hadded | hadded
  · obtain ⟨j, hj⟩ := hnone [] (by simp) hbytes
    rw [List.take_nil, List.append_nil] at hj
    exact ⟨_, db.base, _, hj, hload hbase h.durable_recoverable hlive, hbase, h.durable_recoverable⟩
  · cases hfl : db.engine.flushed with
    | none => simp [hfl] at hadded
    | some t =>
      cases hfa : db.flushApply with
      | none => simp [hfl, hfa] at hadded
      | some f =>
        obtain ⟨covered, durable⟩ := f
        cases durable with
        | true => simp [hfl, hfa] at hadded
        | false =>
          simp only [hfl, hfa, List.mem_singleton] at hadded
          subst hadded
          have hfit : t.metadata.Fits := h.fits t (h.files t (by simp [allTables, hfl]))
          obtain ⟨j, hj⟩ := hnone _ (flushRecords_fits hfit (hcov covered false hfa)) hbytes
          cases j with
          | zero =>
            rw [List.take_zero, List.append_nil] at hj
            exact ⟨_, db.base, _, hj, hload hbase h.durable_recoverable hlive, hbase,
              h.durable_recoverable⟩
          | succ j =>
            -- the flushed table is listed: the catalog of the flush apply made durable
            have hst' := h.flushDurable hb hfl hfa (hcov covered false hfa)
            obtain ⟨st, hst⟩ : ∃ st, db.engine.flushPublish = some st := by
              simp [EngineState.flushPublish, hfl]
            have hbase' : base { db with
                manifest := db.manifest ++ (manifestCodec crc).encodeAll (flushRecords t covered)
                flushApply := some (covered, true) } = st := by
              simp [base, hst]
            have hrec := hst'.durable_recoverable
            rw [hbase'] at hrec
            refine ⟨_, st, _, hj, hload (Or.inr hst) hrec ?_, Or.inr hst, hrec⟩
            rw [live_flushRecords]
            have hperm := (flush_durableTables hb hfl hfa (db.manifest ++
              (manifestCodec crc).encodeAll (flushRecords t covered))).map LoadedSstable.metadata
            rw [List.map_append] at hperm
            exact (hlive.append_right _).trans hperm.symm
  · cases ha : db.compactionApplied with
    | true => simp [ha] at hadded
    | false =>
      cases hc : db.engine.compacting with
      | none => simp [ha, hc] at hadded
      | some c =>
        obtain ⟨job, metas, pending, written⟩ := c
        cases pending with
        | cons run pending => simp [ha, hc] at hadded
        | nil =>
          simp only [ha, hc, List.mem_singleton] at hadded
          subst hadded
          obtain ⟨j, hj⟩ := hnone _ (compactionRecords_fits h hb hc) hbytes
          rw [durableTables_of_not_applied ha] at hlive
          have hrec : db.base.Recoverable
              (cutCatalog db.base.sstables (metas.map SstableMeta.id) written j) :=
            Or.inr ⟨job, metas, written, j, db.base_compacting.trans hc, rfl⟩
          exact ⟨_, db.base, _, hj,
            hload hbase hrec (live_compactionRecords hb hc hlive j), hbase, hrec⟩

end Db

end ZydecoDb
