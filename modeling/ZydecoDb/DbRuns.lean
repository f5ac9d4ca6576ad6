import ZydecoDb.DbInvariant

namespace ZydecoDb

open Lib EngineState

namespace Db

/-- The engine's memory, its tables with the manifest, and its WAL agree on the accepted writes. -/
structure Inv (crc : Bytes → UInt32) (db : Db) : Prop where
  backed : db.engine.Backed db.clock db.accepted
  stored : db.Stored crc
  logged : db.Logged crc

/-- What a step must meet for a crash to be recoverable: jobs keep what the reads need, nothing is
written behind a part of a record, and a roll seals a file whose bytes are all durable. -/
def Safe (crc : Bytes → UInt32) (cfg : CompactionConfig) (db : Db) : DbAction → Prop
  | .engine a => db.engine.OutputNewest a ∧ db.engine.JobKeeps cfg a ∧
    (a.walEntry db.engine.nextSeq ≠ none → db.wal.Clean crc)
  | .writeFailed _ _ => db.wal.Clean crc
  | .rollBegin _ => db.wal.Clean crc ∧ (db.engine.syncedSeq < db.engine.bufferedSeq ∨
    db.wal.active.bytes.length ≤ db.wal.active.synced)
  | _ => True

variable {crc : Bytes → UInt32} {db db' : Db} {cfg : CompactionConfig} {st : EngineState}

theorem inv_init : Db.init.Inv crc := ⟨backed_init, stored_init, logged_init⟩

theorem Inv.frame (h : db.Inv crc) (hb : st.Backed db.clock db.accepted)
    (hs : st.sstables = db.engine.sstables) (hf : st.flushed = db.engine.flushed)
    (hc : st.compacting = db.engine.compacting) (hid : st.nextSstableId = db.engine.nextSstableId)
    (hn : db.engine.nextSeq ≤ st.nextSeq) (hbuf : db.engine.bufferedSeq ≤ st.bufferedSeq) :
    Inv crc { db with engine := st } := by
  refine ⟨hb, h.stored.frame rfl (durableTables_congr rfl rfl hs hf hc) rfl (fun t ht => ?_) hid
    (fun ha => hf ▸ h.stored.flush ha) fun ha => hc ▸ h.stored.applied ha,
    h.logged.frame rfl rfl rfl hn hbuf (by rw [hs]) (fun c d hfa t ht => ?_) ?_⟩
  · simpa [allTables, writtenTables, hs, hf, hc] using ht
  · exact h.logged.submitted c d hfa t (hf ▸ ht)
  · rw [hs]
    exact h.logged.unlinkable

variable {a : EngineAction}

theorem Inv.write (h : db.Inv crc) (hc : db.wal.Clean crc) {e : WalEntry} (hfit : e.Fits)
    (he : a.walEntry db.engine.nextSeq = some e) (hs : db.engine.step cfg a = some st) :
    Inv crc { db with
      engine := st
      wal := db.wal.append crc e
      issued := db.issued ++ [e]
      accepted := db.accepted ++ [e] } := by
  refine ⟨h.backed.write he hs, ?_, h.logged.write hc hfit he hs⟩
  obtain ⟨-, hcommit⟩ := step_write_cases he hs
  obtain ⟨-, rfl⟩ := commit_cases hcommit
  exact h.stored.frame rfl (durableTables_congr rfl rfl rfl rfl rfl) rfl (fun _ ht => ht) rfl
    h.stored.flush h.stored.applied

theorem Inv.writeFailed (h : db.Inv crc) (hc : db.wal.Clean crc) {e : WalEntry} (hfit : e.Fits)
    (he : a.walEntry db.engine.nextSeq = some e) (hs : db.engine.step cfg a = some st) (n : Nat) :
    Inv crc { db with
      engine := { db.engine with nextSeq := db.engine.nextSeq + 1 }
      wal := db.wal.appendFailed crc e n
      issued := db.issued ++ [e] } := by
  obtain ⟨-, hcommit⟩ := step_write_cases he hs
  obtain ⟨hlt, -⟩ := commit_cases hcommit
  refine ⟨h.backed.skipSeq hlt, ?_, h.logged.writeFailed hc hfit he hs n⟩
  exact h.stored.frame rfl (durableTables_congr rfl rfl rfl rfl rfl) rfl (fun _ ht => ht) rfl
    h.stored.flush h.stored.applied

theorem Inv.setWal (h : db.Inv crc) {wal : Wal} (hw : Logged crc { db with wal := wal }) :
    Inv crc { db with wal := wal } :=
  ⟨h.backed, h.stored.frame rfl (durableTables_congr rfl rfl rfl rfl rfl) rfl (fun _ ht => ht) rfl
    h.stored.flush h.stored.applied, hw⟩

theorem Inv.syncWal (h : db.Inv crc) : db.syncWal.Inv crc := by
  unfold Db.syncWal
  split
  · exact (h.setWal h.logged.sync).frame (h.backed.setMarks _ _ _) rfl rfl rfl rfl le_rfl le_rfl
  · exact h

variable {bloom : Bytes → Bool}

theorem flushExecute_flushed (hs : db.engine.flushExecute bloom = some st) (h : db.Stored crc) :
    db.flushApply = none := by
  obtain ⟨hn, -⟩ := flushExecute_cases hs
  by_contra hne
  obtain ⟨t, ht⟩ := h.flush hne
  exact absurd (ht.symm.trans hn) (by simp)

theorem Inv.flushExecute (h : db.Inv crc) (hb : st.Backed db.clock db.accepted)
    (hs : db.engine.flushExecute bloom = some st) (hfit : ∀ t ∈ st.flushed, t.metadata.Fits) :
    Inv crc { db with engine := st, sstFiles := db.sstFiles ++ st.flushed.toList } := by
  have hnone := flushExecute_flushed hs h.stored
  obtain ⟨hn, mt, rest, himm, -, rfl⟩ := flushExecute_cases hs
  refine ⟨hb, h.stored.newFile (t := buildSstable db.engine.nextSstableId 0 mt.entries (some bloom))
    rfl ?_ rfl rfl (hfit _ rfl) (fun u hu => ?_) rfl (fun _ => ⟨_, rfl⟩) h.stored.applied,
    h.logged.frame rfl rfl rfl le_rfl le_rfl le_rfl (fun c d hf => ?_) h.logged.unlinkable⟩
  · unfold durableTables base
    simp [hnone]
  · simp only [allTables, writtenTables, Option.toList_some, List.mem_append, List.mem_singleton]
      at hu ⊢
    tauto
  · exact absurd (hnone.symm.trans hf) (by simp)

theorem Inv.writeCompactionOutput (h : db.Inv crc) (hb : st.Backed db.clock db.accepted)
    (hs : db.engine.writeCompactionOutput cfg bloom = some st)
    (hfit : ∀ t ∈ (st.compacting.toList.flatMap Compacting.written).getLast?, t.metadata.Fits) :
    Inv crc { db with
      engine := st
      sstFiles := db.sstFiles ++
        ((st.compacting.toList.flatMap Compacting.written).getLast?).toList } := by
  obtain ⟨job, metas, run, pending, written, f, hc, -, rfl⟩ := writeCompactionOutput_cases hs
  have happ : db.compactionApplied = false := by
    refine Bool.eq_false_iff.mpr fun ha => ?_
    obtain ⟨job', metas', written', hc'⟩ := h.stored.applied ha
    rw [hc] at hc'
    simp at hc'
  simp only [Option.toList_some, List.flatMap_singleton, List.getLast?_append,
    List.getLast?_singleton, Option.some_or] at hfit ⊢
  refine ⟨hb, h.stored.newFile (t := buildSstable db.engine.nextSstableId job.outputLevel run f)
    rfl ?_ rfl rfl (hfit _ rfl) (fun u hu => ?_) rfl h.stored.flush (by simp [happ]),
    h.logged.frame rfl rfl rfl le_rfl le_rfl le_rfl h.logged.submitted h.logged.unlinkable⟩
  · rw [durableTables_of_not_applied (by exact happ), durableTables_of_not_applied happ]
    exact base_sstables_congr rfl rfl rfl
  · simp only [allTables, writtenTables, hc, List.mem_append, List.mem_singleton] at hu ⊢
    tauto

theorem Inv.submitCompaction (h : db.Inv crc) {now : Nat}
    (hb : st.Backed (max db.clock now) db.accepted)
    (hs : db.engine.submitCompaction cfg now = some st) :
    Inv crc { db with engine := st, clock := max db.clock now } := by
  obtain ⟨hn, plan, -, rfl⟩ := submitCompaction_cases hs
  have happ : db.compactionApplied = false := by
    refine Bool.eq_false_iff.mpr fun ha => ?_
    obtain ⟨job, metas, written, hc⟩ := h.stored.applied ha
    exact absurd (hc.symm.trans hn) (by simp)
  refine ⟨hb, h.stored.frame rfl ?_ rfl (fun t ht => ?_) rfl h.stored.flush (by simp [happ]),
    h.logged.frame rfl rfl rfl le_rfl le_rfl le_rfl h.logged.submitted h.logged.unlinkable⟩
  · rw [durableTables_of_not_applied (by exact happ), durableTables_of_not_applied happ]
    exact base_sstables_congr rfl rfl rfl
  · simpa [allTables, writtenTables, hn] using ht

theorem Inv.flushPublish (h : db.Inv crc) (hb : st.Backed db.clock db.accepted)
    (hs : db.engine.flushPublish = some st) {covered : Nat}
    (hf : db.flushApply = some (covered, true)) :
    Inv crc { db with
      engine := st, flushApply := none, unlinkUpTo := max db.unlinkUpTo covered } := by
  obtain ⟨t, ht, he⟩ := Option.map_eq_some_iff.mp hs
  have hmax : sstableMaxSeq st.sstables = t.metadata.maxSeq := by
    rw [← he]
    exact h.backed.inv.flushed_maxSeq ht
  have hgrow : sstableMaxSeq db.engine.sstables ≤ sstableMaxSeq st.sstables := by
    rw [hmax]
    refine sstableMaxSeq_le h.backed.inv.tables fun v hv => ?_
    obtain ⟨x, hx, hxs⟩ := (h.backed.inv.flushed t ht).1.maxSeq_mem
    exact hxs ▸ (h.backed.inv.flushed_newer ht hx v hv).le
  have hcov := h.logged.submitted covered true hf t ht
  have hunlink := h.logged.unlinkable
  refine ⟨hb, h.stored.flushPublish hf hs _, h.logged.frame rfl rfl rfl ?_ ?_ hgrow (by simp) ?_⟩
  · rw [← he]
  · rw [← he]
    exact le_max_left _ _
  · refine ⟨max_lt hunlink.1 hcov.1, fun f hf' hle e hef hacc => ?_⟩
    rcases le_max_iff.mp hle with hle | hle
    · exact (hunlink.2 f hf' hle e hef hacc).trans hgrow
    · exact (hcov.2 f hf' hle e hef hacc).trans hmax.ge

theorem Inv.compactionPublish (h : db.Inv crc) (hb : st.Backed db.clock db.accepted)
    (hs : db.engine.compactionPublish = some st) (ha : db.compactionApplied = true) :
    Inv crc { db with engine := st, compactionApplied := false } := by
  have hst := h.stored.compactionPublish h.backed ha hs
  obtain ⟨job, metas, written, hc, rfl⟩ := compactionPublish_cases hs
  obtain ⟨-, hmax, -⟩ := h.backed.cut hc (written.length + db.engine.sstables.length + 1)
  rw [cutCatalog_all] at hmax
  refine ⟨hb, hst, h.logged.frame rfl rfl rfl le_rfl le_rfl hmax.ge h.logged.submitted ?_⟩
  exact h.logged.unlinkable.mono hmax.ge

theorem effect_write_cases {e : WalEntry} (he : a.walEntry db.engine.nextSeq = some e)
    (h : db.effect crc st a = some db') :
    e.Fits ∧ db' = { db with
      engine := st
      wal := db.wal.append crc e
      issued := db.issued ++ [e]
      accepted := db.accepted ++ [e] } := by
  cases a <;> simp only [EngineAction.walEntry, reduceCtorEq, Option.some.injEq] at he
  all_goals
    subst he
    simp only [Db.effect, EngineAction.walEntry, Option.bind_some] at h
    split at h
    next hg => exact ⟨hg.1, (Option.some.inj h).symm⟩
    next => simp at h

theorem Inv.effect (h : db.Inv crc) (hsafe : db.Safe crc cfg (.engine a))
    (hs : db.engine.step cfg a = some st) (he : db.effect crc st a = some db') : db'.Inv crc := by
  obtain ⟨hnew, hkeeps, hclean⟩ := hsafe
  have hback : a.walEntry db.engine.nextSeq = none →
      st.Backed (clockAfter db.clock a) db.accepted := fun hn =>
    backed_step h.backed hn hnew hkeeps hs
  have hwrite : ∀ e, a.walEntry db.engine.nextSeq = some e → db'.Inv crc := by
    intro e hwe
    obtain ⟨hfit, rfl⟩ := effect_write_cases hwe he
    exact h.write (hclean (by simp [hwe])) hfit hwe hs
  cases a with
  | put key value expiresAt => exact hwrite _ rfl
  | del key => exact hwrite _ rfl
  | writeBatch ops sysPuts => exact hwrite _ rfl
  | syncWal =>
    cases Option.some.inj he
    exact h.syncWal
  | freeze =>
    cases Option.some.inj he
    have hb := hback rfl
    obtain ⟨-, rfl⟩ := freeze_cases hs
    exact h.frame hb rfl rfl rfl rfl le_rfl le_rfl
  | snapshotOwned =>
    cases Option.some.inj he
    cases Option.some.inj hs
    exact h.frame (hback rfl) rfl rfl rfl rfl le_rfl le_rfl
  | snapshotDrop seqUpper =>
    cases Option.some.inj he
    cases Option.some.inj hs
    exact h.frame (hback rfl) rfl rfl rfl rfl le_rfl le_rfl
  | flushExecute bloom =>
    simp only [Db.effect] at he
    obtain ⟨hfit, ⟨⟩⟩ := Option.ite_none_right_eq_some.mp he
    exact h.flushExecute (hback rfl) hs hfit
  | flushPublish =>
    simp only [Db.effect] at he
    split at he
    next covered hf =>
      cases Option.some.inj he
      exact h.flushPublish (hback rfl) hs hf
    next => simp at he
  | flushFailed =>
    simp only [Db.effect] at he
    obtain ⟨hnone, ⟨⟩⟩ := Option.ite_none_right_eq_some.mp he
    cases Option.some.inj hs
    refine ⟨hback rfl, h.stored.frame rfl ?_ rfl (fun t ht => ?_) rfl (by simp [hnone])
      h.stored.applied, h.logged.frame rfl rfl rfl le_rfl le_rfl le_rfl (by simp [hnone])
      h.logged.unlinkable⟩
    · unfold durableTables base
      simp [hnone, EngineState.flushFailed]
    · simp only [allTables, writtenTables, EngineState.flushFailed, Option.toList_none,
        List.nil_append, List.mem_append] at ht ⊢
      tauto
  | submitCompaction nowMs =>
    cases Option.some.inj he
    exact h.submitCompaction (hback rfl) hs
  | writeCompactionOutput bloom =>
    simp only [Db.effect] at he
    obtain ⟨hfit, ⟨⟩⟩ := Option.ite_none_right_eq_some.mp he
    exact h.writeCompactionOutput (hback rfl) hs hfit
  | compactionPublish =>
    simp only [Db.effect] at he
    obtain ⟨ha, ⟨⟩⟩ := Option.ite_none_right_eq_some.mp he
    exact h.compactionPublish (hback rfl) hs ha
  | compactionFailed =>
    simp only [Db.effect] at he
    obtain ⟨ha, ⟨⟩⟩ := Option.ite_none_left_eq_some.mp he
    cases Option.some.inj hs
    have happ : db.compactionApplied = false := by simpa using ha
    refine ⟨hback rfl, h.stored.frame rfl ?_ rfl (fun t ht => ?_) rfl h.stored.flush
      (by simp [happ]), h.logged.frame rfl rfl rfl le_rfl le_rfl le_rfl h.logged.submitted
      h.logged.unlinkable⟩
    · rw [durableTables_of_not_applied (by exact happ), durableTables_of_not_applied happ]
      exact base_sstables_congr rfl rfl rfl
    · simp only [allTables, writtenTables, EngineState.compactionFailed, List.append_nil,
        List.mem_append] at ht ⊢
      tauto

theorem syncWal_durable (h : db.engine.syncedSeq < db.engine.bufferedSeq ∨
    db.wal.active.bytes.length ≤ db.wal.active.synced) :
    db.syncWal.wal.active.bytes.length ≤ db.syncWal.wal.active.synced := by
  unfold Db.syncWal
  split
  next => exact le_refl _
  next hn => exact h.resolve_left hn

theorem syncWal_clean (h : db.wal.Clean crc) : db.syncWal.wal.Clean crc := by
  unfold Db.syncWal
  split
  · exact h
  · exact h

theorem syncWal_bufferedSeq (db : Db) : db.syncWal.engine.bufferedSeq = db.engine.bufferedSeq := by
  unfold Db.syncWal
  split <;> rfl

theorem syncWal_active_id (db : Db) : db.syncWal.wal.active.id = db.wal.active.id := by
  unfold Db.syncWal
  split <;> rfl

theorem Stored.unlinkSstable (h : db.Stored crc) {id : Nat}
    (hid : ∀ t ∈ db.engine.allTables, t.metadata.id ≠ id) :
    Stored crc { db with sstFiles := db.sstFiles.filter fun t => t.metadata.id ≠ id } := by
  refine ⟨fun t ht => ?_, h.ids.sublist (List.filter_sublist.map _),
    fun t ht => h.ids_lt t (List.mem_filter.mp ht).1, fun t ht => h.fits t (List.mem_filter.mp ht).1,
    h.flush, h.applied, h.manifest⟩
  exact List.mem_filter.mpr ⟨h.files t ht, decide_eq_true (hid t ht)⟩

theorem inv_step {a : DbAction} (h : db.Inv crc) (hsafe : db.Safe crc cfg a)
    (hs : db.step crc cfg a = some db') : db'.Inv crc := by
  cases a with
  | engine a =>
    obtain ⟨st, hst, he⟩ := Option.bind_eq_some_iff.mp hs
    exact h.effect hsafe hst he
  | writeFailed a n =>
    obtain ⟨st, hst, hs⟩ := Option.bind_eq_some_iff.mp hs
    obtain ⟨e, he, hs⟩ := Option.bind_eq_some_iff.mp hs
    obtain ⟨hg, ⟨⟩⟩ := Option.ite_none_right_eq_some.mp hs
    exact h.writeFailed hsafe hg.1 he hst n
  | rollBegin nextEntrySize =>
    simp only [Db.step] at hs
    obtain ⟨hg, ⟨⟩⟩ := Option.ite_none_right_eq_some.mp hs
    have hsync := h.syncWal
    have hroll := hsync.logged.rollBegin (syncWal_clean hsafe.1) (syncWal_durable hsafe.2)
      (by rw [syncWal_active_id]; exact hg.2.2) (db.engine.nextSeq + 1)
    rw [syncWal_bufferedSeq] at hroll
    exact hsync.setWal hroll
  | rollEnd =>
    cases Option.some.inj hs
    exact h.setWal h.logged.rollEnd
  | flushSubmit =>
    simp only [Db.step] at hs
    split at hs
    next t ht hf =>
      cases Option.some.inj hs
      refine ⟨h.backed, h.stored.frame rfl ?_ rfl (fun _ ht => ht) rfl (fun _ => ⟨t, ht⟩)
        h.stored.applied, h.logged.flushSubmit ht⟩
      unfold durableTables base
      simp [hf]
    next => simp at hs
  | flushDurable =>
    simp only [Db.step] at hs
    split at hs
    next t covered ht hf =>
      cases Option.some.inj hs
      have hcov := h.logged.submitted covered false hf t ht
      refine ⟨h.backed, h.stored.flushDurable h.backed ht hf (hcov.1.trans h.logged.id_lt),
        h.logged.frame rfl rfl rfl le_rfl le_rfl le_rfl (fun c d hf' u hu => ?_)
        h.logged.unlinkable⟩
      cases Option.some.inj hf'
      exact h.logged.submitted covered false hf u hu
    next => simp at hs
  | compactionDurable =>
    simp only [Db.step] at hs
    split at hs
    next job metas written hc ha =>
      cases Option.some.inj hs
      exact ⟨h.backed, h.stored.compactionDurable h.backed hc ha,
        h.logged.frame rfl rfl rfl le_rfl le_rfl le_rfl h.logged.submitted h.logged.unlinkable⟩
    next => simp at hs
  | unlinkSegment id =>
    simp only [Db.step] at hs
    obtain ⟨hid, ⟨⟩⟩ := Option.ite_none_right_eq_some.mp hs
    exact h.setWal (h.logged.unlink hid)
  | unlinkSstable id =>
    simp only [Db.step] at hs
    obtain ⟨hall, ⟨⟩⟩ := Option.ite_none_right_eq_some.mp hs
    refine ⟨h.backed, h.stored.unlinkSstable fun t ht => ?_, h.logged.frame rfl rfl rfl le_rfl
      le_rfl le_rfl h.logged.submitted h.logged.unlinkable⟩
    rw [List.all_eq_true] at hall
    have hmem : t ∈ db.engine.sstables ++ db.engine.flushed.toList ++
        db.engine.compacting.toList.flatMap Compacting.written := by
      rw [List.append_assoc]
      cases hc : db.engine.compacting <;> simpa [allTables, writtenTables, hc] using ht
    exact of_decide_eq_true (hall t hmem)

end Db

end ZydecoDb
