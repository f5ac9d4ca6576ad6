import ZydecoDb.FlushedJobs
import ZydecoDb.GcRule
import ZydecoDb.Lib.Ceilings

namespace ZydecoDb

open Lib

abbrev CeilingsKept (clock : Nat) (kept all : List Version) : Prop :=
  Lib.CeilingsKept Version.userKey Version.seq (fun w => w.entry.isLive clock = false) kept all

theorem ceilingsKept_later {clock clock' : Nat} {kept all : List Version}
    (h : CeilingsKept clock kept all) (hle : clock ≤ clock') : CeilingsKept clock' kept all :=
  h.mono fun _ => Entry.isLive_antitone hle

structure EngineTrace where
  engine : EngineState
  history : List Version
  clock : Nat

namespace EngineTrace

def init : EngineTrace := ⟨.init, [], 0⟩

def step (cfg : CompactionConfig) (t : EngineTrace) (a : EngineAction) : Option EngineTrace :=
  (t.engine.step cfg a).map fun st =>
    ⟨st, t.history ++ a.ops.map (BatchOp.version t.engine.nextSeq),
      EngineState.clockAfter t.clock a⟩

end EngineTrace

namespace EngineState

def leftByPlan (cfg : CompactionConfig) (st : EngineState)
    (plan : CompactionJob × List SstableMeta) (nowMs : Nat) : List Version :=
  tableVersions (st.outsideTables (plan.2.map SstableMeta.id)) ++
    (tableVersions (st.inputTables (plan.2.map SstableMeta.id))).filter fun v =>
      (gcPolicy cfg st plan.1 nowMs).Keeps
        (tableVersions (st.inputTables (plan.2.map SstableMeta.id))) v

/-- A job that is submitted drops a version only where a read at that version's number would show
nothing alive in its place. -/
def JobKeepsCeilings (cfg : CompactionConfig) (st : EngineState) : EngineAction → Prop
  | .submitCompaction nowMs => ∀ plan ∈ planCompactionJob st.metas cfg,
    CeilingsKept nowMs (st.leftByPlan cfg plan nowMs) (tableVersions st.sstables)
  | _ => True

instance decidableJobKeepsCeilings (cfg : CompactionConfig) (st : EngineState) :
    (a : EngineAction) → Decidable (st.JobKeepsCeilings cfg a)
  | .submitCompaction _ => inferInstanceAs (Decidable (∀ plan ∈ planCompactionJob st.metas cfg, _))
  | .put _ _ _ | .del _ | .writeBatch _ _ | .syncWal | .freeze | .flushExecute _ | .flushPublish
  | .flushFailed | .writeCompactionOutput _ | .compactionPublish | .compactionFailed
  | .snapshotOwned | .snapshotDrop _ => isTrue trivial

variable {st st' : EngineState} {cfg : CompactionConfig}

theorem jobKeepsCeilings_of_not_onJob {a : EngineAction} (hj : a.onJob = false) :
    st.JobKeepsCeilings cfg a := by
  cases a with
  | submitCompaction nowMs => simp [EngineAction.onJob] at hj
  | _ => trivial

theorem Inv.commit_versions (hi : st.Inv) {ops : List BatchOp} (ho : ValidOps ops)
    (hc : st.commit ops = some st') (v : Version) :
    v ∈ st'.view.versions ↔
      v ∈ st.view.versions ∨ v ∈ ops.map (BatchOp.version st.nextSeq) := by
  have hact := hi.mem_commit_active ho (v := v)
  obtain ⟨-, rfl⟩ := commit_cases hc
  have hmap : v ∈ ops.map (BatchOp.version st.nextSeq) ↔ ∃ op ∈ ops, v = op.version st.nextSeq := by
    simp only [List.mem_map, eq_comm]
  rw [ReadView.mem_versions, ReadView.mem_versions, hmap]
  simp only [view, hact]
  rw [or_right_comm]

theorem mem_view_tables {v : Version} : v ∈ st.view.versions ↔
    (∃ m ∈ st.memEntries, v ∈ m) ∨ v ∈ tableVersions st.sstables := by
  rw [mem_view_versions, mem_tableVersions]

theorem leftVersions_subset (hi : st.Inv) {c : Compacting} (hc : c ∈ st.compacting) :
    ∀ v ∈ leftVersions st.sstables c, v ∈ tableVersions st.sstables := by
  intro v hv
  rcases List.mem_append.mp hv with hv | hv
  · obtain ⟨t, ht, hvt⟩ := mem_tableVersions.mp hv
    exact mem_tableVersions.mpr ⟨t, (mem_outsideOf.mp ht).1, hvt⟩
  · obtain ⟨r, hr, hvr⟩ := List.mem_flatten.mp hv
    obtain ⟨t, ht, -, hvt⟩ := (hi.compacting c hc).origin r hr v hvr
    exact mem_tableVersions.mpr ⟨t, ht, hvt⟩

theorem mem_leftVersions_submit (hi : st.Inv) (plan : CompactionJob × List SstableMeta)
    (nowMs n : Nat) (v : Version) :
    v ∈ leftVersions st.sstables ⟨plan.1, plan.2, compactionRuns (gcPolicy cfg st plan.1 nowMs) n
        ((st.inputTables (plan.2.map SstableMeta.id)).map fun t => t.reader.entries), []⟩ ↔
      v ∈ st.leftByPlan cfg plan nowMs := by
  have hflat : ((st.inputTables (plan.2.map SstableMeta.id)).map fun t => t.reader.entries).flatten =
      tableVersions (st.inputTables (plan.2.map SstableMeta.id)) := List.flatMap_def.symm
  have hco : Coherent (tableVersions (st.inputTables (plan.2.map SstableMeta.id))) :=
    JobResult.coherent_inputs hi _
  have hruns := mem_compactionRuns (p := gcPolicy cfg st plan.1 nowMs) (n := n) (v := v)
    (hi.inputs_sorted _) (hflat ▸ hco)
  rw [hflat] at hruns
  rw [leftVersions, leftByPlan, List.mem_append, List.mem_append, List.map_nil, List.nil_append,
    hruns, List.mem_filter, decide_eq_true_eq]
  rfl

theorem mem_leftVersions_flush (live : List LoadedSstable) {t : LoadedSstable} {c : Compacting}
    (hid : t.metadata.id ∉ c.inputMetas.map SstableMeta.id) (v : Version) :
    v ∈ leftVersions (publishCatalog [] [t] live) c ↔
      v ∈ leftVersions live c ∨ v ∈ t.reader.entries := by
  have hout : v ∈ tableVersions
      (outsideOf (publishCatalog [] [t] live) (c.inputMetas.map SstableMeta.id)) ↔
      v ∈ tableVersions (outsideOf live (c.inputMetas.map SstableMeta.id)) ∨
        v ∈ t.reader.entries := by
    simp only [mem_tableVersions, mem_outsideOf, publishFlush_mem]
    constructor
    · rintro ⟨u, ⟨hu | rfl, hn⟩, hv⟩
      · exact Or.inl ⟨u, ⟨hu, hn⟩, hv⟩
      · exact Or.inr hv
    · rintro (⟨u, ⟨hu, hn⟩, hv⟩ | hv)
      · exact ⟨u, ⟨Or.inl hu, hn⟩, hv⟩
      · exact ⟨t, ⟨Or.inr rfl, hid⟩, hv⟩
  rw [leftVersions, leftVersions, List.mem_append, List.mem_append, hout, or_right_comm]

theorem mem_publishCatalog_versions {live written : List LoadedSstable} (job : CompactionJob)
    {metas : List SstableMeta} (v : Version) :
    v ∈ tableVersions (publishCatalog (metas.map SstableMeta.id) written live) ↔
      v ∈ leftVersions live ⟨job, metas, [], written⟩ := by
  simp only [leftVersions, List.append_nil, List.mem_append, mem_tableVersions, mem_publishCatalog,
    mem_outsideOf, List.mem_flatten, List.mem_map, exists_exists_and_eq_and, or_and_right, exists_or]

theorem Inv.flushed_not_input (hi : st.Inv) {t : LoadedSstable} (ht : t ∈ st.flushed)
    {c : Compacting} (hc : c ∈ st.compacting) :
    t.metadata.id ∉ c.inputMetas.map SstableMeta.id := by
  intro hin
  obtain ⟨m, hm, he⟩ := List.mem_map.mp hin
  obtain ⟨u, hu, rfl⟩ := (hi.compacting c hc).inputs m hm
  exact hi.flushed_fresh ht u hu he

end EngineState

namespace EngineTrace

open EngineState

/-- Reads of the engine at every ceiling are backed by its history, now and once the job in flight
is published. -/
structure Inv (t : EngineTrace) : Prop where
  engine : t.engine.Inv
  idsByAge : t.engine.IdsByAge
  coherent : Coherent t.history
  seq_lt : ∀ v ∈ t.history, v.seq < t.engine.nextSeq
  held : ∀ v ∈ t.engine.view.versions, v ∈ t.history
  kept : CeilingsKept t.clock t.engine.view.versions t.history
  job : ∀ c ∈ t.engine.compacting,
    CeilingsKept t.clock (leftVersions t.engine.sstables c) (tableVersions t.engine.sstables)

variable {t : EngineTrace} {st : EngineState} {cfg : CompactionConfig}

theorem inv_init : EngineTrace.init.Inv where
  engine := EngineState.inv_init
  idsByAge := idsByAge_init
  coherent := by simp [init, Lib.Coherent]
  seq_lt := by simp [init]
  held := by simp [init, mem_view_versions, memEntries, EngineState.init, Memtable.empty]
  kept := by simp [init, Lib.CeilingsKept]
  job := by simp [init, EngineState.init]

section

variable (h : t.Inv)
include h

theorem Inv.frame (hi : st.Inv) (hids : st.IdsByAge)
    (hv : ∀ v, v ∈ st.view.versions ↔ v ∈ t.engine.view.versions)
    (hn : t.engine.nextSeq ≤ st.nextSeq)
    (hj : ∀ c ∈ st.compacting,
      CeilingsKept t.clock (leftVersions st.sstables c) (tableVersions st.sstables)) :
    Inv ⟨st, t.history, t.clock⟩ where
  engine := hi
  idsByAge := hids
  coherent := h.coherent
  seq_lt v hm := (h.seq_lt v hm).trans_le hn
  held v hm := h.held v ((hv v).mp hm)
  kept := h.kept.grow [] hi.coherent (by simpa using hv) (by simp) (by simp)
  job := hj

theorem Inv.commit {ops : List BatchOp} (ho : ValidOps ops) (hc : t.engine.commit ops = some st) :
    Inv ⟨st, t.history ++ ops.map (BatchOp.version t.engine.nextSeq), t.clock⟩ := by
  have hi := h.engine.commit ho hc
  have hvers := h.engine.commit_versions ho hc
  obtain ⟨hs1, hs2, hs3⟩ := commit_tables hc
  have hids : st.IdsByAge := idsByAge_of_tables_eq h.idsByAge hs1 hs2 hs3
  have hseq : ∀ v ∈ ops.map (BatchOp.version t.engine.nextSeq), v.seq = t.engine.nextSeq := by
    intro v hv
    obtain ⟨op, -, rfl⟩ := List.mem_map.mp hv
    exact BatchOp.version_seq _ _
  have hnext : st.nextSeq = t.engine.nextSeq + 1 := by
    rw [(commit_cases hc).2]
  refine ⟨hi, hids, coherent_snoc h.coherent h.seq_lt ho, fun v hv => ?_, fun v hv => ?_, ?_, ?_⟩
  · show v.seq < st.nextSeq
    rcases List.mem_append.mp hv with hv | hv
    · have hlt := h.seq_lt v hv
      omega
    · have he := hseq v hv
      omega
  · exact List.mem_append.mpr (((hvers v).mp hv).imp_left (h.held v))
  · refine h.kept.grow _ hi.coherent hvers (fun v hv => List.mem_append.mp hv) fun v hv n hn => ?_
    rw [hseq n hn]
    exact h.seq_lt v hv
  · intro c hcc
    rw [hs1]
    exact h.job c (hs3 ▸ hcc)

theorem Inv.flushPublish (hf : t.engine.flushPublish = some st) : Inv ⟨st, t.history, t.clock⟩ := by
  have hi := h.engine.flushPublish hf
  have hids := h.idsByAge.flushPublish hf
  have hvers := flushPublish_versions h.engine hf
  have hco : Coherent (tableVersions st.sstables) := hi.coherent_tables
  obtain ⟨u, hu, rfl⟩ := Option.map_eq_some_iff.mp hf
  refine h.frame hi hids hvers (le_refl _) fun c hc => ?_
  have hleft := mem_leftVersions_flush t.engine.sstables
    (h.engine.flushed_not_input hu hc)
  refine (h.job c hc).grow _ (hco.sublist ?_) hleft (fun v hv => mem_publishFlush_versions.mp hv)
    fun v hv n hn => h.engine.flushed_newer hu hn v hv
  intro v hv
  refine mem_publishFlush_versions.mpr (((hleft v).mp hv).imp_left fun hv => ?_)
  exact leftVersions_subset h.engine hc v hv

theorem Inv.submitCompaction {now : Nat}
    (hk : t.engine.JobKeepsCeilings cfg (.submitCompaction now))
    (hs : t.engine.submitCompaction cfg now = some st) :
    Inv ⟨st, t.history, max t.clock now⟩ := by
  have hi := h.engine.submitCompaction hs
  have hids := h.idsByAge.submitCompaction hs
  obtain ⟨-, plan, hp, rfl⟩ := submitCompaction_cases hs
  refine ⟨hi, hids, h.coherent, h.seq_lt, h.held,
    ceilingsKept_later h.kept (le_max_left _ _), fun c hc => ?_⟩
  have hco := hi.coherent_tables.sublist (leftVersions_subset hi hc)
  cases Option.mem_some_iff.mp hc
  refine ceilingsKept_later ?_ (le_max_right _ _)
  refine (hk plan hp).grow [] hco (fun v => ?_) (fun v hv => Or.inl hv) (by simp)
  rw [or_iff_left (by simp)]
  exact mem_leftVersions_submit h.engine plan now _ v

theorem Inv.writeCompactionOutput {bloom : Bytes → Bool}
    (hn : t.engine.OutputNewest (.writeCompactionOutput bloom))
    (hs : t.engine.writeCompactionOutput cfg bloom = some st) : Inv ⟨st, t.history, t.clock⟩ := by
  have hi := h.engine.writeCompactionOutput hs
  have hids := h.idsByAge.writeCompactionOutput h.engine hn hs
  obtain ⟨job, metas, run, pending, written, f, hc, -, rfl⟩ := writeCompactionOutput_cases hs
  refine h.frame hi hids (fun v => Iff.rfl) (le_refl _) fun c hcc => ?_
  have hjob := h.job _ hc
  cases Option.mem_some_iff.mp hcc
  rw [leftVersions, runs_written]
  exact hjob

theorem Inv.compactionPublish (hs : t.engine.compactionPublish = some st) :
    Inv ⟨st, t.history, t.clock⟩ := by
  have hi := h.engine.compactionPublish hs
  have hids := h.idsByAge.compactionPublish hs
  have hsub := compactionPublish_versions h.engine hs
  obtain ⟨job, metas, written, hc, rfl⟩ := compactionPublish_cases hs
  -- the memtables are newer than every table, so the job's drops are all that the ceilings meet
  have hround : CeilingsKept t.clock
      (view { t.engine with
        sstables := publishCatalog (metas.map SstableMeta.id) written t.engine.sstables
        compacting := none }).versions t.engine.view.versions := by
    refine (h.job _ hc).grow t.engine.memEntries.flatten hi.coherent (fun v => ?_)
      (fun v hv => ?_) fun v hv n hn => ?_
    · rw [mem_view_tables, mem_publishCatalog_versions job, or_comm, List.mem_flatten]
      rfl
    · rw [or_comm, List.mem_flatten]
      exact mem_view_tables.mp hv
    · obtain ⟨m, hm, hnm⟩ := List.mem_flatten.mp hn
      obtain ⟨u, hu, hvu⟩ := mem_tableVersions.mp hv
      exact h.engine.mems_newer m hm u hu n hnm v hvu
  refine ⟨hi, hids, h.coherent, h.seq_lt, fun v hv => h.held v (hsub v hv), ?_, by simp⟩
  exact hround.trans h.engine.coherent h.kept hsub

theorem Inv.freeze (hf : t.engine.freeze = some st) : Inv ⟨st, t.history, t.clock⟩ := by
  have hi := h.engine.freeze hf
  obtain ⟨-, rfl⟩ := freeze_cases hf
  refine h.frame hi (idsByAge_of_tables_eq h.idsByAge rfl rfl rfl) (fun v => ?_) (le_refl _) h.job
  simp only [mem_view_versions, memEntries, Memtable.empty, List.reverse_append,
    List.reverse_singleton, List.map_cons, List.singleton_append, List.mem_cons,
    exists_eq_or_imp, List.not_mem_nil, false_or]

/-- A job that keeps the ceilings in use keeps what they read. -/
theorem inv_step {a : EngineAction} {t' : EngineTrace} (hn : t.engine.OutputNewest a)
    (hk : t.engine.JobKeepsCeilings cfg a) (hs : t.step cfg a = some t') : t'.Inv := by
  obtain ⟨st, he, rfl⟩ := Option.map_eq_some_iff.mp hs
  have hi := EngineState.inv_step h.engine he
  have hids := idsByAge_step h.idsByAge h.engine hn he
  -- only writes add to the history
  have hsame : ∀ {clock}, Inv ⟨st, t.history, clock⟩ → Inv ⟨st, t.history ++ [], clock⟩ := by
    intro clock hinv
    rwa [List.append_nil]
  cases a with
  | put key value expiresAt =>
    obtain ⟨ho, hc⟩ := put_cases he
    exact h.commit ho hc
  | del key =>
    obtain ⟨ho, hc⟩ := del_cases he
    exact h.commit ho hc
  | writeBatch ops sysPuts =>
    obtain ⟨ho, hc⟩ := writeBatch_cases he
    exact h.commit ho hc
  | syncWal | flushFailed | snapshotOwned | snapshotDrop seqUpper =>
    cases Option.some.inj he
    exact hsame (h.frame hi hids (fun v => Iff.rfl) (le_refl _) h.job)
  | freeze => exact hsame (h.freeze he)
  | flushExecute bloom =>
    obtain ⟨-, mt, rest, -, -, rfl⟩ := flushExecute_cases he
    exact hsame (h.frame hi hids (fun v => Iff.rfl) (le_refl _) h.job)
  | flushPublish => exact hsame (h.flushPublish he)
  | submitCompaction nowMs => exact hsame (h.submitCompaction hk he)
  | writeCompactionOutput bloom => exact hsame (h.writeCompactionOutput hn he)
  | compactionPublish => exact hsame (h.compactionPublish he)
  | compactionFailed =>
    cases Option.some.inj he
    exact hsame (h.frame hi hids (fun v => Iff.rfl) (le_refl _)
      (by simp [EngineState.compactionFailed]))

end

end EngineTrace

end ZydecoDb
