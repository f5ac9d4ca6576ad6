import ZydecoDb.DbRuns
import ZydecoDb.QueuedEngine

namespace ZydecoDb

open Lib EngineState

def DbAction.submits : DbAction → Bool
  | .engine a => a.submits
  | _ => false

/-- Table files are removed behind a publish, so never those a job is about to publish. -/
def DbAction.spares (j : Compacting × Bool) : DbAction → Bool
  | .unlinkSstable id => j.1.written.all fun t => t.metadata.id ≠ id
  | _ => true

namespace Db

variable {crc : Bytes → UInt32} {cfg : CompactionConfig} {db db' : Db}

/-- The database with the jobs that are written and not published, each with whether its append to
the manifest is durable. -/
def jobs (crc : Bytes → UInt32) (cfg : CompactionConfig) :
    JobSystem Db DbAction (Compacting × Bool) where
  step := Db.step crc cfg
  job db := db.engine.compacting.map fun c => (c, db.compactionApplied)
  setJob db x :=
    { db with
      engine := { db.engine with compacting := x.map Prod.fst }
      compactionApplied := (x.map Prod.snd).getD false }
  starts := DbAction.submits
  done j := j.1.pending.isEmpty
  spares := DbAction.spares

def withJob (db : Db) (j : Compacting × Bool) : Db :=
  { db with engine := { db.engine with compacting := some j.1 }, compactionApplied := j.2 }

theorem syncWal_withJob (db : Db) (j : Compacting × Bool) :
    (db.withJob j).syncWal = db.syncWal.withJob j := by
  unfold Db.syncWal
  by_cases h : db.engine.syncedSeq < db.engine.bufferedSeq
  · rw [if_pos h]
    exact if_pos h
  · rw [if_neg h]
    exact if_neg h

theorem syncWal_compacting (db : Db) : db.syncWal.engine.compacting = db.engine.compacting := by
  unfold Db.syncWal
  split <;> rfl

theorem effect_besideJob {a : EngineAction} {st : EngineState} (j : Compacting × Bool)
    (hn : db.engine.compacting = none) (hst : st.compacting = none) (ha : a.onJob = false)
    (h : db.effect crc st a = some db') :
    db'.engine.compacting = none ∧
      (db.withJob j).effect crc { st with compacting := some j.1 } a = some (db'.withJob j) := by
  cases a with
  | put _ _ _ | del _ | writeBatch _ _ =>
    simp only [Db.effect] at h ⊢
    obtain ⟨e, he, h⟩ := Option.bind_eq_some_iff.mp h
    obtain ⟨hg, ⟨⟩⟩ := Option.ite_none_right_eq_some.mp h
    exact ⟨hst, Option.bind_eq_some_iff.mpr ⟨e, he, if_pos hg⟩⟩
  | syncWal =>
    cases Option.some.inj h
    exact ⟨(syncWal_compacting db).trans hn, congrArg some (syncWal_withJob db j)⟩
  | freeze | snapshotOwned | snapshotDrop _ =>
    cases Option.some.inj h
    exact ⟨hst, rfl⟩
  | flushExecute bloom =>
    simp only [Db.effect] at h ⊢
    obtain ⟨hfit, ⟨⟩⟩ := Option.ite_none_right_eq_some.mp h
    exact ⟨hst, if_pos hfit⟩
  | flushPublish =>
    simp only [Db.effect, withJob] at h ⊢
    split at h
    next covered _ =>
      cases Option.some.inj h
      exact ⟨hst, rfl⟩
    next => simp at h
  | flushFailed =>
    simp only [Db.effect, withJob] at h ⊢
    obtain ⟨hf, ⟨⟩⟩ := Option.ite_none_right_eq_some.mp h
    exact ⟨hst, if_pos hf⟩
  | submitCompaction _ | writeCompactionOutput _ | compactionPublish | compactionFailed =>
    simp [EngineAction.onJob] at ha

/-- A step beside a waiting job is the same step with the job in its place. -/
theorem step_besideJob {a : DbAction} {j : Compacting × Bool} (hn : db.engine.compacting = none)
    (hsp : a.spares j = true) (ha : a.submits = false) (h : db.step crc cfg a = some db') :
    db'.engine.compacting = none ∧ (db'.withJob j = db.withJob j ∨
      (∀ e, a = .engine e → e.onJob = false) ∧
        (db.withJob j).step crc cfg a = some (db'.withJob j)) := by
  have hother : ∀ {b : DbAction}, (∀ e, b ≠ .engine e) → ∀ e, b = .engine e → e.onJob = false :=
    fun hb e he => absurd he (hb e)
  cases a with
  | engine a =>
    obtain ⟨st, hst, he⟩ := Option.bind_eq_some_iff.mp h
    obtain ⟨hnone, ⟨rfl, rfl⟩ | ⟨hj, hs⟩⟩ := EngineState.step_besideJob j.1 hn ha hst
    · simp only [Db.effect] at he
      obtain ⟨-, ⟨⟩⟩ := Option.ite_none_left_eq_some.mp he
      exact ⟨hnone, Or.inl rfl⟩
    · obtain ⟨hnone', he'⟩ := effect_besideJob j hn hnone hj he
      refine ⟨hnone', Or.inr ⟨fun e he => ?_, Option.bind_eq_some_iff.mpr ⟨_, hs, he'⟩⟩⟩
      cases he
      exact hj
  | writeFailed a n =>
    obtain ⟨st, hst, h⟩ := Option.bind_eq_some_iff.mp h
    obtain ⟨e, he, h⟩ := Option.bind_eq_some_iff.mp h
    have hj : a.onJob = false := by
      cases a <;> simp_all [EngineAction.walEntry, EngineAction.onJob]
    obtain ⟨hg, ⟨⟩⟩ := Option.ite_none_right_eq_some.mp h
    refine ⟨hn, Or.inr ⟨hother (by simp), ?_⟩⟩
    refine Option.bind_eq_some_iff.mpr ⟨_, step_withCompacting (some j.1) hj hst, ?_⟩
    exact Option.bind_eq_some_iff.mpr ⟨e, he, if_pos hg⟩
  | rollBegin nextEntrySize =>
    simp only [Db.step] at h
    obtain ⟨hg, ⟨⟩⟩ := Option.ite_none_right_eq_some.mp h
    refine ⟨(syncWal_compacting db).trans hn, Or.inr ⟨hother (by simp), ?_⟩⟩
    refine (if_pos hg).trans (congrArg some ?_)
    rw [syncWal_withJob]
    rfl
  | rollEnd =>
    cases Option.some.inj h
    exact ⟨hn, Or.inr ⟨hother (by simp), rfl⟩⟩
  | flushSubmit | flushDurable =>
    simp only [Db.step] at h
    split at h
    next hf hfa =>
      cases Option.some.inj h
      refine ⟨hn, Or.inr ⟨hother (by simp), ?_⟩⟩
      simp only [Db.step, withJob, hf, hfa]
    next => simp at h
  | compactionDurable =>
    simp [Db.step, hn] at h
  | unlinkSegment id =>
    simp only [Db.step] at h
    obtain ⟨hle, ⟨⟩⟩ := Option.ite_none_right_eq_some.mp h
    exact ⟨hn, Or.inr ⟨hother (by simp), if_pos hle⟩⟩
  | unlinkSstable id =>
    simp only [Db.step] at h
    obtain ⟨hall, ⟨⟩⟩ := Option.ite_none_right_eq_some.mp h
    refine ⟨hn, Or.inr ⟨hother (by simp), if_pos ?_⟩⟩
    simp only [hn, Option.toList_none, List.flatMap_nil, List.append_nil] at hall
    simp only [withJob, Option.toList_some, List.flatMap_singleton, List.all_append,
      Bool.and_eq_true] at hall ⊢
    exact ⟨hall, hsp⟩

theorem jobs_framed {cond : Db → DbAction → Prop}
    (hcond : ∀ db a j, (∀ e, a = .engine e → e.onJob = false) → cond db a → cond (withJob db j) a) :
    (jobs crc cfg).Framed cond where
  job_setJob db x := by
    cases x with
    | none => rfl
    | some j => rfl
  setJob_job db j h := by
    obtain ⟨c, hc, rfl⟩ := Option.map_eq_some_iff.mp h
    show ({ db with engine := { db.engine with compacting := some c } } : Db) = db
    rw [← hc]
  setJob_setJob _ _ _ := rfl
  frame db a db' j hn _ hsp ha hc h := by
    obtain ⟨hnone, hsame⟩ := step_besideJob (Option.map_eq_none_iff.mp hn) hsp ha h
    refine ⟨Option.map_eq_none_iff.mpr hnone, hsame.imp_right fun hs => ?_⟩
    exact ⟨hcond db a j hs.1 hc, hs.2⟩

/-- What a crash may leave when jobs wait: the append under way may be that of a waiting job. -/
def QueueLeaves (crc : Bytes → UInt32) (q : Queued Db (Compacting × Bool)) (dir : DataDir) : Prop :=
  q.state.CrashLeaves crc dir ∨ ∃ j ∈ q.waiting, (q.state.withJob j).CrashLeaves crc dir

variable {q : Queued Db (Compacting × Bool)}

/-- With one job, waiting or not, the queue leaves what the state with that job leaves. -/
theorem QueueLeaves.current {dir : DataDir} (h1 : (jobs crc cfg).OneJob q)
    (hd : QueueLeaves crc q dir) : ((jobs crc cfg).current q).CrashLeaves crc dir := by
  obtain ⟨db, waiting⟩ := q
  rcases h1 with rfl | ⟨j, rfl, -, hn⟩
  · exact hd.resolve_right (by simp)
  · rcases hd with ⟨⟨recs, hrecs, hm⟩, hs, hw⟩ | ⟨j', hj, hd⟩
    · have hnone : db.engine.compacting = none := Option.map_eq_none_iff.mp hn
      refine ⟨⟨recs, ?_, hm⟩, hs, hw⟩
      simp only [pendingAppends, hnone, List.append_nil] at hrecs
      rcases List.mem_cons.mp hrecs with h | h
      · exact List.mem_cons.mpr (Or.inl h)
      · exact List.mem_cons.mpr (Or.inr (List.mem_append_left _ h))
    · cases List.mem_singleton.mp hj
      exact hd

end Db

end ZydecoDb
