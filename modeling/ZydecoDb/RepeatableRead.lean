import ZydecoDb.SnapshotCeilings
import ZydecoDb.RangeScan
import ZydecoDb.PointLookup
import ZydecoDb.Document.Cursor

namespace ZydecoDb

open Lib

namespace EngineState

variable {st st' : EngineState} {cfg : CompactionConfig}

def snapshotAt (st : EngineState) (seqUpper : Nat) : Nat := min seqUpper (st.nextSeq - 1)

def readSnapshot (st : EngineState) (cursor : Option Bytes) : Nat :=
  match cursorSnapshotSeq cursor with
  | some seq => st.snapshotAt seq
  | none => st.nextSeq - 1

theorem step_nextSeq_le {a : EngineAction} (h : st.step cfg a = some st') :
    st.nextSeq ≤ st'.nextSeq := by
  have hcommit : ∀ ops, st.commit ops = some st' → st.nextSeq ≤ st'.nextSeq := fun ops hc => by
    rw [(commit_cases hc).2]
    exact Nat.le_succ _
  cases a with
  | put key value expiresAt => exact hcommit _ (put_cases h).2
  | del key => exact hcommit _ (del_cases h).2
  | writeBatch ops sysPuts => exact hcommit _ (writeBatch_cases h).2
  | syncWal | flushFailed | compactionFailed | snapshotOwned | snapshotDrop seqUpper =>
    cases Option.some.inj h
    exact le_refl _
  | freeze =>
    obtain ⟨-, rfl⟩ := freeze_cases h
    exact le_refl _
  | flushExecute bloom =>
    obtain ⟨-, mt, rest, -, -, rfl⟩ := flushExecute_cases h
    exact le_refl _
  | flushPublish =>
    obtain ⟨t, -, rfl⟩ := Option.map_eq_some_iff.mp h
    exact le_refl _
  | submitCompaction nowMs =>
    obtain ⟨-, plan, -, rfl⟩ := submitCompaction_cases h
    exact le_refl _
  | writeCompactionOutput bloom =>
    obtain ⟨job, metas, run, pending, written, f, -, -, rfl⟩ := writeCompactionOutput_cases h
    exact le_refl _
  | compactionPublish =>
    obtain ⟨job, metas, written, -, rfl⟩ := compactionPublish_cases h
    exact le_refl _

end EngineState

namespace EngineTrace

open EngineState

def StepKeeps (cfg : CompactionConfig) (t : EngineTrace) (a : EngineAction) : Prop :=
  t.engine.OutputNewest a ∧ t.engine.JobKeepsCeilings cfg a

instance decidableStepKeeps (cfg : CompactionConfig) (t : EngineTrace) (a : EngineAction) :
    Decidable (t.StepKeeps cfg a) := inferInstanceAs (Decidable (_ ∧ _))

structure Extends (t t' : EngineTrace) : Prop where
  next_le : t.engine.nextSeq ≤ t'.engine.nextSeq
  history : ∃ new, t'.history = t.history ++ new ∧ ∀ v ∈ new, t.engine.nextSeq ≤ v.seq

/-- The engine with its history, and the jobs that are written and not published. -/
def jobs (cfg : CompactionConfig) : JobSystem EngineTrace EngineAction Compacting where
  step := EngineTrace.step cfg
  job t := t.engine.compacting
  setJob t x := { t with engine := { t.engine with compacting := x } }
  starts := EngineAction.submits
  done c := c.pending.isEmpty
  spares _ _ := true

variable {cfg : CompactionConfig} {t t' : EngineTrace}

theorem Extends.step {a : EngineAction} {u : EngineTrace} (h : t.Extends t')
    (hs : t'.step cfg a = some u) : t.Extends u := by
  obtain ⟨st, he, rfl⟩ := Option.map_eq_some_iff.mp hs
  obtain ⟨new, hnew, hge⟩ := h.history
  refine ⟨h.next_le.trans (step_nextSeq_le he), new ++ a.ops.map (BatchOp.version t'.engine.nextSeq),
    ?_, fun v hv => ?_⟩
  · rw [hnew, List.append_assoc]
  · rcases List.mem_append.mp hv with hv | hv
    · exact hge v hv
    · obtain ⟨op, -, rfl⟩ := List.mem_map.mp hv
      rw [BatchOp.version_seq]
      exact h.next_le

theorem jobs_framed {cond : EngineTrace → EngineAction → Prop}
    (hcond : ∀ t a x, a.onJob = false → cond t a → cond ((jobs cfg).setJob t x) a) :
    (jobs cfg).Framed cond where
  job_setJob _ _ := rfl
  setJob_job t j h := by
    show ({ t with engine := { t.engine with compacting := some j } } : EngineTrace) = t
    rw [← show t.engine.compacting = some j from h]
  setJob_setJob _ _ _ := rfl
  frame t a t' c hn _ _ ha hc h := by
    obtain ⟨st, hs, rfl⟩ := Option.map_eq_some_iff.mp h
    obtain ⟨hnone, ⟨rfl, rfl⟩ | ⟨hj, hs⟩⟩ := step_besideJob c hn ha hs
    · refine ⟨hnone, Or.inl ?_⟩
      simp [jobs, EngineAction.ops, clockAfter]
    · refine ⟨hnone, Or.inr ⟨hcond t a _ hj hc, ?_⟩⟩
      exact congrArg (Option.map _) hs

variable {q q' : Queued EngineTrace Compacting} {actions : List (QueuedAction EngineAction)}

theorem stepKeeps_framed : (jobs cfg).Framed (StepKeeps cfg) :=
  jobs_framed fun _ _ _ hj _ => ⟨outputNewest_of_not_onJob hj, jobKeepsCeilings_of_not_onJob hj⟩

theorem inv_of_run (hr : runFrom (jobs cfg).queuedStep ⟨.init, []⟩ actions = some q)
    (hc : MeetsAlong (jobs cfg).queuedStep ((jobs cfg).OneAtATime (StepKeeps cfg)) ⟨.init, []⟩
      actions) : (jobs cfg).OneJob q ∧ ((jobs cfg).current q).Inv :=
  stepKeeps_framed.invariant (P := Inv) (s := ⟨.init, []⟩)
    (fun _ _ _ h hk hs => inv_step h hk.1 hk.2 hs) (Or.inl rfl) inv_init hc hr

theorem Inv.outcome_eq (h : t.Inv) {now : Nat} (hnow : t.clock ≤ now) (k : Bytes) (s : Nat) :
    outcome (newestAt t.engine.view.versions k s) now = none ∨
      outcome (newestAt t.engine.view.versions k s) now = outcome (newestAt t.history k s) now := by
  cases hw : newestAt t.engine.view.versions k s with
  | none => exact Or.inl rfl
  | some w =>
    cases hlive : w.entry.isLive t.clock with
    | false =>
      refine Or.inl (outcome_eq_none.mpr fun w' hw' => ?_)
      cases Option.mem_some_iff.mp hw'
      exact Entry.isLive_antitone hnow hlive
    | true =>
      have hhist : newestAt t.history k s = some w :=
        h.kept.newestAt_eq h.coherent h.held hw (by simp [hlive])
      exact Or.inr (by rw [hhist])

end EngineTrace

open EngineTrace

end ZydecoDb
