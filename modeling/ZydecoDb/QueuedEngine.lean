import ZydecoDb.EngineSteps
import ZydecoDb.Lib.JobQueue

namespace ZydecoDb

open Lib

namespace EngineAction

def submits : EngineAction → Bool
  | .submitCompaction _ => true
  | _ => false

end EngineAction

namespace EngineState

variable {st st' : EngineState} {cfg : CompactionConfig}

theorem commit_withCompacting {ops : List BatchOp} (x : Option Compacting)
    (h : st.commit ops = some st') :
    ({ st with compacting := x } : EngineState).commit ops = some { st' with compacting := x } := by
  obtain ⟨hlt, rfl⟩ := commit_cases h
  exact if_pos hlt

theorem step_withCompacting {action : EngineAction} (x : Option Compacting)
    (hf : action.onJob = false) (h : st.step cfg action = some st') :
    ({ st with compacting := x } : EngineState).step cfg action =
      some { st' with compacting := x } := by
  cases action with
  | put key value expiresAt =>
    simp only [step, put] at h ⊢
    split at h
    next => exact commit_withCompacting x h
    next => simp at h
  | del key =>
    simp only [step, del] at h ⊢
    split at h
    next => exact commit_withCompacting x h
    next => simp at h
  | writeBatch ops sysPuts =>
    simp only [step, writeBatchInner] at h ⊢
    split at h
    next => exact commit_withCompacting x h
    next => simp at h
  | freeze =>
    simp only [step, freeze] at h ⊢
    obtain ⟨hne, ⟨⟩⟩ := Option.ite_none_left_eq_some.mp h
    exact if_neg hne
  | flushExecute bloom =>
    simp only [step, flushExecute] at h ⊢
    split at h
    next mt rest _ himm =>
      obtain ⟨hb, ⟨⟩⟩ := Option.ite_none_right_eq_some.mp h
      simp only [himm]
      exact if_pos hb
    next => simp at h
  | flushPublish =>
    obtain ⟨t, ht, rfl⟩ := Option.map_eq_some_iff.mp h
    exact congrArg (Option.map _) ht
  | syncWal | flushFailed | snapshotOwned | snapshotDrop seqUpper =>
    cases Option.some.inj h
    rfl
  | submitCompaction _ | writeCompactionOutput _ | compactionPublish | compactionFailed =>
    simp [EngineAction.onJob] at hf

/-- The engine with the jobs that are written and not published: `compact_once` plans whenever the
worker is not busy, also while a finished job waits for its drain. -/
def jobs (cfg : CompactionConfig) : JobSystem EngineState EngineAction Compacting where
  step := EngineState.step cfg
  job st := st.compacting
  setJob st x := { st with compacting := x }
  starts := EngineAction.submits
  done c := c.pending.isEmpty
  spares _ _ := true

/-- A step beside a waiting job is the same step with the job in its place. -/
theorem step_besideJob {a : EngineAction} (c : Compacting) (hn : st.compacting = none)
    (ha : a.submits = false) (h : st.step cfg a = some st') :
    st'.compacting = none ∧ (a = .compactionFailed ∧ st' = st ∨ a.onJob = false ∧
      ({ st with compacting := some c } : EngineState).step cfg a =
        some { st' with compacting := some c }) := by
  have hst : ({ st with compacting := none } : EngineState) = st := by
    rw [← hn]
  cases hj : a.onJob with
  | false =>
    have h' := step_withCompacting none hj h
    rw [hst, h] at h'
    exact ⟨congrArg EngineState.compacting (Option.some.inj h'),
      Or.inr ⟨rfl, step_withCompacting (some c) hj h⟩⟩
  | true =>
    cases a with
    | submitCompaction nowMs => simp [EngineAction.submits] at ha
    | writeCompactionOutput bloom => simp [step, writeCompactionOutput, hn] at h
    | compactionPublish => simp [step, compactionPublish, hn] at h
    | compactionFailed =>
      cases Option.some.inj h
      exact ⟨rfl, Or.inl ⟨rfl, hst⟩⟩
    | _ => simp [EngineAction.onJob] at hj

theorem jobs_framed {cond : EngineState → EngineAction → Prop}
    (hcond : ∀ st a c, a.onJob = false → cond st a → cond { st with compacting := some c } a) :
    (jobs cfg).Framed cond where
  job_setJob _ _ := rfl
  setJob_job st j h := by
    show ({ st with compacting := some j } : EngineState) = st
    rw [← show st.compacting = some j from h]
  setJob_setJob _ _ _ := rfl
  frame st a st' c hn _ _ ha hc h := by
    obtain ⟨hnone, ⟨-, rfl⟩ | ⟨hj, hs⟩⟩ := step_besideJob c hn ha h
    · exact ⟨hnone, Or.inl rfl⟩
    · exact ⟨hnone, Or.inr ⟨hcond st a c hj hc, hs⟩⟩

theorem view_current (s : Queued EngineState Compacting) :
    ((jobs cfg).current s).view = s.state.view := by
  unfold JobSystem.current
  split <;> rfl

end EngineState

def queued (actions : List EngineAction) : List (QueuedAction EngineAction) := actions.map .base

end ZydecoDb
