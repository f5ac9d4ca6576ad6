import ZydecoDb.Lib.Run

namespace Lib

/-- A system that works on one job, kept in a place of its state. `done` tells a job that only waits
to be published, `spares` an action that leaves what a waiting job has produced alone. -/
structure JobSystem (σ α J : Type) where
  step : σ → α → Option σ
  job : σ → Option J
  setJob : σ → Option J → σ
  starts : α → Bool
  done : J → Bool
  spares : J → α → Bool

/-- The system with the jobs that have left their place and are not published yet. -/
structure Queued (σ J : Type) where
  state : σ
  waiting : List J

inductive QueuedAction (α : Type)
  | base (action : α)
  | park
  | resume (i : Nat)

namespace JobSystem

variable {σ α J : Type} (S : JobSystem σ α J)

/-- A done job may leave its place, so that another can start there, and come back to the empty place
to be published. -/
def queuedStep (s : Queued σ J) : QueuedAction α → Option (Queued σ J)
  | .base a =>
    if s.waiting.all fun j => S.spares j a then (S.step s.state a).map fun state => { s with state }
    else none
  | .park =>
    (S.job s.state).bind fun j =>
      if S.done j then some ⟨S.setJob s.state none, s.waiting ++ [j]⟩ else none
  | .resume i =>
    match S.job s.state, s.waiting[i]? with
    | none, some j => some ⟨S.setJob s.state (some j), s.waiting.eraseIdx i⟩
    | _, _ => none

/-- No job starts while another one waits, and the system's own condition holds. -/
def OneAtATime (cond : σ → α → Prop) (s : Queued σ J) : QueuedAction α → Prop
  | .base a => (S.starts a = true → s.waiting.isEmpty = true) ∧ cond s.state a
  | _ => True

instance decidableOneAtATime (cond : σ → α → Prop) [∀ s a, Decidable (cond s a)] (s : Queued σ J) :
    (a : QueuedAction α) → Decidable (S.OneAtATime cond s a)
  | .base a => inferInstanceAs (Decidable ((S.starts a = true → s.waiting.isEmpty = true) ∧ _))
  | .park | .resume _ => isTrue trivial

/-- The one job is in its place, or waits while the place is empty. -/
def OneJob (s : Queued σ J) : Prop :=
  s.waiting = [] ∨ ∃ j, s.waiting = [j] ∧ S.done j = true ∧ S.job s.state = none

/-- The state with the waiting job back in its place. -/
def current (s : Queued σ J) : σ :=
  match s.waiting with
  | [] => s.state
  | j :: _ => S.setJob s.state (some j)

/-- What a job's place has to satisfy: a step that meets the condition while the place is empty, and
starts no job, is the same step with a done job in the place, or no step at all there. -/
structure Framed (cond : σ → α → Prop) : Prop where
  job_setJob : ∀ s x, S.job (S.setJob s x) = x
  setJob_job : ∀ s j, S.job s = some j → S.setJob s (some j) = s
  setJob_setJob : ∀ s x y, S.setJob (S.setJob s x) y = S.setJob s y
  frame : ∀ s a s' j, S.job s = none → S.done j = true → S.spares j a = true →
    S.starts a = false → cond s a → S.step s a = some s' → S.job s' = none ∧
      (S.setJob s' (some j) = S.setJob s (some j) ∨ cond (S.setJob s (some j)) a ∧
        S.step (S.setJob s (some j)) a = some (S.setJob s' (some j)))

variable {S} {cond : σ → α → Prop} {P : σ → Prop} {s s' : Queued σ J}

/-- What every step keeps, the queued step keeps of the state with its one job in place. -/
theorem Framed.step (hf : S.Framed cond)
    (hstep : ∀ s a s', P s → cond s a → S.step s a = some s' → P s') {a : QueuedAction α}
    (h1 : S.OneJob s) (hp : P (S.current s)) (hc : S.OneAtATime cond s a)
    (h : S.queuedStep s a = some s') : S.OneJob s' ∧ P (S.current s') := by
  obtain ⟨state, waiting⟩ := s
  cases a with
  | base a =>
    simp only [queuedStep] at h
    obtain ⟨hs, h⟩ := Option.ite_none_right_eq_some.mp h
    obtain ⟨t, ht, rfl⟩ := Option.map_eq_some_iff.mp h
    rcases h1 with rfl | ⟨j, rfl, hd, hn⟩
    · exact ⟨Or.inl rfl, hstep _ a t hp hc.2 ht⟩
    · have hst : S.starts a = false :=
        Bool.eq_false_iff.mpr fun hst => absurd (hc.1 hst) (by simp)
      obtain ⟨hj, hsame⟩ := hf.frame state a t j hn hd (by simpa using hs) hst hc.2 ht
      refine ⟨Or.inr ⟨j, rfl, hd, hj⟩, ?_⟩
      show P (S.setJob t (some j))
      rcases hsame with heq | ⟨hcond, hjob⟩
      · exact heq ▸ hp
      · exact hstep _ a _ hp hcond hjob
  | park =>
    obtain ⟨j, hj, h⟩ := Option.bind_eq_some_iff.mp h
    obtain ⟨hd, ⟨⟩⟩ := Option.ite_none_right_eq_some.mp h
    rcases h1 with rfl | ⟨j', rfl, -, hn⟩
    · refine ⟨Or.inr ⟨j, rfl, hd, hf.job_setJob _ _⟩, ?_⟩
      show P (S.setJob (S.setJob state none) (some j))
      rw [hf.setJob_setJob, hf.setJob_job _ _ hj]
      exact hp
    · exact absurd (hj.symm.trans hn) (by simp)
  | resume i =>
    simp only [queuedStep] at h
    split at h
    next j hn hi =>
      cases Option.some.inj h
      rcases h1 with rfl | ⟨j', rfl, -, -⟩
      · simp at hi
      · cases i with
        | zero =>
          cases Option.some.inj hi
          exact ⟨Or.inl rfl, hp⟩
        | succ i => simp at hi
    next => simp at h

/-- The invariant rule with a queue: what every step of the system preserves holds of the state with
the waiting job in its place, as long as no job starts while another one waits. -/
theorem Framed.invariant (hf : S.Framed cond)
    (hstep : ∀ s a s', P s → cond s a → S.step s a = some s' → P s')
    {actions : List (QueuedAction α)} (h1 : S.OneJob s) (hp : P (S.current s))
    (hc : MeetsAlong S.queuedStep (S.OneAtATime cond) s actions)
    (hr : runFrom S.queuedStep s actions = some s') : S.OneJob s' ∧ P (S.current s') :=
  runFrom_invariant (P := fun s => S.OneJob s ∧ P (S.current s))
    (fun _ _ _ h hc hs => hf.step hstep h.1 h.2 hc hs) ⟨h1, hp⟩ hc hr

end JobSystem

end Lib
