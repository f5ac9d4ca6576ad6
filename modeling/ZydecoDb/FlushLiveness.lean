import ZydecoDb.FlushThreads
import ZydecoDb.Lib.Liveness

namespace ZydecoDb

open Lib

/-- An endless run from a freshly opened engine. An action that is not possible where it stands does
nothing. -/
structure FlushRun (cfg : WriteConfig) where
  state : Nat → FlushEngine
  action : Nat → FlushAction
  opened : ∃ fairCfg policy engine, engine.immutable = [] ∧ state 0 = .opened fairCfg policy engine
  next : ∀ n, state (n + 1) = ((state n).step cfg (action n)).getD (state n)

namespace FlushRun

variable {cfg : WriteConfig} (ρ : FlushRun cfg)

structure Fair : Prop where
  polled : ∀ n, ∃ m, n ≤ m ∧ ∃ taken outcomes, ρ.action m = .pollFlush taken outcomes
  flushThread : ∀ n, (ρ.state n).worker ≠ .idle → ∃ m, n ≤ m ∧
    (ρ.action m).byFlushThread = true ∧ ((ρ.state m).step cfg (ρ.action m)).isSome = true
  applyThread : ∀ n, (ρ.state n).applyQueue ≠ [] → ∃ m, n ≤ m ∧ (ρ.action m).byApplyThread = true

def flushed (n : Nat) : List LoadedSstable := (ρ.state n).flushedTables

structure Staged (stage : Nat → FlushStage) : Prop where
  at_stage : ∀ n, (ρ.state n).AtStage (stage n)
  moves : ∀ n, (ρ.state n).Moves (stage n) ((ρ.state n).KeepsFlush (ρ.action n)) (ρ.state (n + 1))
    (stage (n + 1))

theorem exists_staged : ∃ stage, stage 0 = .idle ∧ ρ.Staged stage := by
  have hzero : (ρ.state 0).AtStage .idle := by
    obtain ⟨fairCfg, policy, engine, himm, hstate⟩ := ρ.opened
    rw [hstate]
    refine ⟨rfl, fun mt hmt => ?_, rfl, rfl, rfl, rfl, fun mt hmt => ?_⟩
    · cases hmt
    · have hmem : mt ∈ engine.immutable := hmt
      simp [himm] at hmem
  obtain ⟨stage, hstage, hmoves⟩ := exists_labels
    (P := fun n stage => (ρ.state n).AtStage stage)
    (R := fun n stage stage' => (ρ.state n).Moves stage ((ρ.state n).KeepsFlush (ρ.action n))
      (ρ.state (n + 1)) stage') hzero fun n stage h => by
      rw [ρ.next n]
      cases hs : (ρ.state n).step cfg (ρ.action n) with
      | none => exact ⟨stage, h, .stay h [] (List.append_nil _).symm rfl⟩
      | some s' =>
        obtain ⟨stage', hm⟩ := h.step hs
        exact ⟨stage', hm.reached, hm⟩
  exact ⟨stage, hstage, fun n => (hmoves n).1, fun n => (hmoves n).2⟩

structure Undisturbed (stage : Nat → FlushStage) (N : Nat) : Prop extends ρ.Staged stage where
  idle : stage 0 = .idle
  fair : ρ.Fair
  kept : ∀ n, (ρ.state n).KeepsFlush (ρ.action n)
  works : ∀ n, N ≤ n → ρ.action n ≠ .flushFailed

variable {ρ} {stage : Nat → FlushStage} {N F : Nat}

theorem Staged.flushed_le (h : ρ.Staged stage) (n : Nat) :
    (ρ.flushed n).length ≤ (ρ.flushed (n + 1)).length := by
  rcases (h.moves n).queue with ⟨-, heq, -⟩ | ⟨mt, file, -, -, -, heq⟩
  · exact (congrArg List.length heq).ge
  · have hlen := congrArg List.length heq
    rw [List.length_append] at hlen
    exact le_of_le_of_eq (Nat.le_add_right _ _) hlen.symm

theorem Undisturbed.not_lost (h : ρ.Undisturbed stage N) (n : Nat) : ∀ mt, stage n ≠ .lost mt := by
  induction n with
  | zero =>
    rw [h.idle]
    simp
  | succ n ih => exact (h.moves n).lost (h.kept n) ih

def Since (ρ : FlushRun cfg) (N F n : Nat) : Prop := N ≤ n ∧ F ≤ (ρ.flushed n).length

theorem Since.succ (h : ρ.Staged stage) {n : Nat} (hn : ρ.Since N F n) : ρ.Since N F (n + 1) :=
  ⟨hn.1.trans (Nat.le_succ n), hn.2.trans (h.flushed_le n)⟩

theorem state_poll {n : Nat} {taken : Bool} {outcomes : List PublishOutcome}
    (h : ρ.action n = .pollFlush taken outcomes) :
    ρ.state (n + 1) = (ρ.state n).pollFlush taken outcomes := by
  rw [ρ.next n, h]
  rfl

theorem Undisturbed.stage_leadsTo (h : ρ.Undisturbed stage N) {at_stage : FlushStage} {q : Nat → Prop}
    (helpful : Nat → Prop)
    (hnext : ∀ n, ρ.Since N F n → stage n = at_stage → at_stage.Next (stage (n + 1)) → q (n + 1))
    (hfair : ∀ n, stage n = at_stage → ∃ m, n ≤ m ∧ helpful m)
    (heffect : ∀ n, stage n = at_stage → helpful n → stage (n + 1) ≠ at_stage) :
    LeadsTo (fun n => ρ.Since N F n ∧ stage n = at_stage) q := by
  have hmove : ∀ n, ρ.Since N F n ∧ stage n = at_stage → stage (n + 1) = at_stage ∨ q (n + 1) := by
    rintro n ⟨hsince, hstage⟩
    rcases (h.moves n).next with heq | hmove
    · exact Or.inl (heq.trans hstage)
    · exact Or.inr (hnext n hsince hstage (hstage ▸ hmove))
  refine LeadsTo.ensures helpful (fun n hn => ?_) (fun n hn => hfair n hn.2) fun n hn hhelp => ?_
  · exact (hmove n hn).imp_left fun heq => ⟨hn.1.succ h.toStaged, heq⟩
  · exact (hmove n hn).resolve_left (heffect n hn.2 hhelp)

theorem Staged.queue_kept (h : ρ.Staged stage) {n : Nat} (hready : ∀ mt file, stage n ≠ .ready mt file)
    (hne : (ρ.state n).immutable ≠ []) : (ρ.state (n + 1)).immutable ≠ [] := by
  rcases (h.moves n).queue with ⟨-, -, added, heq⟩ | ⟨mt, file, hstage, -⟩
  · rw [heq]
    exact List.append_ne_nil_of_left_ne_nil hne added
  · exact absurd hstage (hready mt file)

section

variable (h : ρ.Undisturbed stage N)
include h

theorem Undisturbed.ready_leadsTo (mt : Memtable) (file : Nat × (Bytes → Bool)) :
    LeadsTo (fun n => ρ.Since N F n ∧ stage n = .ready mt file) fun n => F < (ρ.flushed n).length := by
  refine h.stage_leadsTo _ (fun n hsince hstage hnext => ?_) (fun n _ => h.fair.polled n)
    fun n hstage hpoll heq => ?_
  · have hm := h.moves n
    have hlost := h.not_lost (n + 1)
    rcases hm.queue with ⟨hrel, -, -⟩ | ⟨mt', file', -, -, -, hflushed⟩
    · rw [hstage] at hrel
      generalize stage (n + 1) = stage' at hnext hrel hlost
      cases hnext with
      | published => exact absurd (hrel rfl) (by decide)
      | publishFailed => exact absurd rfl (hlost mt)
    · have hlen : (ρ.flushed (n + 1)).length = (ρ.flushed n).length + 1 :=
        (congrArg List.length hflushed).trans (List.length_append ..)
      have hF := hsince.2
      omega
  · obtain ⟨taken, outcomes, hact⟩ := hpoll
    have hempty : (ρ.state (n + 1)).ready = [] := by
      rw [state_poll hact]
      exact (hstage ▸ h.at_stage n).pollFlush_ready taken outcomes
    have htables := (h.at_stage (n + 1)).ready
    rw [hempty, heq] at htables
    cases htables

theorem Undisturbed.sent_leaves {n : Nat} {mt : Memtable} {file : Option (Nat × (Bytes → Bool))}
    (hpoll : ∃ taken outcomes, ρ.action n = .pollFlush taken outcomes) :
    stage (n + 1) ≠ .sent mt file := by
  intro heq
  obtain ⟨taken, outcomes, hact⟩ := hpoll
  have hempty : (ρ.state (n + 1)).results = [] := by
    rw [state_poll hact]
    exact (h.at_stage n).pollFlush_results taken outcomes
  have hresults := (h.at_stage (n + 1)).results
  rw [hempty, heq] at hresults
  cases hresults

theorem Undisturbed.sent_leadsTo (mt : Memtable) (file : Nat × (Bytes → Bool)) :
    LeadsTo (fun n => ρ.Since N F n ∧ stage n = .sent mt (some file))
      fun n => ρ.Since N F n ∧ stage n = .queued mt file := by
  refine h.stage_leadsTo _ (fun n hsince hstage hnext => ⟨hsince.succ h.toStaged, ?_⟩)
    (fun n _ => h.fair.polled n) fun n _ hpoll => h.sent_leaves hpoll
  have hlost := h.not_lost (n + 1)
  generalize stage (n + 1) = stage' at hnext hlost ⊢
  cases hnext with
  | passedOn => rfl
  | refused => exact absurd rfl (hlost mt)

theorem Undisturbed.retry_leadsTo (mt : Memtable) :
    LeadsTo (fun n => ρ.Since N F n ∧ stage n = .sent mt none)
      fun n => ρ.Since N F n ∧ stage n = .idle ∧ (ρ.state n).immutable ≠ [] := by
  refine h.stage_leadsTo _ (fun n hsince hstage hnext => ⟨hsince.succ h.toStaged, ?_, ?_⟩)
    (fun n _ => h.fair.polled n) fun n _ hpoll => h.sent_leaves hpoll
  · generalize stage (n + 1) = stage' at hnext ⊢
    cases hnext with
    | retried => rfl
  · refine h.queue_kept (by simp [hstage]) fun hnil => ?_
    have hfront := (h.at_stage n).front mt (by simp [hstage, FlushStage.memtable])
    rw [hnil] at hfront
    cases hfront

end

theorem thread_leaves {n : Nat}
    (hhelp : (ρ.action n).byFlushThread = true ∧ ((ρ.state n).step cfg (ρ.action n)).isSome = true) :
    (ρ.state (n + 1)).worker ≠ (ρ.state n).worker := by
  obtain ⟨s', hs⟩ := Option.isSome_iff_exists.mp hhelp.2
  have hstate : ρ.state (n + 1) = s' := by
    rw [ρ.next n, hs]
    rfl
  rw [hstate]
  rcases FlushEngine.step_threads hs with
    ⟨hno, -⟩ | ⟨-, -, -, ⟨job, result, hw, hw', -⟩ | ⟨result, hw, hw'⟩⟩ | ⟨hyes, -⟩
  · rw [hhelp.1] at hno
    cases hno
  · simp [hw, hw']
  · simp [hw, hw']
  · generalize ρ.action n = a at hhelp hyes
    cases a <;> simp_all [FlushAction.byFlushThread, FlushAction.byApplyThread]

theorem Undisturbed.sending_leadsTo (h : ρ.Undisturbed stage N) (mt : Memtable)
    (file : Option (Nat × (Bytes → Bool))) :
    LeadsTo (fun n => ρ.Since N F n ∧ stage n = .sending mt file)
      fun n => ρ.Since N F n ∧ stage n = .sent mt file := by
  refine h.stage_leadsTo _ (fun n hsince hstage hnext => ⟨hsince.succ h.toStaged, ?_⟩)
    (fun n hstage => h.fair.flushThread n ?_) fun n hstage hhelp heq => thread_leaves hhelp ?_
  · generalize stage (n + 1) = stage' at hnext ⊢
    cases hnext with
    | sent => rfl
  · rw [(h.at_stage n).worker, hstage]
    simp [FlushStage.worker]
  · rw [(h.at_stage n).worker, (h.at_stage (n + 1)).worker, hstage, heq]

theorem Undisturbed.running_leadsTo (h : ρ.Undisturbed stage N) (mt : Memtable) :
    LeadsTo (fun n => ρ.Since N F n ∧ stage n = .running mt)
      fun n => ρ.Since N F n ∧ ∃ file, stage n = .sending mt (some file) := by
  refine h.stage_leadsTo _ (fun n hsince hstage hnext => ⟨hsince.succ h.toStaged, ?_⟩)
    (fun n hstage => h.fair.flushThread n ?_) fun n hstage hhelp heq => thread_leaves hhelp ?_
  · have hworker := (h.at_stage (n + 1)).worker
    have hbefore := (h.at_stage n).worker
    rw [hstage] at hbefore
    generalize stage (n + 1) = stage' at hnext hworker ⊢
    cases hnext with
    | finished _ file =>
      cases file with
      | some file => exact ⟨file, rfl⟩
      | none =>
        rw [ρ.next n] at hworker
        cases hs : (ρ.state n).step cfg (ρ.action n) with
        | none =>
          rw [hs, Option.getD_none, hbefore] at hworker
          cases hworker
        | some s' =>
          rw [hs, Option.getD_some] at hworker
          rcases FlushEngine.step_threads hs with
            ⟨-, -, hw | ⟨job, hw⟩, -⟩ | ⟨-, -, -, ⟨job, result, -, hw, hfail⟩ | ⟨result, -, hw⟩⟩ | ⟨-, hw, -⟩
          · rw [hw, hbefore] at hworker
            cases hworker
          · rw [hw] at hworker
            cases hworker
          · rw [hw] at hworker
            cases hworker
            exact absurd (hfail rfl) (h.works n hsince.1)
          · rw [hw] at hworker
            cases hworker
          · rw [hw, hbefore] at hworker
            cases hworker
  · rw [(h.at_stage n).worker, hstage]
    simp [FlushStage.worker]
  · rw [(h.at_stage n).worker, (h.at_stage (n + 1)).worker, hstage, heq]

theorem Undisturbed.idle_leadsTo (h : ρ.Undisturbed stage N) :
    LeadsTo (fun n => ρ.Since N F n ∧ stage n = .idle ∧ (ρ.state n).immutable ≠ [])
      fun n => ρ.Since N F n ∧ ∃ mt, stage n = .running mt := by
  have hmove : ∀ n, stage n = .idle → stage (n + 1) = .idle ∨ ∃ mt, stage (n + 1) = .running mt := by
    intro n hidle
    have hnext := (h.moves n).next
    rw [hidle] at hnext
    rcases hnext with heq | hnext
    · exact Or.inl heq
    · generalize stage (n + 1) = stage' at hnext ⊢
      cases hnext with
      | submitted mt => exact Or.inr ⟨mt, rfl⟩
  refine LeadsTo.ensures _ (fun n hn => ?_) (fun n _ => h.fair.polled n) fun n hn hpoll => ?_
  · obtain ⟨hsince, hidle, hne⟩ := hn
    rcases hmove n hidle with heq | hrun
    · exact Or.inl ⟨hsince.succ h.toStaged, heq, h.queue_kept (by simp [hidle]) hne⟩
    · exact Or.inr ⟨hsince.succ h.toStaged, hrun⟩
  · obtain ⟨hsince, hidle, hne⟩ := hn
    obtain ⟨taken, outcomes, hact⟩ := hpoll
    refine ⟨hsince.succ h.toStaged, (hmove n hidle).resolve_left fun heq => ?_⟩
    obtain ⟨job, hjob⟩ := (hidle ▸ h.at_stage n).pollFlush_submits hne taken outcomes
    rw [← state_poll hact, (h.at_stage (n + 1)).worker, heq] at hjob
    cases hjob

def Behind (ρ : FlushRun cfg) (k n : Nat) : Prop :=
  ∃ ahead table rest, (ρ.state n).applyQueue = ahead ++ .flush table :: rest ∧ ahead.length = k

theorem Staged.behind_of_queued (h : ρ.Staged stage) {n : Nat} {mt : Memtable}
    {file : Nat × (Bytes → Bool)} (hstage : stage n = .queued mt file) : ∃ k, ρ.Behind k n := by
  have hqueued := (h.at_stage n).queued
  rw [hstage] at hqueued
  have hmem : (flushResult mt file).table ∈ flushTables (ρ.state n).applyQueue := by
    rw [hqueued]
    exact List.mem_singleton_self _
  obtain ⟨apply, happly, htable⟩ := List.mem_filterMap.mp hmem
  obtain ⟨ahead, rest, hq⟩ := List.append_of_mem happly
  cases apply with
  | compaction removed added => cases htable
  | flush table => exact ⟨ahead.length, ahead, table, rest, hq, rfl⟩

section

variable (h : ρ.Undisturbed stage N)
include h

theorem Undisturbed.behind_step {k n : Nat} (hb : ρ.Behind k n) :
    (ρ.action n).byApplyThread = false ∧ ρ.Behind k (n + 1) ∨
    (∃ k', k = k' + 1 ∧ ρ.Behind k' (n + 1)) ∨ ∃ mt file, stage (n + 1) = .ready mt file := by
  obtain ⟨ahead, table, rest, hq, rfl⟩ := hb
  have hstate := ρ.next n
  cases hs : (ρ.state n).step cfg (ρ.action n) with
  | none =>
    rw [hs, Option.getD_none] at hstate
    refine Or.inl ⟨?_, ahead, table, rest, hstate ▸ hq, rfl⟩
    generalize ρ.action n = a at hs
    cases a with
    | applyFinished => rw [FlushEngine.step, hq] at hs; cases ahead <;> cases hs
    | applyFailed => rw [FlushEngine.step, hq] at hs; cases ahead <;> cases hs
    | _ => rfl
  | some s' =>
    rw [hs, Option.getD_some] at hstate
    rcases FlushEngine.step_threads hs with
      ⟨-, hno, -, added, hq'⟩ | ⟨-, hno, hq', -⟩ | ⟨-, -, apply, hq'⟩
    · refine Or.inl ⟨hno, ahead, table, rest ++ added, ?_, rfl⟩
      rw [hstate, hq', hq, List.append_assoc]
      rfl
    · refine Or.inl ⟨hno, ahead, table, rest, ?_, rfl⟩
      rw [hstate, hq', hq]
    · right
      rw [hq, ← hstate] at hq'
      cases ahead with
      | cons first ahead =>
        left
        exact ⟨ahead.length, rfl, ahead, table, rest, (List.cons.inj hq').2.symm, rfl⟩
      | nil =>
        right
        obtain ⟨mt, file, hstage, -, hrest⟩ := (h.at_stage n).queued_of_head hq
        have hqueued := (h.at_stage (n + 1)).queued
        rw [← (List.cons.inj hq').2, hrest] at hqueued
        have hnext := (h.moves n).next
        rw [hstage] at hnext
        have hlost := h.not_lost (n + 1)
        generalize stage (n + 1) = stage' at hnext hqueued hlost ⊢
        rcases hnext with rfl | hnext
        · cases hqueued
        · cases hnext with
          | appended => exact ⟨mt, file, rfl⟩
          | appendFailed => exact absurd rfl (hlost mt)

theorem Undisturbed.behind_leadsTo (k : Nat) :
    LeadsTo (fun n => ρ.Since N F n ∧ ρ.Behind k n) fun n => ρ.Since N F n ∧
      ((∃ k', k = k' + 1 ∧ ρ.Behind k' n) ∨ ∃ mt file, stage n = .ready mt file) := by
  refine LeadsTo.ensures _ (fun n hn => ?_) (fun n hn => h.fair.applyThread n ?_) fun n hn hhelp => ?_
  · rcases h.behind_step hn.2 with ⟨-, hb⟩ | hnext
    · exact Or.inl ⟨hn.1.succ h.toStaged, hb⟩
    · exact Or.inr ⟨hn.1.succ h.toStaged, hnext⟩
  · obtain ⟨ahead, table, rest, hq, -⟩ := hn.2
    simp [hq]
  · rcases h.behind_step hn.2 with ⟨hno, -⟩ | hnext
    · rw [hhelp] at hno
      cases hno
    · exact ⟨hn.1.succ h.toStaged, hnext⟩

theorem Undisturbed.queued_leadsTo (k : Nat) : LeadsTo (fun n => ρ.Since N F n ∧ ρ.Behind k n)
      fun n => ρ.Since N F n ∧ ∃ mt file, stage n = .ready mt file := by
  induction k with
  | zero =>
    refine (h.behind_leadsTo 0).trans (.of_imp fun n hn => ⟨hn.1, hn.2.resolve_left ?_⟩)
    rintro ⟨k', hk, -⟩
    omega
  | succ k ih =>
    refine (h.behind_leadsTo (k + 1)).trans fun n hn => ?_
    rcases hn.2 with ⟨k', hk, hb⟩ | hready
    · cases hk
      exact ih n ⟨hn.1, hb⟩
    · exact ⟨n, le_rfl, hn.1, hready⟩

/-- A frozen memtable is published in the end. -/
theorem Undisturbed.publishes :
    LeadsTo (fun n => ρ.Since N F n ∧ (ρ.state n).immutable ≠ []) fun n => F < (ρ.flushed n).length := by
  have hready : LeadsTo (fun n => ρ.Since N F n ∧ ∃ mt file, stage n = .ready mt file)
      fun n => F < (ρ.flushed n).length := by
    rintro n ⟨hsince, mt, file, hstage⟩
    exact h.ready_leadsTo mt file n ⟨hsince, hstage⟩
  have hqueued : LeadsTo (fun n => ρ.Since N F n ∧ ∃ mt file, stage n = .queued mt file)
      fun n => F < (ρ.flushed n).length := by
    rintro n ⟨hsince, mt, file, hstage⟩
    obtain ⟨k, hb⟩ := h.behind_of_queued hstage
    exact ((h.queued_leadsTo k).trans hready) n ⟨hsince, hb⟩
  have hsent : ∀ mt file, LeadsTo (fun n => ρ.Since N F n ∧ stage n = .sent mt (some file))
      fun n => F < (ρ.flushed n).length := by
    intro mt file
    exact (h.sent_leadsTo mt file).trans fun n hn => hqueued n ⟨hn.1, mt, file, hn.2⟩
  have hrunning : ∀ mt, LeadsTo (fun n => ρ.Since N F n ∧ stage n = .running mt)
      fun n => F < (ρ.flushed n).length := by
    intro mt
    refine (h.running_leadsTo mt).trans ?_
    rintro n ⟨hsince, file, hstage⟩
    exact ((h.sending_leadsTo mt (some file)).trans (hsent mt file)) n ⟨hsince, hstage⟩
  have hidle : LeadsTo (fun n => ρ.Since N F n ∧ stage n = .idle ∧ (ρ.state n).immutable ≠ [])
      fun n => F < (ρ.flushed n).length := by
    refine h.idle_leadsTo.trans ?_
    rintro n ⟨hsince, mt, hstage⟩
    exact hrunning mt n ⟨hsince, hstage⟩
  have hretry : ∀ mt, LeadsTo (fun n => ρ.Since N F n ∧ stage n = .sent mt none)
      fun n => F < (ρ.flushed n).length :=
    fun mt => (h.retry_leadsTo mt).trans hidle
  rintro n ⟨hsince, hne⟩
  cases hstage : stage n with
  | idle => exact hidle n ⟨hsince, hstage, hne⟩
  | running mt => exact hrunning mt n ⟨hsince, hstage⟩
  | sending mt file =>
    refine ((h.sending_leadsTo mt file).trans ?_) n ⟨hsince, hstage⟩
    cases file with
    | none => exact hretry mt
    | some file => exact hsent mt file
  | sent mt file =>
    cases file with
    | none => exact hretry mt n ⟨hsince, hstage⟩
    | some file => exact hsent mt file n ⟨hsince, hstage⟩
  | queued mt file => exact hqueued n ⟨hsince, mt, file, hstage⟩
  | ready mt file => exact hready n ⟨hsince, mt, file, hstage⟩
  | lost mt => exact absurd hstage (h.not_lost n mt)

end

end FlushRun

end ZydecoDb
