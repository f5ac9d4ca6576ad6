import ZydecoDb.FailedWrites
import ZydecoDb.FlushLiveness

namespace ZydecoDb

open Lib

namespace FlushRun

variable {cfg : WriteConfig} {ρ : FlushRun cfg} {stage : Nat → FlushStage} {N : Nat}

def Passed (ρ : FlushRun cfg) (n m : Nat) (gone : List Memtable) (tables : List LoadedSstable) : Prop :=
  ρ.flushed m = ρ.flushed n ++ tables ∧
    tables.map (fun t => t.reader.entries) = gone.map Memtable.entries ∧
    ∃ later, (ρ.state n).immutable ++ later = gone ++ (ρ.state m).immutable

theorem Staged.passed (h : ρ.Staged stage) {n m : Nat} (hle : n ≤ m) :
    ∃ gone tables, ρ.Passed n m gone tables := by
  induction m, hle using Nat.le_induction with
  | base => exact ⟨[], [], (List.append_nil _).symm, rfl, [], List.append_nil _⟩
  | succ m _ ih =>
    obtain ⟨gone, tables, hflushed, hentries, later, himm⟩ := ih
    rcases (h.moves m).queue with ⟨-, hsame, added, hadded⟩ | ⟨mt, file, hstage, -, htail, hpub⟩
    · refine ⟨gone, tables, hsame.trans hflushed, hentries, later ++ added, ?_⟩
      rw [hadded, ← List.append_assoc, himm, List.append_assoc]
    · have hfront := (h.at_stage m).front mt (by rw [hstage]; rfl)
      obtain ⟨rest, hrest⟩ : ∃ rest, (ρ.state m).immutable = mt :: rest :=
        List.head?_eq_some_iff.mp hfront
      refine ⟨gone ++ [mt], tables ++ [(flushResult mt file).table], ?_, ?_, later, ?_⟩
      · rw [← List.append_assoc, ← hflushed]
        exact hpub
      · rw [List.map_append, List.map_append, hentries]
        rfl
      · rw [himm, htail, hrest, List.append_assoc]
        rfl

theorem Passed.length_eq {n m : Nat} {gone : List Memtable} {tables : List LoadedSstable}
    (h : ρ.Passed n m gone tables) : gone.length = tables.length := by
  have hlen := congrArg List.length h.2.1
  rw [List.length_map, List.length_map] at hlen
  exact hlen.symm

theorem Undisturbed.advances (h : ρ.Undisturbed stage N) {k : Nat} (hne : (ρ.state k).immutable ≠ []) :
    ∃ m, k ≤ m ∧ (ρ.flushed m).length = (ρ.flushed k).length + 1 := by
  have hlater : ∃ m, k ≤ m ∧ (ρ.flushed k).length < (ρ.flushed m).length := by
    obtain ⟨gone, tables, hpassed⟩ := h.passed (le_max_left k N)
    by_cases hgrown : (ρ.flushed k).length < (ρ.flushed (max k N)).length
    · exact ⟨max k N, le_max_left k N, hgrown⟩
    · have hlen := congrArg List.length hpassed.1
      rw [List.length_append] at hlen
      have htables : tables = [] := List.eq_nil_of_length_eq_zero (by omega)
      have hgone : gone = [] := List.eq_nil_of_length_eq_zero (by rw [hpassed.length_eq, htables]; rfl)
      obtain ⟨later, himm⟩ := hpassed.2.2
      have hstill : (ρ.state (max k N)).immutable ≠ [] := by
        rw [hgone, List.nil_append] at himm
        rw [← himm]
        exact List.append_ne_nil_of_left_ne_nil hne later
      obtain ⟨m, hm, hlt⟩ := h.publishes (F := (ρ.flushed k).length) (max k N)
        ⟨⟨le_max_right k N, by omega⟩, hstill⟩
      exact ⟨m, (le_max_left k N).trans hm, hlt⟩
  -- tables are published one at a time
  obtain ⟨m, hkm, hlt⟩ := hlater
  have hone : ∀ n, (ρ.flushed (n + 1)).length ≤ (ρ.flushed n).length + 1 := by
    intro n
    rcases (h.moves n).queue with ⟨-, heq, -⟩ | ⟨mt, file, -, -, -, heq⟩
    · exact (congrArg List.length heq).le.trans (Nat.le_succ _)
    · exact ((congrArg List.length heq).trans (List.length_append ..)).le
  have hexact : ∀ m, k ≤ m → (ρ.flushed m).length = (ρ.flushed k).length ∨
      ∃ m', k ≤ m' ∧ (ρ.flushed m').length = (ρ.flushed k).length + 1 := by
    intro m hm
    induction m, hm using Nat.le_induction with
    | base => exact Or.inl rfl
    | succ m hm ih =>
      rcases ih with heq | hdone
      · have hle := h.flushed_le m
        have hstep := hone m
        by_cases hsame : (ρ.flushed (m + 1)).length = (ρ.flushed k).length
        · exact Or.inl hsame
        · exact Or.inr ⟨m + 1, by omega, by omega⟩
      · exact Or.inr hdone
  rcases hexact m hkm with heq | hdone
  · omega
  · exact hdone

def Retired (ρ : FlushRun cfg) (n i : Nat) (mt : Memtable) (m : Nat) : Prop :=
  ∃ earlier table later, ρ.flushed m = ρ.flushed n ++ earlier ++ [table] ∧ earlier.length = i ∧
    table.reader.entries = mt.entries ∧
    (ρ.state m).immutable = (ρ.state n).immutable.drop (i + 1) ++ later

theorem Undisturbed.passes (h : ρ.Undisturbed stage N) {n j : Nat}
    (hj : j ≤ (ρ.state n).immutable.length) :
    ∃ m, n ≤ m ∧ (ρ.flushed m).length = (ρ.flushed n).length + j := by
  induction j with
  | zero => exact ⟨n, le_rfl, rfl⟩
  | succ j ih =>
    obtain ⟨k, hnk, hlen⟩ := ih (by omega)
    obtain ⟨gone, tables, hpassed⟩ := h.passed hnk
    have hgone := hpassed.length_eq
    have htables := congrArg List.length hpassed.1
    rw [List.length_append] at htables
    obtain ⟨later, himm⟩ := hpassed.2.2
    have hcount := congrArg List.length himm
    rw [List.length_append, List.length_append] at hcount
    have hne : (ρ.state k).immutable ≠ [] := by
      intro hnil
      rw [hnil, List.length_nil] at hcount
      omega
    obtain ⟨m, hkm, hnext⟩ := h.advances hne
    exact ⟨m, hnk.trans hkm, by omega⟩

theorem Undisturbed.retires (h : ρ.Undisturbed stage N) {n i : Nat} {mt : Memtable}
    (hmt : (ρ.state n).immutable[i]? = some mt) : ∃ m, n ≤ m ∧ ρ.Retired n i mt m := by
  obtain ⟨hi, hget⟩ := List.getElem?_eq_some_iff.mp hmt
  obtain ⟨m, hnm, hlen⟩ := h.passes (n := n) (j := i + 1) hi
  obtain ⟨gone, tables, hpassed⟩ := h.passed hnm
  have hgone := hpassed.length_eq
  obtain ⟨hflushed, hentries, later, himm⟩ := hpassed
  have htables : tables.length = i + 1 := by
    have hl := congrArg List.length hflushed
    rw [List.length_append] at hl
    omega
  have hsplit : gone = (ρ.state n).immutable.take (i + 1) ∧
      (ρ.state m).immutable = (ρ.state n).immutable.drop (i + 1) ++ later := by
    have htake := congrArg (List.take (i + 1)) himm
    have hdrop := congrArg (List.drop (i + 1)) himm
    rw [List.take_append_of_le_length hi, List.take_left' (hgone.trans htables)] at htake
    rw [List.drop_append_of_le_length hi, List.drop_left' (hgone.trans htables)] at hdrop
    exact ⟨htake.symm, hdrop.symm⟩
  obtain ⟨earlier, table, rfl⟩ : ∃ earlier table, tables = earlier ++ [table] := by
    refine ⟨tables.dropLast, tables.getLast (List.ne_nil_of_length_eq_add_one htables), ?_⟩
    exact (List.dropLast_append_getLast _).symm
  have hearlier : earlier.length = i := by
    rw [List.length_append, List.length_singleton] at htables
    omega
  refine ⟨m, hnm, earlier, table, later, by rw [hflushed, List.append_assoc], hearlier, ?_, hsplit.2⟩
  subst hearlier
  have hlast := congrArg (fun l => l[earlier.length]?) hentries
  simpa [hsplit.1, List.getElem?_take, hmt] using hlast

def TurnedAway (cfg : WriteConfig) (s : FlushEngine) (env : WriteEnv) (call : WriteCall) : Prop :=
  call.validate = .ok () ∧
    (s.writes.checkBackpressureForKey cfg env call.pressureKey).2 = .error (.engineBusy "flush queue full")

def backlog (s : FlushEngine) : Nat := s.immutable.length + if s.active.isEmpty then 0 else 1

/-- While writes are turned away each flush takes one off the backlog. -/
theorem Staged.backlog_step (h : ρ.Staged stage) {n : Nat}
    (hfull : ∀ env call, ρ.action n = .write env call → TurnedAway cfg (ρ.state n) env call) :
    backlog (ρ.state (n + 1)) + (ρ.flushed (n + 1)).length ≤
      backlog (ρ.state n) + (ρ.flushed n).length := by
  have hqueue := (h.moves n).queue
  have hstate := ρ.next n
  unfold flushed
  cases hs : (ρ.state n).step cfg (ρ.action n) with
  | none =>
    rw [hs, Option.getD_none] at hstate
    rw [hstate]
  | some s' =>
    rw [hs, Option.getD_some] at hstate
    rw [hstate] at hqueue ⊢
    by_cases hwrite : ∃ env call, ρ.action n = .write env call
    · obtain ⟨env, call, hact⟩ := hwrite
      have hbusy := (hfull env call hact).2
      rw [hact] at hs
      cases Option.some.inj hs
      rcases (ρ.state n).writes.write_cases cfg env call with ⟨e, herr, seq, -, heq⟩ | ⟨-, hok, -⟩
      · rw [FlushEngine.write_error herr]
        unfold backlog FlushEngine.immutable FlushEngine.active
        dsimp only
        rw [heq]
      · rw [hbusy] at hok
        cases hok
    · by_cases hfreeze : ρ.action n = .freeze
      · rw [hfreeze] at hs
        obtain ⟨engine, hengine, rfl⟩ := Option.map_eq_some_iff.mp hs
        obtain ⟨hne, rfl⟩ := EngineState.freeze_cases hengine
        have hactive : ¬ (ρ.state n).active.isEmpty = true := ne_true_of_eq_false hne
        unfold backlog
        rw [if_neg hactive]
        show ((ρ.state n).immutable ++ [(ρ.state n).active]).length + 0 + _ ≤ _
        rw [List.length_append, List.length_singleton]
        exact le_rfl
      · obtain ⟨hactive, -, himm, -⟩ := (h.at_stage n).step_frame hs
          (fun env call hact => hwrite ⟨env, call, hact⟩) hfreeze
        unfold backlog
        rw [hactive]
        rcases hqueue with ⟨-, hsame, -⟩ | ⟨mt, file, hstage, -, htail, hpub⟩
        · have hlen : s'.immutable.length ≤ (ρ.state n).immutable.length := by
            rcases himm with himm | himm
            · rw [himm]
            · rw [himm, List.length_tail]
              omega
          rw [hsame]
          omega
        · have hfront := (h.at_stage n).front mt (by rw [hstage]; rfl)
          obtain ⟨rest, hrest⟩ := List.head?_eq_some_iff.mp hfront
          rw [hpub, htail, hrest, List.length_append, List.length_singleton, List.tail_cons,
            List.length_cons]
          omega

theorem append_ne_of_head {a b s : String} {c : Char} (ha : a.toList.head? = some c)
    (hs : s.toList.head? ≠ some c) : a ++ b ≠ s := by
  intro h
  apply hs
  rw [← h, String.toList_append, List.head?_append, ha]
  rfl

theorem not_turnedAway {s : FlushEngine} {env : WriteEnv} {call : WriteCall}
    (hmax : 0 < cfg.maxImmutableMemtables) (himm : s.immutable = []) : ¬ TurnedAway cfg s env call := by
  rintro ⟨-, hbusy⟩
  have hlen : s.writes.engine.immutable.length = 0 := congrArg List.length himm
  have hhard : 0 < cfg.immHard := by
    unfold WriteConfig.immHard
    omega
  unfold WriteEngine.checkBackpressureForKey at hbusy
  dsimp only at hbusy
  rw [hlen, if_neg (by omega : ¬ cfg.immHard ≤ 0)] at hbusy
  split_ifs at hbusy with hfrozen hwal hsoft hdepth hl0
  · simp at hbusy
  · simp at hbusy
  · simp only [Bool.and_eq_true, decide_eq_true_eq] at hsoft
    omega
  · have htext := WriteError.engineBusy.inj (Except.error.inj hbusy)
    rw [String.append_assoc] at htext
    exact append_ne_of_head (c := 'c') (by decide) (by decide) htext
  · have htext := WriteError.engineBusy.inj (Except.error.inj hbusy)
    rw [String.append_assoc] at htext
    exact append_ne_of_head (c := 'L') (by decide) (by decide) htext

theorem Undisturbed.not_full_forever (h : ρ.Undisturbed stage N) (hmax : 0 < cfg.maxImmutableMemtables)
    (hwrites : ∀ n, ∃ m, n ≤ m ∧ ∃ env call, ρ.action m = .write env call) (n : Nat) :
    ∃ m, n ≤ m ∧ ∃ env call, ρ.action m = .write env call ∧
      ¬ TurnedAway cfg (ρ.state m) env call := by
  by_contra hnot
  push Not at hnot
  have hbound : ∀ m, n ≤ m → backlog (ρ.state m) + (ρ.flushed m).length ≤
      backlog (ρ.state n) + (ρ.flushed n).length := by
    intro m hm
    induction m, hm using Nat.le_induction with
    | base => exact le_rfl
    | succ m hm ih => exact (h.backlog_step (hnot m hm)).trans ih
  -- so the last table is published at some point, and from there on the queue has to be empty
  obtain ⟨k, hk, hmin⟩ := WellFounded.has_min
    (measure fun m => backlog (ρ.state n) + (ρ.flushed n).length - (ρ.flushed m).length).wf
    (Set.Ici n) ⟨n, Set.mem_Ici.mpr le_rfl⟩
  have hempty : ∀ m, k ≤ m → (ρ.state m).immutable = [] := by
    intro m hm
    by_contra hne
    obtain ⟨m', hmm', hlen⟩ := h.advances hne
    have hnk : n ≤ k := hk
    have hmono := monotone_nat_of_le_succ (f := fun m => (ρ.flushed m).length) h.flushed_le hm
    have hle := hbound m' (by omega)
    refine hmin m' (Set.mem_Ici.mpr (by omega)) ?_
    show _ - (ρ.flushed m').length < _ - (ρ.flushed k).length
    simp only at hmono
    omega
  obtain ⟨m, hkm, env, call, hact⟩ := hwrites k
  exact not_turnedAway hmax (hempty m hkm) (hnot m (le_trans hk hkm) env call hact)

/-- In a run in which the engine keeps being polled, the threads keep going, jobs fail finitely often
and no flush is lost on its way, every frozen memtable ends up as a table and leaves the queue, and the
length of the queue does not turn all writes away forever. -/
theorem flush_progress (cfg : WriteConfig) (ρ : FlushRun cfg) (hfair : ρ.Fair)
    (hworks : ∃ N, ∀ n, N ≤ n → ρ.action n ≠ .flushFailed)
    (hkept : ∀ n, (ρ.state n).KeepsFlush (ρ.action n)) (hmax : 0 < cfg.maxImmutableMemtables) :
    (∀ n i mt, (ρ.state n).immutable[i]? = some mt → ∃ m, n ≤ m ∧ ρ.Retired n i mt m) ∧
    ((∀ n, ∃ m, n ≤ m ∧ ∃ env call, ρ.action m = .write env call) →
      ∀ n, ∃ m, n ≤ m ∧ ∃ env call, ρ.action m = .write env call ∧
        ¬ TurnedAway cfg (ρ.state m) env call) := by
  obtain ⟨stage, hidle, hstaged⟩ := ρ.exists_staged
  obtain ⟨N, hN⟩ := hworks
  have h : ρ.Undisturbed stage N := ⟨hstaged, hidle, hfair, hkept, hN⟩
  exact ⟨fun n i mt hmt => h.retires hmt, fun hwrites n => h.not_full_forever hmax hwrites n⟩

def eagerConfig : WriteConfig := ⟨0, 4, none, 4⟩

def scriptAction (script : List FlushAction) (n : Nat) : FlushAction := script.getD n (.pollFlush true [])

def scriptState (script : List FlushAction) : Nat → FlushEngine
  | 0 => .opened FairShareState.twoTenants ⟨0, fun _ => none, fun _ => 0⟩ .init
  | n + 1 => ((scriptState script n).step eagerConfig (scriptAction script n)).getD (scriptState script n)

def scripted (script : List FlushAction) : FlushRun eagerConfig where
  state := scriptState script
  action := scriptAction script
  opened := ⟨_, _, .init, rfl, rfl⟩
  next _ := rfl

def Quiet (s : FlushEngine) : Prop :=
  s.results = [] ∧ s.ready = [] ∧ (s.flushInFlight = true ∨ s.immutable = [])

theorem Quiet.pollFlush {s : FlushEngine} (h : Quiet s) : s.pollFlush true [] = s := by
  obtain ⟨hresults, hready, hidle⟩ := h
  have hsubmit : s.trySubmitFlush = s := by
    unfold FlushEngine.trySubmitFlush
    rcases hidle with hflight | himm
    · rw [hflight]
      rfl
    · split
      next => rfl
      next =>
        have hself : s.setEngine { s.writes.engine with immutable := s.immutable.dropWhile Memtable.isEmpty } =
            s := by
          rw [himm, List.dropWhile_nil, ← himm]
          rfl
        rw [hself]
        dsimp only
        rw [himm]
  have hself : { s with results := [] } = s := by rw [← hresults]
  have hdrained : { s with ready := [] } = s := by rw [← hready]
  unfold FlushEngine.pollFlush
  rw [hself, hresults]
  show s.trySubmitFlush.drainCatalogApply [] = s
  rw [hsubmit]
  unfold FlushEngine.drainCatalogApply
  rw [hdrained, hready]
  rfl

theorem scriptState_quiet (script : List FlushAction) {k : Nat} (hk : script.length ≤ k)
    (h : Quiet (scriptState script k)) {n : Nat} (hn : k ≤ n) :
    scriptState script n = scriptState script k := by
  induction n, hn using Nat.le_induction with
  | base => rfl
  | succ n hn ih =>
    have hact : scriptAction script n = .pollFlush true [] :=
      List.getD_eq_default _ _ (hk.trans hn)
    rw [scriptState, hact, ih]
    exact h.pollFlush

theorem scripted_fair {script : List FlushAction} (k : Nat) (hk : script.length ≤ k)
    (h : Quiet (scriptState script k)) (hworker : (scriptState script k).worker = .idle)
    (hqueue : (scriptState script k).applyQueue = [])
    (hflush : ∀ n, n < k → (scriptState script n).worker ≠ .idle →
      (scriptAction script n).byFlushThread = true ∧
        ((scriptState script n).step eagerConfig (scriptAction script n)).isSome = true)
    (happly : ∀ n, n < k → (scriptState script n).applyQueue ≠ [] →
      (scriptAction script n).byApplyThread = true) : (scripted script).Fair := by
  refine ⟨fun n => ⟨max n k, le_max_left n k, true, [], ?_⟩, fun n hn => ⟨n, le_rfl, ?_⟩,
    fun n hn => ⟨n, le_rfl, ?_⟩⟩
  · exact List.getD_eq_default _ _ (hk.trans (le_max_right n k))
  · refine hflush n (lt_of_not_ge fun hge => hn ?_) hn
    exact (congrArg FlushEngine.worker (scriptState_quiet script hk h hge)).trans hworker
  · refine happly n (lt_of_not_ge fun hge => hn ?_) hn
    exact (congrArg FlushEngine.applyQueue (scriptState_quiet script hk h hge)).trans hqueue

def flushScript : List FlushAction :=
  [.write (WriteEngine.calmEnv (.ok ())) (.put (WriteEngine.tenantKey 1) [7] 0), .flushFinished fun _ => true,
    .sendResult, .pollFlush true []]

def keptScript : List FlushAction := flushScript ++ [.applyFinished, .pollFlush true []]

def lostScript : List FlushAction := flushScript ++ [.applyFailed]

theorem keptScript_fair : (scripted keptScript).Fair := by
  refine scripted_fair 6 le_rfl ⟨rfl, rfl, Or.inr rfl⟩ rfl rfl (fun n hn hne => ?_) fun n hn hne => ?_
  · interval_cases n
    · exact absurd rfl hne
    · exact ⟨rfl, rfl⟩
    · exact ⟨rfl, rfl⟩
    all_goals exact absurd rfl hne
  · interval_cases n
    · exact absurd rfl hne
    · exact absurd rfl hne
    · exact absurd rfl hne
    · exact absurd rfl hne
    · rfl
    · exact absurd rfl hne

theorem keptScript_keeps (n : Nat) : (scriptState keptScript n).KeepsFlush (scriptAction keptScript n) := by
  by_cases hn : n < 6
  · interval_cases n
    · trivial
    · trivial
    · trivial
    · exact ⟨Or.inl rfl, trivial⟩
    · trivial
    · exact ⟨Or.inl rfl, Or.inl ⟨rfl, trivial⟩⟩
  · have hstate := scriptState_quiet keptScript le_rfl ⟨rfl, rfl, Or.inr rfl⟩ (not_lt.mp hn)
    have hact : scriptAction keptScript n = .pollFlush true [] :=
      List.getD_eq_default _ _ (not_lt.mp hn)
    rw [hstate, hact]
    exact ⟨Or.inl rfl, trivial⟩

/-- The memtable of the one put is flushed. -/
theorem kept_put_retired : ∃ mt, (scriptState keptScript 1).immutable[0]? = some mt ∧
    ∃ m, 1 ≤ m ∧ (scripted keptScript).Retired 1 0 mt m := by
  refine ⟨_, rfl, (flush_progress eagerConfig (scripted keptScript) keptScript_fair ⟨6, fun n hn heq => ?_⟩
    keptScript_keeps (by decide)).1 1 0 _ rfl⟩
  have hact : scriptAction keptScript n = .pollFlush true [] := List.getD_eq_default _ _ hn
  cases hact.symm.trans heq

theorem lostScript_fair : (scripted lostScript).Fair := by
  refine scripted_fair 5 le_rfl ⟨rfl, rfl, Or.inl rfl⟩ rfl rfl (fun n hn hne => ?_) fun n hn hne => ?_
  · interval_cases n
    · exact absurd rfl hne
    · exact ⟨rfl, rfl⟩
    · exact ⟨rfl, rfl⟩
    all_goals exact absurd rfl hne
  · interval_cases n
    · exact absurd rfl hne
    · exact absurd rfl hne
    · exact absurd rfl hne
    · exact absurd rfl hne
    · rfl

/-- One manifest append fails, nothing fails after it, and the memtable stays in the queue forever. -/
theorem lost_apply_blocks_flush :
    (scripted lostScript).Fair ∧ (∀ n, 5 ≤ n → (scripted lostScript).action n = .pollFlush true []) ∧
    ∃ mt, (scriptState lostScript 1).immutable[0]? = some mt ∧
      ∀ m, 1 ≤ m → ¬ (scripted lostScript).Retired 1 0 mt m := by
  refine ⟨lostScript_fair, fun n hn => List.getD_eq_default _ _ hn, _, rfl, fun m _ hm => ?_⟩
  obtain ⟨earlier, table, later, hflushed, -⟩ := hm
  have hnone : (scriptState lostScript m).flushedTables = [] := by
    by_cases hlt : m < 5
    · interval_cases m <;> rfl
    · rw [scriptState_quiet lostScript le_rfl ⟨rfl, rfl, Or.inl rfl⟩ (not_lt.mp hlt)]
      rfl
  change (scriptState lostScript m).flushedTables = _ at hflushed
  rw [hnone] at hflushed
  simp at hflushed

end FlushRun

end ZydecoDb
