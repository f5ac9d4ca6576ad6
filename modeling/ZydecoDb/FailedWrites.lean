import ZydecoDb.WritePath

namespace ZydecoDb

open Lib

def BatchOp.draw : BatchOp → Option (Tenant × Nat)
  | .put key value _ =>
    if value.length = 0 then none else (tenantFromKey key).map fun t => (t, value.length)
  | .del _ => none

theorem BatchOp.draw_eq_some {op : BatchOp} {t : Tenant} {n : Nat} (h : op.draw = some (t, n)) :
    n ≠ 0 ∧ ∃ key value expiresAt, op = .put key value expiresAt ∧ tenantFromKey key = some t ∧
      n = value.length := by
  cases op with
  | del key => cases h
  | put key value expiresAt =>
    rw [draw] at h
    split at h
    next => cases h
    next hne =>
      obtain ⟨t', ht, heq⟩ := Option.map_eq_some_iff.mp h
      cases heq
      exact ⟨hne, key, value, expiresAt, rfl, ht, rfl⟩

namespace FairShareState

variable {s s' : FairShareState} {t : Tenant} {bytes : Nat}

def Drawn (s s' : FairShareState) : Prop :=
  s'.globalRemaining < s.globalRemaining ∨
    ∃ t, s.memtableBytes t < s'.memtableBytes t ∧ s'.memtableBytes t ≤ u64Max

theorem globalRemaining_of_overShare (he : s.cfg.enabled = true) (hb : bytes ≠ 0)
    (hover : ¬ s.memtableBytes t < s.cfg.fairShareMemtable)
    (h : (s.admitMemtable t bytes).2 = .ok ()) :
    bytes ≤ s.globalRemaining ∧ (s.admitMemtable t bytes).1.globalRemaining = s.globalRemaining - bytes := by
  unfold admitMemtable at h ⊢
  simp only [he, Bool.not_true, Bool.false_eq_true, if_false, hb, hover, decide_false, Nat.sub_zero]
    at h ⊢
  split at h
  next => cases h
  next hpool =>
    split at h
    next => cases h
    next hpace =>
      rw [if_neg hpool, if_neg hpace]
      exact ⟨not_lt.mp hpool, rfl⟩

theorem drawn_of_admitted (he : s.cfg.enabled = true) (hb : bytes ≠ 0)
    (h : (s.admitMemtable t bytes).2 = .ok ()) : s.Drawn (s.admitMemtable t bytes).1 := by
  by_cases hover : s.memtableBytes t < s.cfg.fairShareMemtable
  · have hfair : s.cfg.fairShareMemtable ≤ u64Max :=
      (Nat.div_le_self _ _).trans s.cfg.total_le_u64Max
    rcases admitMemtable_ok h with ⟨-, hno | hno⟩ | ⟨-, -, -, hbytes⟩
    · exact absurd (he.symm.trans hno) (by decide)
    · exact absurd hno hb
    · refine Or.inr ⟨t, ?_⟩
      rw [hbytes t, if_pos rfl]
      unfold saturatingAdd
      omega
  · obtain ⟨hle, heq⟩ := globalRemaining_of_overShare he hb hover h
    left
    omega

theorem Drawn.admitMemtable (hd : s.Drawn s') (h : (s'.admitMemtable t bytes).2 = .ok ()) :
    s.Drawn (s'.admitMemtable t bytes).1 := by
  rcases admitMemtable_ok h with ⟨heq, -⟩ | ⟨-, -, hpool, hbytes⟩
  · rw [heq]
    exact hd
  · rcases hd with hlt | ⟨t', hlt, hle⟩
    · exact Or.inl (hpool.trans_lt hlt)
    · refine Or.inr ⟨t', ?_⟩
      rw [hbytes t']
      unfold saturatingAdd
      split <;> omega

end FairShareState

namespace WriteEngine

open FairShareState

def SameBudget (f f' : FairShareState) : Prop :=
  (∀ t, f'.memtableBytes t = f.memtableBytes t) ∧ f'.globalRemaining = f.globalRemaining

theorem not_sameBudget_of_drawn {f f' : FairShareState} (h : f.Drawn f') : ¬ SameBudget f f' := by
  rintro ⟨hbytes, hpool⟩
  rcases h with hlt | ⟨t, hlt, -⟩
  · omega
  · rw [hbytes] at hlt
    exact lt_irrefl _ hlt

def DrawsNothing (fair : FairShareState) (ops : List BatchOp) : Prop :=
  fair.cfg.enabled = false ∨
    ∀ d ∈ (ops.filterMap BatchOp.draw).head?, ∃ e, (fair.admitMemtable d.1 d.2).2 = .error e

theorem admitPuts_cons_of_draw_none {fair : FairShareState} {op : BatchOp} {ops : List BatchOp}
    (h : fair.cfg.enabled = false ∨ op.draw = none) :
    admitPuts fair (op :: ops) = admitPuts fair ops := by
  cases op with
  | del key => rfl
  | put key value expiresAt =>
    rw [admitPuts]
    cases ht : tenantFromKey key with
    | none => rfl
    | some t =>
      have hfree : fair.admitMemtable t value.length = (fair, .ok ()) := by
        rcases h with h | h
        · simp [admitMemtable, h]
        · have hzero : value.length = 0 := by
            by_contra hne
            simp [BatchOp.draw, hne, ht] at h
          simp [admitMemtable, hzero]
      simp only [hfree]

theorem admitPuts_cons_of_draw (fair : FairShareState) {op : BatchOp} (ops : List BatchOp)
    {t : Tenant} {n : Nat} (h : op.draw = some (t, n)) :
    (∃ e, (fair.admitMemtable t n).2 = .error e ∧
      admitPuts fair (op :: ops) = ((fair.admitMemtable t n).1, .error (.engineBusy e))) ∨
    (fair.admitMemtable t n).2 = .ok () ∧
      admitPuts fair (op :: ops) = admitPuts (fair.admitMemtable t n).1 ops := by
  obtain ⟨-, key, value, expiresAt, rfl, ht, rfl⟩ := BatchOp.draw_eq_some h
  rw [admitPuts, ht]
  cases hdrawn : fair.admitMemtable t value.length with
  | mk fair' r =>
    cases r with
    | error e => exact Or.inl ⟨e, rfl, by simp only [hdrawn]⟩
    | ok u => exact Or.inr ⟨rfl, by simp only [hdrawn]⟩

theorem drawn_admitPuts {fair f₀ : FairShareState} {ops : List BatchOp} (h : f₀.Drawn fair) :
    f₀.Drawn (admitPuts fair ops).1 := by
  induction ops generalizing fair with
  | nil => exact h
  | cons op ops ih =>
    cases hd : op.draw with
    | none =>
      rw [admitPuts_cons_of_draw_none (Or.inr hd)]
      exact ih h
    | some d =>
      rcases admitPuts_cons_of_draw fair ops hd with ⟨e, he, heq⟩ | ⟨hok, heq⟩
      · obtain ⟨hbytes, hpool⟩ := admitMemtable_error he
        rw [heq]
        rcases h with hlt | ⟨t, hlt, hle⟩
        · exact Or.inl (hpool.trans_lt hlt)
        · exact Or.inr ⟨t, (hbytes t).symm ▸ hlt, (hbytes t).symm ▸ hle⟩
      · rw [heq]
        exact ih (h.admitMemtable hok)

theorem sameBudget_admitPuts (fair : FairShareState) (ops : List BatchOp) :
    SameBudget fair (admitPuts fair ops).1 ↔ DrawsNothing fair ops := by
  by_cases he : fair.cfg.enabled = true
  · induction ops with
    | nil => exact iff_of_true ⟨fun _ => rfl, rfl⟩ (Or.inr (by simp))
    | cons op ops ih =>
      cases hd : op.draw with
      | none =>
        rw [admitPuts_cons_of_draw_none (Or.inr hd), ih, DrawsNothing, DrawsNothing,
          List.filterMap_cons_none hd]
      | some d =>
        have hhead : DrawsNothing fair (op :: ops) ↔ ∃ e, (fair.admitMemtable d.1 d.2).2 = .error e := by
          rw [DrawsNothing, List.filterMap_cons_some hd]
          simp [he]
        rw [hhead]
        have hne : d.2 ≠ 0 := (BatchOp.draw_eq_some hd).1
        rcases admitPuts_cons_of_draw fair ops hd with ⟨e, herr, heq⟩ | ⟨hok, heq⟩
        · rw [heq]
          exact iff_of_true (admitMemtable_error herr) ⟨e, herr⟩
        · rw [heq]
          refine iff_of_false (not_sameBudget_of_drawn ?_) (by simp [hok])
          exact drawn_admitPuts (drawn_of_admitted he hne hok)
  · have hoff : fair.cfg.enabled = false := by simpa using he
    refine iff_of_true ?_ (Or.inl hoff)
    induction ops with
    | nil => exact ⟨fun _ => rfl, rfl⟩
    | cons op ops ih =>
      rw [admitPuts_cons_of_draw_none (Or.inl hoff)]
      exact ih

section Calls

variable (cfg : WriteConfig) (s : WriteEngine) (env : WriteEnv)

structure Untouched (s s' : WriteEngine) : Prop where
  active : s'.engine.active = s.engine.active
  immutable : s'.engine.immutable = s.engine.immutable
  budget : SameBudget s.fair s'.fair
  usage : s'.policy.usage = s.policy.usage

def ReachesBudget (call : WriteCall) : Prop :=
  call.validate = .ok () ∧ (s.checkBackpressureForKey cfg env call.pressureKey).2 = .ok () ∧
    s.preWrites env call.ops = .ok ()

variable {cfg s env}

theorem sameBudget_noteStall (s : WriteEngine) (env : WriteEnv) (key : Bytes) : SameBudget s.fair (s.noteStall env key) := by
  unfold noteStall
  split
  next t ht =>
    split
    next =>
      refine ⟨fun t' => ?_, rfl⟩
      show ((s.fair.setUsage t _).usage t').memtableBytes = _
      rw [usage_setUsage]
      split
      next heq => rw [heq]; rfl
      next => rfl
    next => exact ⟨fun _ => rfl, rfl⟩
  next => exact ⟨fun _ => rfl, rfl⟩

theorem checkBackpressureForKey_budget (cfg : WriteConfig) (s : WriteEngine) (env : WriteEnv)
    (key : Bytes) :
    SameBudget s.fair (s.checkBackpressureForKey cfg env key).1 ∧
      ((s.checkBackpressureForKey cfg env key).2 = .ok () →
        (s.checkBackpressureForKey cfg env key).1 = s.fair) := by
  have hself : SameBudget s.fair s.fair := ⟨fun _ => rfl, rfl⟩
  have hstall := sameBudget_noteStall s env key
  unfold checkBackpressureForKey
  dsimp only
  split_ifs
  all_goals first
    | exact ⟨hself, fun _ => rfl⟩
    | exact ⟨hstall, fun h => by cases h⟩

theorem writeChecked_failed {ops : List BatchOp} {sysPuts : List (Bytes × Bytes)} {e : WriteError}
    (h : (s.writeChecked cfg env ops sysPuts).2 = .error e) :
    s.Untouched (s.writeChecked cfg env ops sysPuts).1 ↔
      s.preWrites env ops ≠ .ok () ∨ DrawsNothing s.fair ops := by
  have hloop := sameBudget_admitPuts s.fair ops
  unfold writeChecked at h ⊢
  cases hpre : s.preWrites env ops with
  | error e' => exact iff_of_true ⟨rfl, rfl, ⟨fun _ => rfl, rfl⟩, rfl⟩ (Or.inl (by simp))
  | ok u =>
    rw [hpre] at h
    simp only [ne_eq, not_true_eq_false, false_or]
    rw [← hloop]
    cases hdrawn : admitPuts s.fair ops with
    | mk fair r =>
      rw [hdrawn] at h
      cases r with
      | error e' => exact ⟨fun hu => hu.budget, fun hb => ⟨rfl, rfl, hb, rfl⟩⟩
      | ok u =>
        dsimp only at h ⊢
        cases happ : env.append with
        | error e' => exact ⟨fun hu => hu.budget, fun hb => ⟨rfl, rfl, hb, rfl⟩⟩
        | ok u =>
          rw [happ] at h
          cases h

/-- A refused write leaves a charge behind only where it had drawn on the budget. -/
theorem checkThenWrite_failed {valid : Except EngineError Unit} {key : Bytes} {ops : List BatchOp}
    {sysPuts : List (Bytes × Bytes)} {e : WriteError}
    (h : (s.checkThenWrite cfg env valid key ops sysPuts).2 = .error e) :
    s.Untouched (s.checkThenWrite cfg env valid key ops sysPuts).1 ↔
      ¬ (valid = .ok () ∧ (s.checkBackpressureForKey cfg env key).2 = .ok () ∧
        s.preWrites env ops = .ok ()) ∨ DrawsNothing s.fair ops := by
  obtain ⟨hsame, hfair⟩ := checkBackpressureForKey_budget cfg s env key
  unfold checkThenWrite at h ⊢
  cases valid with
  | error e' => exact iff_of_true ⟨rfl, rfl, ⟨fun _ => rfl, rfl⟩, rfl⟩ (Or.inl (by simp))
  | ok u =>
    cases hpress : s.checkBackpressureForKey cfg env key with
    | mk fair r =>
      rw [hpress] at h hsame hfair
      cases r with
      | error e' => exact iff_of_true ⟨rfl, rfl, hsame, rfl⟩ (Or.inl (by simp))
      | ok u =>
        cases (hfair rfl : fair = s.fair)
        have hfailed := writeChecked_failed (s := s) h
        simp only [true_and]
        exact hfailed

/-- A call that fails leaves no trace exactly when it fails before the memtable budget, or draws
nothing on it. -/
theorem failed_write_untouched (cfg : WriteConfig) (s : WriteEngine) (env : WriteEnv) (call : WriteCall)
    (e : WriteError) (h : (s.write cfg env call).2 = .error e) :
    s.Untouched (s.write cfg env call).1 ↔
      ¬ s.ReachesBudget cfg env call ∨ DrawsNothing s.fair call.ops := by
  cases call with
  | put key value expiresAt => exact checkThenWrite_failed h
  | del key => exact checkThenWrite_failed h
  | batch ops sysPuts => exact checkThenWrite_failed h

end Calls

def smallEngine : WriteEngine := ⟨.init, .new twoTenants, ⟨0, fun _ => none, fun _ => 0⟩⟩

def idleConfig : WriteConfig := ⟨64, 4, none, 4⟩

def calmEnv (append : Except EngineError Unit) : WriteEnv := ⟨0, false, 0, 0, fun _ => false, append⟩

def tenantKey (b : UInt8) : Bytes := ksUser :: List.replicate 17 b

/-- A put of 60 bytes by a tenant with 50 is refused and charges nothing. -/
theorem refused_put_untouched :
    smallEngine.Untouched (smallEngine.write idleConfig (calmEnv (.ok ()))
      (.put (tenantKey 1) (List.replicate 60 0) 0)).1 := by
  refine (failed_write_untouched _ _ _ _
    (.engineBusy "fair memtable: tenant over global pool (need 10, have 0)")
    (by decide +kernel)).mpr (Or.inr (Or.inr fun d hd => ?_))
  have heq : d = (⟨List.replicate 16 1, rfl⟩, 60) := (Option.mem_some_iff.mp hd).symm
  subst heq
  exact ⟨"fair memtable: tenant over global pool (need 10, have 0)", by decide +kernel⟩

/-- A put whose record cannot be appended leaves its bytes charged. -/
theorem failed_append_stays_charged :
    (smallEngine.write idleConfig (calmEnv (.error (.io "disk full")))
      (.put (tenantKey 1) [7] 0)).2 = .error (.engine (.io "disk full")) ∧
    ¬ smallEngine.Untouched (smallEngine.write idleConfig (calmEnv (.error (.io "disk full")))
      (.put (tenantKey 1) [7] 0)).1 := by
  refine ⟨by decide +kernel, fun h => ?_⟩
  have hbytes := h.budget.1 ⟨List.replicate 16 1, rfl⟩
  exact absurd hbytes (by decide +kernel)

end WriteEngine

end ZydecoDb
