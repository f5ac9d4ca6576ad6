import ZydecoDb.Session
import ZydecoDb.Lib.SortedMap

namespace ZydecoDb

open Lib

theorem Tenant.bytes_injective : Function.Injective Tenant.bytes := by
  rintro ⟨a, ha⟩ ⟨b, hb⟩ h
  cases h
  rfl

instance tenantOrder : LinearOrder Tenant := LinearOrder.lift' Tenant.bytes Tenant.bytes_injective

def saturatingAdd (a b : Nat) : Nat := min (a + b) u64Max

structure Duration where
  secs : UInt64
  nanos : UInt32

def Duration.asSecsF64 (d : Duration) : Float := d.secs.toFloat + d.nanos.toFloat / 1000000000

def computeRhoBuffer (fairShare : Nat) (flushGranularityB flushBandwidthR : UInt64) (delta : Duration)
    (k : UInt32) : Nat :=
  if fairShare = 0 then 0
  else if k = 0 ∨ flushBandwidthR = 0 then fairShare
  else
    let reclaimable := (flushBandwidthR.toFloat * delta.asSecsF64 / k.toFloat).toUInt64.toNat
    let b := max flushGranularityB.toNat 1
    let reclaimable := reclaimable / b * b
    fairShare - min reclaimable fairShare

structure FairConfig where
  enabled : Bool
  deltaBuffer : Duration
  rampUpK : UInt32
  tenantCount : UInt32
  memtableTotalBytes : UInt64
  flushBandwidthBytesPerSec : UInt64
  flushGranularityBytes : UInt64
  l0TokenBudget : Int

namespace FairConfig

variable (cfg : FairConfig)

def tenants : Nat := max cfg.tenantCount.toNat 1

def fairShareMemtable : Nat := cfg.memtableTotalBytes.toNat / cfg.tenants

def rhoBuffer : Nat :=
  computeRhoBuffer cfg.fairShareMemtable cfg.flushGranularityBytes cfg.flushBandwidthBytesPerSec
    cfg.deltaBuffer cfg.rampUpK

def memtableReserveBytes : Nat :=
  if 0 < cfg.rhoBuffer then cfg.rhoBuffer else cfg.fairShareMemtable / 4

theorem rhoBuffer_le : cfg.rhoBuffer ≤ cfg.fairShareMemtable := by
  unfold rhoBuffer computeRhoBuffer
  split
  next => exact Nat.zero_le _
  next =>
    split
    next => exact le_rfl
    next => exact Nat.sub_le _ _

theorem memtableReserveBytes_le : cfg.memtableReserveBytes ≤ cfg.fairShareMemtable := by
  unfold memtableReserveBytes
  split
  next => exact cfg.rhoBuffer_le
  next => exact Nat.div_le_self _ _

theorem tenants_pos : 0 < cfg.tenants := Nat.lt_of_lt_of_le Nat.zero_lt_one (le_max_right _ _)

theorem total_le_u64Max : cfg.memtableTotalBytes.toNat ≤ u64Max :=
  Nat.le_pred_of_lt cfg.memtableTotalBytes.toNat_lt

theorem reserve_mul_tenants_le :
    cfg.memtableReserveBytes * cfg.tenants ≤ cfg.memtableTotalBytes.toNat :=
  (Nat.mul_le_mul_right _ cfg.memtableReserveBytes_le).trans (Nat.div_mul_le_self _ _)

end FairConfig

structure TenantUsage where
  memtableBytes : Nat
  l0TokenDebt : Int
  reservedRemaining : Nat

structure FairShareState where
  cfg : FairConfig
  tenants : SortedMap Tenant TenantUsage
  globalRemaining : Nat

namespace FairShareState

def new (cfg : FairConfig) : FairShareState where
  cfg := cfg
  tenants := .empty
  globalRemaining :=
    cfg.memtableTotalBytes.toNat -
      min (min (cfg.memtableReserveBytes * cfg.tenants) u64Max) cfg.memtableTotalBytes.toNat

variable (s : FairShareState)

section

variable (t : Tenant)

def usage : TenantUsage := (s.tenants.get t).getD ⟨0, 0, s.cfg.memtableReserveBytes⟩

def memtableBytes : Nat := (s.usage t).memtableBytes

def ensureTenant : FairShareState :=
  { s with tenants := s.tenants.insert t (s.usage t) }

def setUsage (u : TenantUsage) : FairShareState :=
  { s with tenants := s.tenants.insert t u }

def admitMemtable (bytes : Nat) : FairShareState × Except String Unit :=
  if !s.cfg.enabled then (s, .ok ())
  else if bytes = 0 then (s, .ok ())
  else
    let fairShare := s.cfg.fairShareMemtable
    let belowFair : Bool := s.memtableBytes t < fairShare
    let overTokens : Bool := s.cfg.l0TokenBudget < (s.usage t).l0TokenDebt
    let overShare : Bool := fairShare ≤ s.memtableBytes t
    let fromReserved := if belowFair then min bytes (s.usage t).reservedRemaining else 0
    let fromGlobal := bytes - fromReserved
    let s := if belowFair then s.ensureTenant t else s
    if s.globalRemaining < fromGlobal then
      (s, .error ("fair memtable: tenant over global pool (need " ++ toString fromGlobal ++ ", have " ++
        toString s.globalRemaining ++ ")"))
    else
      let headroomNeed := max (fairShare / 2) fromGlobal
      if (overShare || overTokens) && 0 < fromGlobal && s.globalRemaining < headroomNeed then
        (s, .error ("fair memtable: pacing over-share tenant (global " ++ toString s.globalRemaining ++
          ", need headroom " ++ toString headroomNeed ++ ")"))
      else
        let u := s.usage t
        let s := s.setUsage t { u with
          reservedRemaining := u.reservedRemaining - fromReserved
          memtableBytes := saturatingAdd u.memtableBytes bytes }
        ({ s with globalRemaining := s.globalRemaining - fromGlobal }, .ok ())

def releaseMemtable (bytes : Nat) : FairShareState :=
  if !s.cfg.enabled || bytes = 0 then s
  else
    let u := s.usage t
    let freed := u.memtableBytes - (u.memtableBytes - bytes)
    let room := s.cfg.memtableReserveBytes - u.reservedRemaining
    let toReserved := min freed room
    let s := s.setUsage t { u with
      memtableBytes := u.memtableBytes - bytes
      reservedRemaining := saturatingAdd u.reservedRemaining toReserved }
    { s with globalRemaining := saturatingAdd s.globalRemaining (freed - toReserved) }

def chargeL0Tokens (bytes : Int) : FairShareState :=
  let u := s.usage t
  s.setUsage t { u with l0TokenDebt := u.l0TokenDebt + bytes }

def creditL0Tokens (bytes : Int) : FairShareState :=
  let u := s.usage t
  s.setUsage t { u with l0TokenDebt := max (u.l0TokenDebt - bytes) 0 }

end

end FairShareState

inductive FairAction
  | admitMemtable (tenant : Tenant) (bytes : Nat)
  | release (tenant : Tenant) (bytes : Nat)
  | chargeL0 (tenant : Tenant) (bytes : Int)
  | creditL0 (tenant : Tenant) (bytes : Int)

def FairAction.tenant : FairAction → Tenant
  | .admitMemtable t _ | .release t _ | .chargeL0 t _ | .creditL0 t _ => t

def FairShareState.step (s : FairShareState) : FairAction → FairShareState
  | .admitMemtable t bytes => (s.admitMemtable t bytes).1
  | .release t bytes => s.releaseMemtable t bytes
  | .chargeL0 t bytes => s.chargeL0Tokens t bytes
  | .creditL0 t bytes => s.creditL0Tokens t bytes

namespace FairShareState

variable (s : FairShareState)

def elastic (u : TenantUsage) : Nat :=
  u.memtableBytes + u.reservedRemaining - s.cfg.memtableReserveBytes

def charged : Nat := s.tenants.sum TenantUsage.memtableBytes

/-- What the pool has and what the tenants have drawn from it are all there is beside the reserves.
-/
structure Inv : Prop where
  reserved : ∀ t, (s.usage t).reservedRemaining ≤ s.cfg.memtableReserveBytes ∧
    s.cfg.memtableReserveBytes ≤ (s.usage t).memtableBytes + (s.usage t).reservedRemaining
  pool : s.tenants.sum s.elastic + s.globalRemaining =
    s.cfg.memtableTotalBytes.toNat - s.cfg.memtableReserveBytes * s.cfg.tenants

variable {s}

theorem inv_new (cfg : FairConfig) : (new cfg).Inv := by
  have hle := cfg.reserve_mul_tenants_le
  refine ⟨fun t => ⟨le_rfl, Nat.le_add_left _ _⟩, ?_⟩
  show 0 + (cfg.memtableTotalBytes.toNat -
    min (min (cfg.memtableReserveBytes * cfg.tenants) u64Max) cfg.memtableTotalBytes.toNat) = _
  rw [Nat.zero_add, min_eq_left (hle.trans cfg.total_le_u64Max), min_eq_left hle]
  rfl

theorem usage_setUsage (t t' : Tenant) (u : TenantUsage) :
    (s.setUsage t u).usage t' = if t' = t then u else s.usage t' := by
  unfold usage setUsage
  rw [SortedMap.get_insert]
  split <;> rfl

theorem usage_of_get {t : Tenant} {u : TenantUsage} (h : s.tenants.get t = some u) : s.usage t = u := by
  simp [usage, h]

theorem elastic_none (t : Tenant) (h : s.tenants.get t = none) : s.elastic (s.usage t) = 0 := by
  simp [elastic, usage, h]

theorem sum_elastic_setUsage (t : Tenant) (u : TenantUsage) :
    (s.setUsage t u).tenants.sum s.elastic + s.elastic (s.usage t) =
      s.tenants.sum s.elastic + s.elastic u := by
  have hsum := s.tenants.sum_insert t u s.elastic
  cases hget : s.tenants.get t with
  | none =>
    rw [hget] at hsum
    rw [elastic_none t hget]
    exact hsum
  | some v =>
    rw [hget] at hsum
    rw [usage_of_get hget]
    exact hsum

theorem Inv.setUsage (hi : s.Inv) (t : Tenant) {u : TenantUsage} {pool : Nat}
    (hr : u.reservedRemaining ≤ s.cfg.memtableReserveBytes)
    (hu : s.cfg.memtableReserveBytes ≤ u.memtableBytes + u.reservedRemaining)
    (hpool : s.elastic u + pool = s.elastic (s.usage t) + s.globalRemaining) :
    Inv { s.setUsage t u with globalRemaining := pool } := by
  refine ⟨fun t' => ?_, ?_⟩
  · show ((s.setUsage t u).usage t').reservedRemaining ≤ s.cfg.memtableReserveBytes ∧
      s.cfg.memtableReserveBytes ≤
        ((s.setUsage t u).usage t').memtableBytes + ((s.setUsage t u).usage t').reservedRemaining
    rw [usage_setUsage]
    split
    next => exact ⟨hr, hu⟩
    next => exact hi.reserved t'
  · have hsum := s.sum_elastic_setUsage t u
    have htotal := hi.pool
    show (s.setUsage t u).tenants.sum s.elastic + pool =
      s.cfg.memtableTotalBytes.toNat - s.cfg.memtableReserveBytes * s.cfg.tenants
    omega

theorem usage_ensureTenant (t t' : Tenant) : (s.ensureTenant t).usage t' = s.usage t' := by
  have h := usage_setUsage (s := s) t t' (s.usage t)
  refine h.trans ?_
  split
  next he => rw [he]
  next => rfl

theorem Inv.ensureTenant (hi : s.Inv) (t : Tenant) : (s.ensureTenant t).Inv :=
  hi.setUsage t (hi.reserved t).1 (hi.reserved t).2 rfl

/-- No counter saturates. -/
theorem Inv.add_le_u64Max (hi : s.Inv) (t : Tenant) :
    (s.usage t).memtableBytes + (s.usage t).reservedRemaining + s.globalRemaining ≤ u64Max := by
  have hpool := hi.pool
  have hmul := s.cfg.reserve_mul_tenants_le
  have hone : s.cfg.memtableReserveBytes ≤ s.cfg.memtableReserveBytes * s.cfg.tenants :=
    Nat.le_mul_of_pos_right _ s.cfg.tenants_pos
  have hle : s.elastic (s.usage t) ≤ s.tenants.sum s.elastic := by
    cases hget : s.tenants.get t with
    | none =>
      rw [elastic_none t hget]
      exact Nat.zero_le _
    | some v =>
      rw [usage_of_get hget]
      exact SortedMap.le_sum hget
  have hres := hi.reserved t
  have htotal := s.cfg.total_le_u64Max
  rw [elastic] at hle
  omega

theorem ensured_frame {s₁ : FairShareState} {t : Tenant} (h : s₁ = s ∨ s₁ = s.ensureTenant t) :
    s₁.cfg = s.cfg ∧ s₁.globalRemaining = s.globalRemaining ∧ ∀ t', s₁.usage t' = s.usage t' := by
  rcases h with rfl | rfl
  · exact ⟨rfl, rfl, fun _ => rfl⟩
  · exact ⟨rfl, rfl, usage_ensureTenant t⟩

/-- An admission changes nothing, is refused, or draws on the reserve and then the shared rest. -/
theorem admitMemtable_cases (s : FairShareState) (t : Tenant) (bytes : Nat) :
    (s.admitMemtable t bytes = (s, .ok ()) ∧ (s.cfg.enabled = false ∨ bytes = 0)) ∨
    s.cfg.enabled = true ∧ 0 < bytes ∧ ∃ s₁, (s₁ = s ∨ s₁ = s.ensureTenant t) ∧
      ((∃ e, s.admitMemtable t bytes = (s₁, .error e) ∧
        (s.memtableBytes t < s.cfg.fairShareMemtable → (s.usage t).reservedRemaining < bytes)) ∨
      ∃ fromReserved ≤ min bytes (s.usage t).reservedRemaining,
        bytes - fromReserved ≤ s.globalRemaining ∧
        s.admitMemtable t bytes =
          ({ s₁.setUsage t
              { s.usage t with
                reservedRemaining := (s.usage t).reservedRemaining - fromReserved
                memtableBytes := saturatingAdd (s.usage t).memtableBytes bytes } with
              globalRemaining := s.globalRemaining - (bytes - fromReserved) }, .ok ())) := by
  unfold admitMemtable
  by_cases he : s.cfg.enabled = true
  · by_cases hb : bytes = 0
    · exact Or.inl ⟨by simp [he, hb], Or.inr hb⟩
    · right
      refine ⟨he, Nat.pos_of_ne_zero hb, ?_⟩
      rw [if_neg (by simp [he]), if_neg hb]
      by_cases hf : s.memtableBytes t < s.cfg.fairShareMemtable
      · refine ⟨s.ensureTenant t, Or.inr rfl, ?_⟩
        simp only [hf, decide_true, if_true, usage_ensureTenant]
        split
        next hpool =>
          have hpool : s.globalRemaining < bytes - min bytes (s.usage t).reservedRemaining := hpool
          exact Or.inl ⟨_, rfl, fun _ => by omega⟩
        next hpool =>
          have hpool : ¬ s.globalRemaining < bytes - min bytes (s.usage t).reservedRemaining := hpool
          split
          next hpace =>
            simp only [Bool.and_eq_true, decide_eq_true_eq] at hpace
            have hneed := hpace.1.2
            exact Or.inl ⟨_, rfl, fun _ => by omega⟩
          next => exact Or.inr ⟨min bytes (s.usage t).reservedRemaining, le_rfl, by omega, rfl⟩
      · refine ⟨s, Or.inl rfl, ?_⟩
        simp only [hf, decide_false, Bool.false_eq_true, if_false, Nat.sub_zero]
        split
        next => exact Or.inl ⟨_, rfl, fun h => h.elim⟩
        next hpool =>
          split
          next => exact Or.inl ⟨_, rfl, fun h => h.elim⟩
          next => exact Or.inr ⟨0, Nat.zero_le _, by omega, rfl⟩
  · exact Or.inl ⟨by simp [he], Or.inl (by simpa using he)⟩

theorem saturatingAdd_eq {a b : Nat} (h : a + b ≤ u64Max) : saturatingAdd a b = a + b :=
  min_eq_left h

theorem Inv.admitMemtable (hi : s.Inv) (t : Tenant) (bytes : Nat) : (s.admitMemtable t bytes).1.Inv := by
  rcases s.admitMemtable_cases t bytes with ⟨h, -⟩ | ⟨-, -, s₁, hs₁, h⟩
  · rw [h]
    exact hi
  · have hi₁ : s₁.Inv := by
      rcases hs₁ with rfl | rfl
      · exact hi
      · exact hi.ensureTenant t
    obtain ⟨hcfg, hglobal, hu⟩ := ensured_frame hs₁
    rcases h with ⟨e, he, -⟩ | ⟨fromReserved, hle, hpool, he⟩
    · rw [he]
      exact hi₁
    · rw [he]
      have hres := hi.reserved t
      have hmax := hi.add_le_u64Max t
      have hsat : saturatingAdd (s.usage t).memtableBytes bytes = (s.usage t).memtableBytes + bytes :=
        saturatingAdd_eq (by omega)
      refine hi₁.setUsage t ?_ ?_ ?_
      · rw [hcfg]
        dsimp only
        omega
      · rw [hcfg, hsat]
        dsimp only
        omega
      · rw [hu, hglobal, hsat]
        unfold elastic
        rw [hcfg]
        dsimp only
        omega

theorem Inv.releaseMemtable (hi : s.Inv) (t : Tenant) (bytes : Nat) :
    (s.releaseMemtable t bytes).Inv := by
  unfold FairShareState.releaseMemtable
  split
  next => exact hi
  next =>
    have hres := hi.reserved t
    have hmax := hi.add_le_u64Max t
    dsimp only
    rw [saturatingAdd_eq (by omega), show (s.setUsage t _).globalRemaining = s.globalRemaining from rfl,
      saturatingAdd_eq (by omega)]
    refine hi.setUsage t ?_ ?_ ?_
    · dsimp only
      omega
    · dsimp only
      omega
    · unfold elastic
      dsimp only
      omega

theorem Inv.setDebt (hi : s.Inv) (t : Tenant) (debt : Int) :
    (s.setUsage t { s.usage t with l0TokenDebt := debt }).Inv :=
  hi.setUsage t (hi.reserved t).1 (hi.reserved t).2 rfl

theorem Inv.step (hi : s.Inv) (a : FairAction) : (s.step a).Inv := by
  cases a with
  | admitMemtable t bytes => exact hi.admitMemtable t bytes
  | release t bytes => exact hi.releaseMemtable t bytes
  | chargeL0 t bytes => exact hi.setDebt t _
  | creditL0 t bytes => exact hi.setDebt t _

theorem step_frame (s : FairShareState) (a : FairAction) :
    (s.step a).cfg = s.cfg ∧
      ∀ t, (s.step a).tenants.get t ≠ none → s.tenants.get t ≠ none ∨ t = a.tenant := by
  have hset : ∀ (s : FairShareState) (t : Tenant) (u : TenantUsage), ∀ t',
      (s.setUsage t u).tenants.get t' ≠ none → s.tenants.get t' ≠ none ∨ t' = t := by
    intro s t u t' h
    by_cases he : t' = t
    · exact Or.inr he
    · have hget : (s.setUsage t u).tenants.get t' = s.tenants.get t' := SortedMap.get_insert_ne he
      exact Or.inl (hget ▸ h)
  cases a with
  | admitMemtable t bytes =>
    show (s.admitMemtable t bytes).1.cfg = s.cfg ∧
      ∀ t', (s.admitMemtable t bytes).1.tenants.get t' ≠ none → s.tenants.get t' ≠ none ∨ t' = t
    rcases s.admitMemtable_cases t bytes with ⟨h, -⟩ | ⟨-, -, s₁, hs₁, h⟩
    · rw [h]
      exact ⟨rfl, fun _ h => Or.inl h⟩
    · have h₁ : s₁.cfg = s.cfg ∧ ∀ t', s₁.tenants.get t' ≠ none → s.tenants.get t' ≠ none ∨ t' = t := by
        rcases hs₁ with rfl | rfl
        · exact ⟨rfl, fun _ h => Or.inl h⟩
        · exact ⟨rfl, hset s t _⟩
      rcases h with ⟨e, he, -⟩ | ⟨fromReserved, -, -, he⟩
      · rw [he]
        exact h₁
      · rw [he]
        refine ⟨h₁.1, fun t' ht' => ?_⟩
        rcases hset s₁ t _ t' ht' with ht' | ht'
        · exact h₁.2 t' ht'
        · exact Or.inr ht'
  | release t bytes =>
    show (s.releaseMemtable t bytes).cfg = s.cfg ∧
      ∀ t', (s.releaseMemtable t bytes).tenants.get t' ≠ none → s.tenants.get t' ≠ none ∨ t' = t
    unfold releaseMemtable
    split
    next => exact ⟨rfl, fun _ h => Or.inl h⟩
    next => exact ⟨rfl, fun t' ht' => hset s t _ t' ht'⟩
  | chargeL0 t bytes => exact ⟨rfl, hset s t _⟩
  | creditL0 t bytes => exact ⟨rfl, hset s t _⟩

/-- The counters add up after every run from a new state. -/
theorem inv_of_run (cfg : FairConfig) (actions : List FairAction) :
    (actions.foldl step (new cfg)).Inv ∧ (actions.foldl step (new cfg)).cfg = cfg ∧
      ∀ t, (actions.foldl step (new cfg)).tenants.get t ≠ none → ∃ a ∈ actions, a.tenant = t := by
  induction actions using List.reverseRecOn with
  | nil => exact ⟨inv_new cfg, rfl, fun t h => absurd rfl h⟩
  | append_singleton actions a ih =>
    rw [List.foldl_append]
    obtain ⟨hi, hcfg, hkeys⟩ := ih
    obtain ⟨hframe, hget⟩ := step_frame (actions.foldl step (new cfg)) a
    refine ⟨hi.step a, hframe.trans hcfg, fun t ht => ?_⟩
    rcases hget t ht with h | h
    · obtain ⟨b, hb, hbt⟩ := hkeys t h
      exact ⟨b, List.mem_append_left _ hb, hbt⟩
    · exact ⟨a, List.mem_append_right _ List.mem_cons_self, h.symm⟩

theorem Inv.admits (hi : s.Inv) {t : Tenant} {bytes : Nat}
    (h : s.memtableBytes t + bytes ≤ s.cfg.memtableReserveBytes) :
    (s.admitMemtable t bytes).2 = .ok () := by
  rcases s.admitMemtable_cases t bytes with ⟨he, -⟩ | ⟨-, hpos, s₁, -, ⟨e, he, hneed⟩ | ⟨_, _, _, he⟩⟩
  · rw [he]
  · exfalso
    have hres := hi.reserved t
    have hshare := s.cfg.memtableReserveBytes_le
    have hbelow : s.memtableBytes t < s.cfg.fairShareMemtable := by omega
    have hlack := hneed hbelow
    unfold memtableBytes at h
    omega
  · rw [he]

theorem Inv.charged_le (hi : s.Inv) (hsize : s.tenants.size ≤ s.cfg.tenants) :
    s.charged ≤ s.cfg.memtableTotalBytes.toNat := by
  have hsum : s.charged ≤ s.tenants.sum s.elastic + s.cfg.memtableReserveBytes * s.tenants.size := by
    refine s.tenants.sum_le_mul_size fun t u hu => ?_
    have hres := hi.reserved t
    rw [usage_of_get hu] at hres
    unfold elastic
    omega
  have hpool := hi.pool
  have hmul := s.cfg.reserve_mul_tenants_le
  have hle : s.cfg.memtableReserveBytes * s.tenants.size ≤ s.cfg.memtableReserveBytes * s.cfg.tenants :=
    Nat.mul_le_mul_left _ hsize
  omega

variable {t : Tenant} {bytes : Nat}

theorem admitMemtable_error {e : String} (h : (s.admitMemtable t bytes).2 = .error e) :
    (∀ t', (s.admitMemtable t bytes).1.memtableBytes t' = s.memtableBytes t') ∧
      (s.admitMemtable t bytes).1.globalRemaining = s.globalRemaining := by
  rcases s.admitMemtable_cases t bytes with ⟨heq, -⟩ | ⟨-, -, s₁, hs₁, ⟨e', heq, -⟩ | ⟨_, _, _, heq⟩⟩
  · rw [heq] at h
    cases h
  · rw [heq]
    obtain ⟨-, hglobal, husage⟩ := ensured_frame hs₁
    exact ⟨fun t' => congrArg _ (husage t'), hglobal⟩
  · rw [heq] at h
    cases h

theorem admitMemtable_ok (h : (s.admitMemtable t bytes).2 = .ok ()) :
    (s.admitMemtable t bytes).1 = s ∧ (s.cfg.enabled = false ∨ bytes = 0) ∨
    (s.admitMemtable t bytes).1.cfg = s.cfg ∧
      bytes ≤ (s.usage t).reservedRemaining + s.globalRemaining ∧
      (s.admitMemtable t bytes).1.globalRemaining ≤ s.globalRemaining ∧
      ∀ t', (s.admitMemtable t bytes).1.memtableBytes t' =
        if t' = t then saturatingAdd (s.memtableBytes t') bytes else s.memtableBytes t' := by
  rcases s.admitMemtable_cases t bytes with ⟨heq, hno⟩ | ⟨-, -, s₁, hs₁, ⟨e', heq, -⟩ |
    ⟨fromReserved, hle, hpool, heq⟩⟩
  · rw [heq]
    exact Or.inl ⟨rfl, hno⟩
  · rw [heq] at h
    cases h
  · rw [heq]
    obtain ⟨hcfg, -, husage⟩ := ensured_frame hs₁
    refine Or.inr ⟨hcfg, by omega, Nat.sub_le _ _, fun t' => ?_⟩
    show ((s₁.setUsage t _).usage t').memtableBytes = _
    rw [usage_setUsage]
    split
    next heq' =>
      subst heq'
      rfl
    next =>
      rw [husage]
      rfl

theorem Inv.memtableBytes_admitMemtable (hi : s.Inv) (he : s.cfg.enabled = true)
    (h : (s.admitMemtable t bytes).2 = .ok ()) :
    (s.admitMemtable t bytes).1.cfg = s.cfg ∧
      ∀ t', (s.admitMemtable t bytes).1.memtableBytes t' =
        s.memtableBytes t' + if t' = t then bytes else 0 := by
  rcases admitMemtable_ok h with ⟨heq, hno⟩ | ⟨hcfg, hle, -, hbytes⟩
  · have hzero : bytes = 0 := by simpa [he] using hno
    rw [heq, hzero]
    exact ⟨rfl, fun t' => by simp⟩
  · refine ⟨hcfg, fun t' => ?_⟩
    rw [hbytes t']
    split
    next heq =>
      subst heq
      have hres := hi.reserved t'
      have hmax := hi.add_le_u64Max t'
      refine saturatingAdd_eq ?_
      unfold memtableBytes
      omega
    next => rfl

theorem memtableBytes_setDebt (s : FairShareState) (t t' : Tenant) (debt : Int) :
    (s.setUsage t { s.usage t with l0TokenDebt := debt }).memtableBytes t' = s.memtableBytes t' := by
  unfold memtableBytes
  rw [usage_setUsage]
  split
  next heq => rw [heq]
  next => rfl

theorem memtableBytes_releaseMemtable (he : s.cfg.enabled = true) (t t' : Tenant) (bytes : Nat) :
    (s.releaseMemtable t bytes).memtableBytes t' =
      if t' = t then s.memtableBytes t' - bytes else s.memtableBytes t' := by
  unfold releaseMemtable
  split
  next hno =>
    have hzero : bytes = 0 := by simpa [he] using hno
    rw [hzero]
    split <;> rfl
  next =>
    show ((s.setUsage t _).usage t').memtableBytes = _
    rw [usage_setUsage]
    split
    next heq =>
      rw [heq]
      rfl
    next => rfl

/-- One more action of a run, with what tenant `t` holds behind it: the bytes of its admitted writes
less those released, read off the answers and not off the counters. -/
def heldStep (t : Tenant) (p : FairShareState × Nat) (a : FairAction) : FairShareState × Nat :=
  (p.1.step a, match a with
    | .admitMemtable t' bytes =>
      match (p.1.admitMemtable t' bytes).2 with
      | .ok _ => p.2 + if t = t' then bytes else 0
      | .error _ => p.2
    | .release t' bytes => if t = t' then p.2 - bytes else p.2
    | _ => p.2)

def held (cfg : FairConfig) (actions : List FairAction) (t : Tenant) : Nat :=
  (actions.foldl (heldStep t) (new cfg, 0)).2

theorem memtableBytes_step (hi : s.Inv) (he : s.cfg.enabled = true) (a : FairAction) (t : Tenant) :
    (s.step a).memtableBytes t = (heldStep t (s, s.memtableBytes t) a).2 := by
  cases a with
  | admitMemtable t' bytes =>
    simp only [step, heldStep]
    split
    next h => exact (hi.memtableBytes_admitMemtable he h).2 t
    next h => exact (admitMemtable_error h).1 t
  | release t' bytes => exact memtableBytes_releaseMemtable he t' t bytes
  | chargeL0 t' bytes => exact memtableBytes_setDebt s t' t _
  | creditL0 t' bytes => exact memtableBytes_setDebt s t' t _

theorem foldl_heldStep (cfg : FairConfig) (he : cfg.enabled = true) (actions : List FairAction)
    (t : Tenant) :
    actions.foldl (heldStep t) (new cfg, 0) =
      (actions.foldl step (new cfg), (actions.foldl step (new cfg)).memtableBytes t) := by
  induction actions using List.reverseRecOn with
  | nil => rfl
  | append_singleton actions a ih =>
    obtain ⟨hi, hcfg, -⟩ := inv_of_run cfg actions
    rw [List.foldl_append, List.foldl_append, ih, List.foldl_cons, List.foldl_cons, List.foldl_nil,
      List.foldl_nil, memtableBytes_step hi (by rw [hcfg]; exact he)]
    rfl

/-- After any admissions and releases: a tenant is charged what it was admitted less what was released;
a write that stays within the tenant's reserved share is admitted, whatever the others did; and no more
is charged than the whole budget while there are no more tenants than configured. -/
theorem memtable_isolated (cfg : FairConfig) (actions : List FairAction) :
    (cfg.enabled = true →
      ∀ t, (actions.foldl step (new cfg)).memtableBytes t = held cfg actions t) ∧
    (∀ t bytes, (actions.foldl step (new cfg)).memtableBytes t + bytes ≤ cfg.memtableReserveBytes →
      ((actions.foldl step (new cfg)).admitMemtable t bytes).2 = .ok ()) ∧
    ∀ tenants : List Tenant, tenants.length ≤ cfg.tenants → (∀ a ∈ actions, a.tenant ∈ tenants) →
      (actions.foldl step (new cfg)).charged ≤ cfg.memtableTotalBytes.toNat := by
  obtain ⟨hi, hcfg, hkeys⟩ := inv_of_run cfg actions
  refine ⟨fun he t => ?_, fun t bytes h => hi.admits (hcfg.symm ▸ h), fun tenants hlen hall => ?_⟩
  · rw [held, foldl_heldStep cfg he]
  have hsize : (actions.foldl step (new cfg)).tenants.size ≤ tenants.length := by
    refine SortedMap.size_le_length _ fun t ht => ?_
    obtain ⟨a, ha, rfl⟩ := hkeys t ht
    exact hall a ha
  have hle := hi.charged_le (hcfg.symm ▸ hsize.trans hlen)
  rw [hcfg] at hle
  exact hle

def twoTenants : FairConfig where
  enabled := true
  deltaBuffer := ⟨0, 0⟩
  rampUpK := 0
  tenantCount := 2
  memtableTotalBytes := 100
  flushBandwidthBytesPerSec := 0
  flushGranularityBytes := 1
  l0TokenBudget := 0

def noisyTenant : Tenant := ⟨List.replicate 16 2, rfl⟩

def noisyRun : List FairAction :=
  [.admitMemtable noisyTenant 50, .admitMemtable noisyTenant 1, .release noisyTenant 10]

/-- Another tenant takes all it can, is refused one byte more and gives ten back: it is charged forty, and
the tenant that has written nothing may take its half. -/
theorem memtable_isolated_beside_noisy :
    (noisyRun.foldl step (new twoTenants)).memtableBytes noisyTenant = 40 ∧
    ((noisyRun.foldl step (new twoTenants)).admitMemtable .zero 50).2 = .ok () ∧
    (noisyRun.foldl step (new twoTenants)).charged ≤ 100 :=
  ⟨((memtable_isolated twoTenants noisyRun).1 rfl noisyTenant).trans (by decide +kernel),
    (memtable_isolated twoTenants noisyRun).2.1 .zero 50 (by decide +kernel),
    (memtable_isolated twoTenants noisyRun).2.2 [noisyTenant] (by decide +kernel) (by decide +kernel)⟩

end FairShareState

end ZydecoDb
