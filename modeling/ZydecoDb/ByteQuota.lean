import ZydecoDb.QuotaSums

namespace ZydecoDb

open Lib

namespace TenantQuotaPolicy

open VersionStore (opSum)

variable {p : TenantQuotaPolicy} {t : Tenant}

theorem usage_postWrite (op : BatchOp) (existing : Option Nat) :
    (p.postWrite op.key op.value.length existing op.isDelete).usage t =
      if tenantFromKey op.key = some t then p.usage t - existing.getD 0 + op.value.length
      else p.usage t := by
  have hlen : (if op.isDelete then p.usage t - existing.getD 0
      else p.usage t - existing.getD 0 + op.value.length) =
      p.usage t - existing.getD 0 + op.value.length := by
    cases op <;> rfl
  unfold postWrite
  cases hk : tenantFromKey op.key with
  | none => simp
  | some t' =>
    show Function.update p.usage t' _ t = _
    by_cases ht : t' = t
    · subst ht
      rw [Function.update_self, if_pos rfl]
      exact hlen
    · rw [Function.update_of_ne (Ne.symm ht), if_neg fun h => ht (Option.some.inj h)]

theorem capFor_postWrite (key : Bytes) (n : Nat) (existing : Option Nat) (isDelete : Bool) :
    (p.postWrite key n existing isDelete).capFor t = p.capFor t := by
  unfold postWrite
  split <;> rfl

theorem usage_foldl (existing : Bytes → Option Nat) (ops : List BatchOp)
    (h : opSum t (fun op => (existing op.key).getD 0) ops ≤ p.usage t) :
    (ops.foldl (fun p op => p.postWrite op.key op.value.length (existing op.key) op.isDelete) p).usage t +
        opSum t (fun op => (existing op.key).getD 0) ops =
      p.usage t + opSum t (fun op => op.value.length) ops := by
  induction ops generalizing p with
  | nil => rfl
  | cons op ops ih =>
    simp only [opSum, List.map_cons, List.sum_cons] at h ih ⊢
    have hpost := usage_postWrite (p := p) (t := t) op (existing op.key)
    rw [List.foldl_cons]
    by_cases ht : tenantFromKey op.key = some t
    · rw [if_pos ht] at h hpost ⊢
      have htail := ih (p := p.postWrite op.key op.value.length (existing op.key) op.isDelete)
        (by rw [hpost]; omega)
      rw [if_pos ht]
      rw [hpost] at htail
      omega
    · rw [if_neg ht] at h hpost ⊢
      have htail := ih (p := p.postWrite op.key op.value.length (existing op.key) op.isDelete)
        (by rw [hpost]; omega)
      rw [if_neg ht]
      rw [hpost] at htail
      omega

theorem capFor_foldl (existing : Bytes → Option Nat) (ops : List BatchOp) :
    (ops.foldl (fun p op => p.postWrite op.key op.value.length (existing op.key) op.isDelete) p).capFor
      t = p.capFor t := by
  induction ops generalizing p with
  | nil => rfl
  | cons op ops ih => exact ih.trans (capFor_postWrite _ _ _ _)

end TenantQuotaPolicy

namespace QuotaEngine

open VersionStore (opSum arrivalLen)

variable (cfg : CompactionConfig) (s : QuotaEngine)

def liveLen (nowMs : Nat) (key : Bytes) : Nat := (s.existingLen nowMs key).getD 0

structure Good : Prop where
  exact : ∀ t, s.policy.usage t = s.tenantUsageBytes s.nowMs t
  capped : ∀ t, s.policy.capFor t ≠ 0 → s.tenantUsageBytes s.nowMs t ≤ s.policy.capFor t

structure Fits (ops : List BatchOp) : Prop where
  live : ∀ op ∈ ops, tenantFromKey op.key ≠ none →
    arrivalLen s.nowMs s.db.state.nextSeq op = op.value.length
  within : ∀ t, s.policy.capFor t ≠ 0 →
    s.policy.usage t + opSum t (fun op => op.value.length) ops ≤
      s.policy.capFor t + opSum t (fun op => s.liveLen s.nowMs op.key) ops

/-- What the accounting needs of a step: an accepted batch fits, and no tenant's value expires as time
passes. -/
def Counted : QuotaAction → Prop
  | .put key value expiresAt =>
    s.written cfg (s.admissionOne (.put key value expiresAt)) (.put key value expiresAt) ≠ none →
      tenantFromKey key ≠ none →
        arrivalLen s.nowMs s.db.state.nextSeq (.put key value expiresAt) = value.length
  | .batch ops sysPuts =>
    s.written cfg (s.admission ops sysPuts) (.writeBatch ops sysPuts) ≠ none → s.Fits ops
  | .tick ms => ∀ key, tenantFromKey key ≠ none →
    s.liveLen (s.nowMs + ms) key = s.liveLen s.nowMs key
  | _ => True

/-- The engine's own steps write nothing and keep the reads right, and no job is planned while another
waits. -/
def Maintained : QuotaAction → Prop
  | .maintain a => (EngineState.jobs cfg).OneAtATime (EngineState.Maintains cfg s.nowMs) s.db a
  | _ => True

instance decidableMaintained : ∀ a, Decidable (s.Maintained cfg a)
  | .maintain _ => JobSystem.decidableOneAtATime _ _ _ _
  | .put _ _ _ | .del _ | .batch _ _ | .appendFailed | .tick _ => isTrue trivial

variable {cfg s}

theorem tenantFromKey_system {key : Bytes} (h : validateSystemKey key = .ok ()) :
    tenantFromKey key = none := by
  have hhead := validateKey_head h
  unfold tenantFromKey
  rw [hhead]
  simp [ksSystem, ksUser]

theorem validateBatch_sysPuts {ops : List BatchOp} {sysPuts : List (Bytes × Bytes)}
    (h : validateBatch ops sysPuts = .ok ()) :
    ∀ op ∈ sysPuts.map (fun p => BatchOp.put p.1 p.2 0), tenantFromKey op.key = none := by
  unfold validateBatch at h
  split at h
  next => simp at h
  next =>
    split at h
    next => simp at h
    next =>
      obtain ⟨seen, -, h⟩ := except_bind_eq_ok.mp h
      obtain ⟨_, hsys, -⟩ := except_bind_eq_ok.mp h
      intro op hop
      obtain ⟨p, hp, rfl⟩ := List.mem_map.mp hop
      obtain ⟨⟨⟩, hkey, -⟩ := except_bind_eq_ok.mp ((validateDistinct_ok hsys).1 p hp)
      exact tenantFromKey_system hkey

/-- The writes accepted so far, as the store that the engine's reads stand for. -/
def history (s : QuotaEngine) (accepted : List WalEntry) : VersionStore :=
  ⟨acceptedVersions accepted, s.db.state.nextSeq⟩

section Reads

variable {accepted : List WalEntry} (hs : Serves cfg s.db s.nowMs accepted) {nowMs : Nat}
  (hle : s.nowMs ≤ nowMs)
include hs hle

theorem liveLen_eq (key : Bytes) : s.liveLen nowMs key = (s.history accepted).liveLen nowMs key := by
  have hget : s.db.state.view.getWithSeq key u64Max nowMs =
      (s.history accepted).getWithSeq key nowMs :=
    hs.getWithSeq_eq hle ((Nat.sub_le _ _).trans hs.nextSeq_le) key
  unfold liveLen existingLen ReadView.handleGet
  rw [hget]
  rfl

theorem tenantUsageBytes_eq (t : Tenant) :
    s.tenantUsageBytes nowMs t = (s.history accepted).tenantUsageBytes nowMs t := by
  have hrange : ReadView.ScanRange [ksUser] [ksUser + 1] := Or.inl ⟨by decide, by decide⟩
  unfold tenantUsageBytes
  rw [hs.scan_eq hle le_rfl hrange]
  rfl

end Reads

variable {accepted : List WalEntry}

theorem Good.sameWrites (hg : s.Good) (hs : Serves cfg s.db s.nowMs accepted)
    {db : Queued EngineState Compacting} (hdb : Serves cfg db s.nowMs accepted) :
    Good { s with db } := by
  have hsame : ∀ t, tenantUsageBytes { s with db } s.nowMs t = s.tenantUsageBytes s.nowMs t := by
    intro t
    have hkept := tenantUsageBytes_eq (s := { s with db }) hdb le_rfl t
    have hnext := VersionStore.tenantUsageBytes_nextSeq hdb.seq_lt hs.seq_lt s.nowMs t
    exact hkept.trans (hnext.trans (tenantUsageBytes_eq hs le_rfl t).symm)
  exact ⟨fun t => (hg.exact t).trans (hsame t).symm, fun t ht => (hsame t).le.trans (hg.capped t ht)⟩

theorem opSum_liveLen_le (hs : Serves cfg s.db s.nowMs accepted) {ops : List BatchOp}
    (hnodup : (ops.map BatchOp.key).Nodup) (t : Tenant) :
    opSum t (fun op => s.liveLen s.nowMs op.key) ops ≤ s.tenantUsageBytes s.nowMs t := by
  simp only [liveLen_eq hs le_rfl, tenantUsageBytes_eq hs le_rfl]
  exact VersionStore.opSum_liveLen_le hs.seq_lt hnodup

section Write

variable {a : EngineAction} {ops : List BatchOp} {sysPuts : List (Bytes × Bytes)} {e : WalEntry}
  {s' : QuotaEngine} (hs : Serves cfg s.db s.nowMs accepted)
  (hv : validateBatch ops sysPuts = .ok ())
  (ha : a.ops = ops ++ sysPuts.map fun p => .put p.1 p.2 0)
  (he : a.walEntry s.db.state.nextSeq = some e) (hnow : s'.nowMs = s.nowMs)
  (hw : (EngineState.jobs cfg).queuedStep s.db (.base a) = some s'.db)
include hs hv ha he hnow hw

/-- What a write adds to a tenant's live bytes, next to what it overwrites. -/
theorem tenantUsageBytes_write (t : Tenant) :
    s'.tenantUsageBytes s.nowMs t + opSum t (fun op => s.liveLen s.nowMs op.key) ops =
      s.tenantUsageBytes s.nowMs t + opSum t (arrivalLen s.nowMs s.db.state.nextSeq) ops := by
  have hsys := validateBatch_sysPuts hv
  obtain ⟨hs', hnext⟩ := hs.write he hw
  have hhist : s'.history (accepted ++ [e]) = (s.history accepted).withOps a.ops := by
    simp only [history, VersionStore.withOps, acceptedVersions, List.flatMap_append, hnext,
      ← a.walEntry_pairs he, List.flatMap_singleton]
  have h : ((s.history accepted).withOps a.ops).tenantUsageBytes s.nowMs t +
      opSum t (fun op => (s.history accepted).liveLen s.nowMs op.key) a.ops =
      (s.history accepted).tenantUsageBytes s.nowMs t +
        opSum t (arrivalLen s.nowMs s.db.state.nextSeq) a.ops :=
    VersionStore.tenantUsageBytes_withOps hs.seq_lt (ha ▸ (validateBatch_ok hv).nodup)
  rw [ha, VersionStore.opSum_append, VersionStore.opSum_append, VersionStore.opSum_eq_zero hsys,
    VersionStore.opSum_eq_zero hsys, ← ha, ← hhist] at h
  simp only [liveLen_eq hs le_rfl, tenantUsageBytes_eq hs le_rfl,
    tenantUsageBytes_eq (s := s') (hnow ▸ hs') hnow.le]
  exact h

/-- A batch that is written keeps the count exact exactly when it fits. -/
theorem Good.apply_iff (hg : s.Good) (hpolicy : s'.policy = s.postWrites ops) :
    s'.Good ↔ s.Fits ops := by
  have hnodup : (ops.map BatchOp.key).Nodup := by
    have h := (validateBatch_ok hv).nodup
    rw [List.map_append] at h
    exact h.of_append_left
  have hlive := tenantUsageBytes_write hs hv ha he hnow hw
  have husage : ∀ t, s'.policy.usage t + opSum t (fun op => s.liveLen s.nowMs op.key) ops =
      s.policy.usage t + opSum t (fun op => op.value.length) ops := by
    intro t
    rw [hpolicy]
    refine TenantQuotaPolicy.usage_foldl (s.existingLen s.nowMs) ops ?_
    rw [hg.exact t]
    exact opSum_liveLen_le hs hnodup t
  have hcap : ∀ t, s'.policy.capFor t = s.policy.capFor t := fun t => by
    rw [hpolicy]
    exact TenantQuotaPolicy.capFor_foldl (s.existingLen s.nowMs) ops
  have hexact : (∀ t, s'.policy.usage t = s'.tenantUsageBytes s.nowMs t) ↔
      ∀ op ∈ ops, tenantFromKey op.key ≠ none →
        arrivalLen s.nowMs s.db.state.nextSeq op = op.value.length := by
    have hsums : ∀ t, s'.policy.usage t = s'.tenantUsageBytes s.nowMs t ↔
        opSum t (arrivalLen s.nowMs s.db.state.nextSeq) ops =
          opSum t (fun op => op.value.length) ops := by
      intro t
      have h1 := hlive t
      have h2 := husage t
      have h3 := hg.exact t
      omega
    constructor
    · intro h op hop hk
      obtain ⟨t, ht⟩ := Option.ne_none_iff_exists'.mp hk
      exact (VersionStore.opSum_eq_iff (VersionStore.arrivalLen_le _ _) ops).mp ((hsums t).mp (h t)) op
        hop ht
    · intro h t
      refine (hsums t).mpr ((VersionStore.opSum_eq_iff (VersionStore.arrivalLen_le _ _) ops).mpr ?_)
      exact fun op hop ht => h op hop (by simp [ht])
  constructor
  · rintro ⟨he', hc'⟩
    rw [hnow] at he' hc'
    refine ⟨hexact.mp he', fun t ht => ?_⟩
    have h1 := hc' t (by rw [hcap]; exact ht)
    have h2 := he' t
    have h3 := husage t
    rw [hcap] at h1
    omega
  · intro hf
    have he' := hexact.mpr hf.live
    refine ⟨by rw [hnow]; exact he', fun t ht => ?_⟩
    rw [hcap] at ht ⊢
    have h1 := hf.within t ht
    have h2 := husage t
    have h3 := he' t
    rw [hnow]
    omega

end Write

theorem Good.fits_one_iff (hg : s.Good) (hs : Serves cfg s.db s.nowMs accepted) {op : BatchOp}
    (h : s.admissionOne op = .ok ()) :
    s.Fits [op] ↔ (tenantFromKey op.key ≠ none →
      arrivalLen s.nowMs s.db.state.nextSeq op = op.value.length) := by
  refine ⟨fun hf => hf.live op List.mem_cons_self, fun hl => ⟨?_, fun t ht => ?_⟩⟩
  · intro op' hop
    cases List.mem_singleton.mp hop
    exact hl
  · obtain ⟨-, -, hpre⟩ := except_bind_eq_ok.mp h
    have hfreed : opSum t (fun op => s.liveLen s.nowMs op.key) [op] ≤ s.policy.usage t := by
      rw [hg.exact t]
      have hnodup : ([op].map BatchOp.key).Nodup := List.nodup_singleton _
      exact opSum_liveLen_le hs hnodup t
    have hsum : ∀ f : BatchOp → Nat, opSum t f [op] = if tenantFromKey op.key = some t then f op else 0 :=
      fun f => Nat.add_zero _
    rw [hsum] at hfreed ⊢
    rw [hsum]
    have hcap := hg.capped t ht
    rw [← hg.exact t] at hcap
    by_cases hk : tenantFromKey op.key = some t
    · rw [if_pos hk] at hfreed ⊢
      rw [if_pos hk]
      cases op with
      | del key =>
        show s.policy.usage t + 0 ≤ _
        omega
      | put key value expiresAt =>
        unfold TenantQuotaPolicy.preWrite at hpre
        rw [hk] at hpre
        simp only [BatchOp.isDelete, Bool.false_eq_true, if_false, if_neg ht] at hpre
        split at hpre
        next => simp at hpre
        next hle =>
          have hle : ¬ s.policy.capFor t <
            s.policy.usage t - s.liveLen s.nowMs key + value.length := hle
          have hfreed : s.liveLen s.nowMs key ≤ s.policy.usage t := hfreed
          show s.policy.usage t + value.length ≤ s.policy.capFor t + s.liveLen s.nowMs key
          omega
    · rw [if_neg hk, if_neg hk]
      omega

theorem written_eq_some {admitted : Except QuotaError Unit} {a : EngineAction}
    {db : Queued EngineState Compacting} (h : s.written cfg admitted a = some db) :
    admitted = .ok () ∧ (EngineState.jobs cfg).queuedStep s.db (.base a) = some db := by
  cases admitted with
  | error e => simp [written] at h
  | ok u => exact ⟨rfl, h⟩

theorem validateBatch_of_admission {ops : List BatchOp} {sysPuts : List (Bytes × Bytes)}
    (h : s.admission ops sysPuts = .ok ()) : validateBatch ops sysPuts = .ok () := by
  obtain ⟨⟨⟩, hv, -⟩ := except_bind_eq_ok.mp h
  cases hb : validateBatch ops sysPuts with
  | error e => simp [hb, Except.mapError] at hv
  | ok u => rfl

/-- A write is Good's step: the engine still has all that was accepted, and the counts stay right if
and only if an accepted batch fits. -/
theorem Good.write (hg : s.Good) (hs : Serves cfg s.db s.nowMs accepted) {a : EngineAction}
    {e : WalEntry} (he : a.walEntry s.db.state.nextSeq = some e) {ops : List BatchOp}
    {sysPuts : List (Bytes × Bytes)} (ha : a.ops = ops ++ sysPuts.map fun p => .put p.1 p.2 0) :
    ((s.write cfg (s.admission ops sysPuts) a ops).Good ↔
      (s.written cfg (s.admission ops sysPuts) a ≠ none → s.Fits ops)) ∧
    ∃ accepted', Serves cfg (s.write cfg (s.admission ops sysPuts) a ops).db s.nowMs accepted' := by
  unfold QuotaEngine.write
  cases hw : s.written cfg (s.admission ops sysPuts) a with
  | none => exact ⟨iff_of_true hg fun h => absurd rfl h, accepted, hs⟩
  | some db =>
    obtain ⟨hok, hdb⟩ := written_eq_some hw
    refine ⟨?_, _, (hs.write he hdb).1⟩
    have hiff : Good { s with db, policy := s.postWrites ops } ↔ s.Fits ops :=
      hg.apply_iff hs (validateBatch_of_admission hok) ha he rfl hdb rfl
    exact hiff.trans ⟨fun hf _ => hf, fun hf => hf (by simp)⟩

theorem Good.writeOne (hg : s.Good) (hs : Serves cfg s.db s.nowMs accepted) {a : EngineAction}
    {e : WalEntry} (he : a.walEntry s.db.state.nextSeq = some e) {op : BatchOp} (ha : a.ops = [op]) :
    ((s.write cfg (s.admissionOne op) a [op]).Good ↔
      (s.written cfg (s.admissionOne op) a ≠ none → tenantFromKey op.key ≠ none →
        arrivalLen s.nowMs s.db.state.nextSeq op = op.value.length)) ∧
    ∃ accepted', Serves cfg (s.write cfg (s.admissionOne op) a [op]).db s.nowMs accepted' := by
  have ha' : a.ops = [op] ++ ([] : List (Bytes × Bytes)).map fun p => .put p.1 p.2 0 := ha
  obtain ⟨hiff, hserves⟩ := hg.write hs he ha'
  rw [← admissionOne_eq] at hiff hserves
  refine ⟨hiff.trans (forall_congr' fun hw => ?_), hserves⟩
  obtain ⟨db, hdb⟩ := Option.ne_none_iff_exists'.mp hw
  exact hg.fits_one_iff hs (written_eq_some hdb).1

/-- One step keeps the count exact exactly when it is counted, and the engine keeps serving. -/
theorem Good.next (hg : s.Good) (hs : Serves cfg s.db s.nowMs accepted) {a : QuotaAction}
    (hm : s.Maintained cfg a) :
    ((s.next cfg a).Good ↔ s.Counted cfg a) ∧
    ∃ accepted', Serves cfg (s.next cfg a).db (s.next cfg a).nowMs accepted' := by
  have hnow : ∀ admitted b ops, (s.write cfg admitted b ops).nowMs = s.nowMs := by
    intro admitted b ops
    unfold QuotaEngine.write
    split <;> rfl
  cases a with
  | put key value expiresAt =>
    simp only [QuotaEngine.next, hnow]
    exact hg.writeOne hs rfl rfl
  | del key =>
    simp only [QuotaEngine.next, hnow]
    obtain ⟨hiff, hserves⟩ := hg.writeOne hs (a := .del key) rfl (show _ = [.del key] from rfl)
    exact ⟨hiff.trans (iff_of_true (fun _ _ => rfl) trivial), hserves⟩
  | batch ops sysPuts =>
    simp only [QuotaEngine.next, hnow]
    exact hg.write hs rfl rfl
  | appendFailed =>
    simp only [QuotaEngine.next]
    split
    next hlt =>
      have hskip := hs.skipSeq hlt
      exact ⟨iff_of_true (hg.sameWrites hs hskip) trivial, accepted, hskip⟩
    next => exact ⟨iff_of_true hg trivial, accepted, hs⟩
  | maintain a =>
    simp only [QuotaEngine.next]
    split
    next db hdb =>
      have hkept := hs.maintain hm hdb
      exact ⟨iff_of_true (hg.sameWrites hs hkept) trivial, accepted, hkept⟩
    next => exact ⟨iff_of_true hg trivial, accepted, hs⟩
  | tick ms =>
    have hle : s.nowMs ≤ s.nowMs + ms := Nat.le_add_right _ _
    refine ⟨?_, accepted, hs.later hle⟩
    have hexpire : (∀ t, s.tenantUsageBytes (s.nowMs + ms) t = s.tenantUsageBytes s.nowMs t) ↔
        s.Counted cfg (.tick ms) := by
      simp only [Counted, liveLen_eq hs hle, liveLen_eq hs le_rfl, tenantUsageBytes_eq hs hle,
        tenantUsageBytes_eq hs le_rfl]
      exact VersionStore.tenantUsageBytes_later_iff hs.seq_lt hle
    rw [← hexpire]
    constructor
    · intro hg' t
      exact (hg'.exact t).symm.trans (hg.exact t)
    · intro h
      exact ⟨fun t => (hg.exact t).trans (h t).symm, fun t ht => (h t).le.trans (hg.capped t ht)⟩

end QuotaEngine

end ZydecoDb
