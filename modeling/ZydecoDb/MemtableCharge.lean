import ZydecoDb.ByteQuota
import ZydecoDb.FailedWrites
import ZydecoDb.FlushThreads

namespace ZydecoDb

open Lib VersionStore

def valueBytes (t : Tenant) (entries : List Version) : Nat :=
  (entries.map fun v => if tenantFromKey v.userKey = some t then v.entry.valueLen else 0).sum

def flushBytes (t : Tenant) (entries : List Version) : Nat :=
  (entries.map fun v => if tenantFromKey v.userKey = some t then max v.entry.valueLen 1 else 0).sum

theorem valueBytes_cons (t : Tenant) (v : Version) (entries : List Version) :
    valueBytes t (v :: entries) =
      (if tenantFromKey v.userKey = some t then v.entry.valueLen else 0) + valueBytes t entries :=
  List.sum_cons

theorem flushBytes_cons (t : Tenant) (v : Version) (entries : List Version) :
    flushBytes t (v :: entries) =
      (if tenantFromKey v.userKey = some t then max v.entry.valueLen 1 else 0) + flushBytes t entries :=
  List.sum_cons

theorem valueBytes_le_flushBytes (t : Tenant) (entries : List Version) :
    valueBytes t entries ≤ flushBytes t entries := by
  refine List.sum_le_sum fun v _ => ?_
  split
  next => exact le_max_left _ _
  next => exact le_rfl

theorem flushBytes_eq_valueBytes {t : Tenant} {entries : List Version}
    (h : ∀ v ∈ entries, tenantFromKey v.userKey = some t → v.entry.valueLen ≠ 0) :
    flushBytes t entries = valueBytes t entries := by
  unfold flushBytes valueBytes
  refine congrArg List.sum (List.map_congr_left fun v hv => ?_)
  split
  next ht =>
    have hne := h v hv ht
    omega
  next => rfl

theorem valueBytes_perm {t : Tenant} {a b : List Version} (h : a.Perm b) :
    valueBytes t a = valueBytes t b :=
  (h.map _).sum_eq

theorem insertEntry_perm {v : Version} {l : List Version}
    (h : ∀ w ∈ l, v.internalKey ≠ w.internalKey) : (Memtable.insertEntry v l).Perm (v :: l) := by
  induction l with
  | nil => exact List.Perm.refl _
  | cons w l ih =>
    rw [Memtable.insertEntry, if_neg (h w List.mem_cons_self)]
    split
    next => exact List.Perm.refl _
    next =>
      have htail := ih fun x hx => h x (List.mem_cons_of_mem w hx)
      exact (htail.cons w).trans (List.Perm.swap v w l)

theorem version_valueLen (seq : Nat) (op : BatchOp) : (op.version seq).entry.valueLen = op.value.length := by
  cases op <;> rfl

theorem valueBytes_foldl_insert (t : Tenant) {seq : Nat} {ops : List BatchOp} {mt : Memtable}
    (hfresh : ∀ w ∈ mt.entries, w.seq = seq → ∀ op ∈ ops, w.userKey ≠ op.key)
    (hnodup : (ops.map BatchOp.key).Nodup) :
    valueBytes t (ops.foldl (fun mt op => mt.insert (op.version seq)) mt).entries =
      valueBytes t mt.entries + opSum t (fun op => op.value.length) ops := by
  induction ops generalizing mt with
  | nil => rfl
  | cons op ops ih =>
    obtain ⟨hnot, hrest⟩ := List.nodup_cons.mp hnodup
    have hkey : ∀ w ∈ mt.entries, (op.version seq).internalKey ≠ w.internalKey := by
      intro w hw heq
      have hk : op.key = w.userKey := by
        have hu := congrArg InternalKey.userKey heq
        rwa [show (op.version seq).internalKey.userKey = op.key from op.version_userKey seq] at hu
      have hs : seq = w.seq := by
        have hq := congrArg InternalKey.seq heq
        rwa [show (op.version seq).internalKey.seq = seq from op.version_seq seq] at hq
      exact hfresh w hw hs.symm op List.mem_cons_self hk.symm
    have hinsert : valueBytes t (mt.insert (op.version seq)).entries =
        valueBytes t (op.version seq :: mt.entries) := valueBytes_perm (insertEntry_perm hkey)
    have hfresh' : ∀ w ∈ (mt.insert (op.version seq)).entries, w.seq = seq →
        ∀ op' ∈ ops, w.userKey ≠ op'.key := by
      intro w hw hs op' hop
      rcases Memtable.mem_insertEntry hw with rfl | hw
      · rw [BatchOp.version_userKey]
        exact fun heq => hnot (heq ▸ List.mem_map_of_mem hop)
      · exact hfresh w hw hs op' (List.mem_cons_of_mem op hop)
    have hop : opSum t (fun op => op.value.length) (op :: ops) =
        (if tenantFromKey op.key = some t then op.value.length else 0) +
          opSum t (fun op => op.value.length) ops := List.sum_cons
    rw [valueBytes_cons, BatchOp.version_userKey, version_valueLen] at hinsert
    rw [List.foldl_cons, ih hfresh' hrest, hinsert, hop]
    omega

theorem get_attributeBytes (t : Tenant) (entries : List Version) (bytes : SortedMap Tenant Nat) :
    ((attributeBytes entries bytes).get t).getD 0 = (bytes.get t).getD 0 + flushBytes t entries := by
  induction entries generalizing bytes with
  | nil => rfl
  | cons v entries ih =>
    rw [attributeBytes, flushBytes_cons]
    cases hk : tenantFromKey v.userKey with
    | none =>
      rw [ih, if_neg (by simp), Nat.zero_add]
    | some t' =>
      dsimp only
      rw [ih, SortedMap.get_insert]
      by_cases heq : t = t'
      · subst heq
        rw [if_pos rfl, if_pos rfl, Option.getD_some]
        omega
      · rw [if_neg heq, if_neg fun h => heq (Option.some.inj h).symm]
        omega

namespace FairShareState

variable {s : FairShareState} {t : Tenant}

theorem releaseMemtable_cfg (s : FairShareState) (t : Tenant) (bytes : Nat) :
    (s.releaseMemtable t bytes).cfg = s.cfg := by
  unfold releaseMemtable
  split <;> rfl

theorem releaseFlushed_spec (hi : s.Inv) (he : s.cfg.enabled = true) (fileSize totalAttr : Nat)
    (pairs : List (Tenant × Nat)) :
    (FlushEngine.releaseFlushed s fileSize totalAttr pairs).Inv ∧
      (FlushEngine.releaseFlushed s fileSize totalAttr pairs).cfg = s.cfg ∧
      ∀ t, (FlushEngine.releaseFlushed s fileSize totalAttr pairs).memtableBytes t =
        s.memtableBytes t - (pairs.map fun p => if t = p.1 then p.2 else 0).sum := by
  induction pairs generalizing s with
  | nil => exact ⟨hi, rfl, fun t => rfl⟩
  | cons p pairs ih =>
    obtain ⟨t', bytes⟩ := p
    rw [FlushEngine.releaseFlushed]
    have hcfg := releaseMemtable_cfg s t' bytes
    obtain ⟨hinv, hcfg', hbytes⟩ := ih
      (s := (s.releaseMemtable t' bytes).chargeL0Tokens t' ((bytes * fileSize / totalAttr : Nat) : Int))
      ((hi.releaseMemtable t' bytes).setDebt t' _) (hcfg ▸ he)
    refine ⟨hinv, hcfg'.trans hcfg, fun t => ?_⟩
    rw [hbytes t, chargeL0Tokens, memtableBytes_setDebt, memtableBytes_releaseMemtable he, List.map_cons,
      List.sum_cons]
    split <;> omega

end FairShareState

theorem sum_entries_eq_get (m : SortedMap Tenant Nat) (t : Tenant) :
    (m.entries.map fun p => if t = p.1 then p.2 else 0).sum = (m.get t).getD 0 := by
  obtain ⟨l, hl⟩ := m
  unfold SortedMap.get
  dsimp only
  induction l with
  | nil => rfl
  | cons p l ih =>
    obtain ⟨hhead, htail⟩ := List.pairwise_cons.mp hl
    rw [List.map_cons, List.sum_cons, SortedMap.lookup_cons_eq_ite, ih htail]
    by_cases heq : t = p.1
    · have hnone : (⟨l, htail⟩ : SortedMap Tenant Nat).get t = none := by
        refine Option.eq_none_iff_forall_ne_some.mpr fun n hn => ?_
        have hlt : p.1 < t := hhead (t, n) (SortedMap.mem_entries.mpr hn)
        exact lt_irrefl _ (heq ▸ hlt)
      unfold SortedMap.get at hnone
      dsimp only at hnone
      rw [if_pos heq, if_pos heq, hnone]
      rfl
    · rw [if_neg heq, if_neg heq, Nat.zero_add]

namespace WriteEngine

open FairShareState

/-- A batch that is admitted is charged its value bytes, tenant by tenant. -/
theorem admitPuts_ok {fair : FairShareState} (hi : fair.Inv) (he : fair.cfg.enabled = true)
    {ops : List BatchOp} (h : (admitPuts fair ops).2 = .ok ()) :
    (admitPuts fair ops).1.Inv ∧ (admitPuts fair ops).1.cfg = fair.cfg ∧
      ∀ t, (admitPuts fair ops).1.memtableBytes t =
        fair.memtableBytes t + opSum t (fun op => op.value.length) ops := by
  induction ops generalizing fair with
  | nil => exact ⟨hi, rfl, fun t => rfl⟩
  | cons op ops ih =>
    have hcons : ∀ t, opSum t (fun op => op.value.length) (op :: ops) =
        (if tenantFromKey op.key = some t then op.value.length else 0) +
          opSum t (fun op => op.value.length) ops := fun t => List.sum_cons
    cases hd : op.draw with
    | none =>
      rw [admitPuts_cons_of_draw_none (Or.inr hd)] at h ⊢
      obtain ⟨hinv, hcfg, hbytes⟩ := ih hi he h
      refine ⟨hinv, hcfg, fun t => ?_⟩
      have hzero : (if tenantFromKey op.key = some t then op.value.length else 0) = 0 := by
        cases op with
        | del key => exact ite_self 0
        | put key value expiresAt =>
          by_cases hne : value.length = 0
          · exact (congrArg (fun n => if tenantFromKey key = some t then n else 0) hne).trans (ite_self 0)
          · rw [BatchOp.draw, if_neg hne, Option.map_eq_none_iff] at hd
            exact if_neg fun ht => by cases hd.symm.trans ht
      rw [hbytes t, hcons t, hzero, Nat.zero_add]
    | some d =>
      obtain ⟨t', n⟩ := d
      obtain ⟨-, key, value, expiresAt, rfl, ht, rfl⟩ := BatchOp.draw_eq_some hd
      rcases admitPuts_cons_of_draw fair ops hd with ⟨e, -, heq⟩ | ⟨hok, heq⟩
      · rw [heq] at h
        cases h
      · obtain ⟨hcfg', hbytes'⟩ := hi.memtableBytes_admitMemtable he hok
        rw [heq] at h ⊢
        obtain ⟨hinv, hcfg, hbytes⟩ := ih (hi.admitMemtable t' value.length) (hcfg' ▸ he) h
        refine ⟨hinv, hcfg.trans hcfg', fun t => ?_⟩
        rw [hbytes t, hbytes' t, hcons t]
        show _ = _ + ((if tenantFromKey key = some t then value.length else 0) + _)
        rw [ht]
        by_cases htt : t = t'
        · subst htt
          rw [if_pos rfl, if_pos rfl]
          omega
        · rw [if_neg htt, if_neg fun hs => htt (Option.some.inj hs).symm]
          omega

theorem admitPuts_inv {fair : FairShareState} (hi : fair.Inv) (ops : List BatchOp) :
    (admitPuts fair ops).1.Inv ∧ (admitPuts fair ops).1.cfg = fair.cfg := by
  induction ops generalizing fair with
  | nil => exact ⟨hi, rfl⟩
  | cons op ops ih =>
    cases hd : op.draw with
    | none =>
      rw [admitPuts_cons_of_draw_none (Or.inr hd)]
      exact ih hi
    | some d =>
      have hcfg := (step_frame fair (.admitMemtable d.1 d.2)).1
      have hinv := hi.admitMemtable d.1 d.2
      rcases admitPuts_cons_of_draw fair ops hd with ⟨e, -, heq⟩ | ⟨-, heq⟩
      · rw [heq]
        exact ⟨hinv, hcfg⟩
      · rw [heq]
        obtain ⟨hinv', hcfg'⟩ := ih hinv
        exact ⟨hinv', hcfg'.trans hcfg⟩

variable {cfg : WriteConfig} {s : WriteEngine} {env : WriteEnv}

theorem checkBackpressureForKey_fair (cfg : WriteConfig) (s : WriteEngine) (env : WriteEnv) (key : Bytes) :
    (s.checkBackpressureForKey cfg env key).1 = s.fair ∨
      (s.checkBackpressureForKey cfg env key).1 = s.noteStall env key := by
  unfold checkBackpressureForKey
  dsimp only
  split_ifs
  · exact Or.inl rfl
  · exact Or.inl rfl
  · exact Or.inl rfl
  · exact Or.inr rfl
  · exact Or.inr rfl
  · exact Or.inr rfl
  · exact Or.inl rfl

theorem noteStall_inv (hi : s.fair.Inv) (key : Bytes) :
    (s.noteStall env key).Inv ∧ (s.noteStall env key).cfg = s.fair.cfg := by
  unfold noteStall
  split
  next t ht =>
    split
    next => exact ⟨hi.setDebt t _, rfl⟩
    next => exact ⟨hi, rfl⟩
  next => exact ⟨hi, rfl⟩

theorem write_inv (hi : s.fair.Inv) (call : WriteCall) :
    (s.write cfg env call).1.fair.Inv ∧ (s.write cfg env call).1.fair.cfg = s.fair.cfg := by
  rw [write_eq_checkThenWrite]
  unfold checkThenWrite
  cases call.validate with
  | error e => exact ⟨hi, rfl⟩
  | ok u =>
    have hpress : (s.checkBackpressureForKey cfg env call.pressureKey).1.Inv ∧
        (s.checkBackpressureForKey cfg env call.pressureKey).1.cfg = s.fair.cfg := by
      rcases checkBackpressureForKey_fair cfg s env call.pressureKey with heq | heq
      · rw [heq]
        exact ⟨hi, rfl⟩
      · rw [heq]
        exact noteStall_inv hi call.pressureKey
    cases hcheck : s.checkBackpressureForKey cfg env call.pressureKey with
    | mk fair r =>
      rw [hcheck] at hpress
      cases r with
      | error e => exact hpress
      | ok u =>
        obtain ⟨hinv, hcfg⟩ := admitPuts_inv hpress.1 call.ops
        dsimp only
        unfold writeChecked
        dsimp only
        cases preWrites { s with fair := fair } env call.ops with
        | error e => exact hpress
        | ok u =>
          cases hdrawn : admitPuts fair call.ops with
          | mk fair' r =>
            rw [hdrawn] at hinv hcfg
            cases r with
            | error e => exact ⟨hinv, hcfg.trans hpress.2⟩
            | ok u =>
              dsimp only
              cases env.append with
              | error e => exact ⟨hinv, hcfg.trans hpress.2⟩
              | ok u => exact ⟨hinv, hcfg.trans hpress.2⟩

theorem write_ok {call : WriteCall} (hreach : s.ReachesBudget cfg env call)
    (hdrawn : (admitPuts s.fair call.ops).2 = .ok ()) (happ : env.append = .ok ()) :
    (s.write cfg env call).2 = .ok s.engine.nextSeq := by
  obtain ⟨hvalid, hpress, hpre⟩ := hreach
  have hfair := (checkBackpressureForKey_ok hpress).1
  rw [write_eq_checkThenWrite]
  unfold checkThenWrite
  rw [hvalid]
  dsimp only
  cases hcheck : s.checkBackpressureForKey cfg env call.pressureKey with
  | mk fair r =>
    rw [hcheck] at hpress hfair
    cases hpress
    cases hfair
    dsimp only
    unfold writeChecked
    rw [show preWrites { s with fair := s.fair } env call.ops = .ok () from hpre]
    dsimp only
    cases hcall : admitPuts s.fair call.ops with
    | mk fair' r =>
      rw [hcall] at hdrawn
      cases hdrawn
      dsimp only
      rw [happ]

end WriteEngine

end ZydecoDb
