import ZydecoDb.Quota

namespace ZydecoDb

open Lib

namespace VersionStore

variable (st : VersionStore) (nowMs : Nat)

def liveLen (key : Bytes) : Nat := ((st.get key nowMs).map List.length).getD 0

def tenantLen (t : Tenant) (key : Bytes) : Nat :=
  if tenantFromKey key = some t then st.liveLen nowMs key else 0

def keys : Finset Bytes := (st.versions.map Version.userKey).toFinset

variable {st nowMs} {t : Tenant}

theorem get_snapshotOwned (hseq : ∀ v ∈ st.versions, v.seq < st.nextSeq) (key : Bytes) :
    st.snapshotOwned.get key nowMs = st.get key nowMs := by
  have hle : ∀ v ∈ st.versions, v.seq ≤ st.nextSeq - 1 := fun v hv => by
    have := hseq v hv
    omega
  have hnewest : newestAt st.versions key (st.nextSeq - 1) = newest st.versions key :=
    newestAt_eq_newest hle
  show (outcome (newestAt st.versions key (st.nextSeq - 1)) nowMs).map Prod.fst = _
  rw [hnewest]
  rfl

variable {key : Bytes}

theorem liveLen_of_not_mem (h : key ∉ st.keys) : st.liveLen nowMs key = 0 := by
  have hnone : newest st.versions key = none := by
    refine newest_eq_none.mpr fun v hv hk => h ?_
    exact List.mem_toFinset.mpr (List.mem_map.mpr ⟨v, hv, hk⟩)
  simp [liveLen, get, getWithSeq, hnone, outcome]

theorem tenantLen_of_not_mem (h : key ∉ st.keys) : st.tenantLen nowMs t key = 0 := by
  unfold tenantLen
  rw [liveLen_of_not_mem h]
  exact ite_self 0

theorem userKeyspace_of_tenant (h : tenantFromKey key = some t) :
    [ksUser] ≤ key ∧ key < [ksUser + 1] := by
  unfold tenantFromKey at h
  split at h
  next =>
    obtain ⟨hhead, h⟩ := Option.ite_none_right_eq_some.mp h
    cases key with
    | nil => simp at hhead
    | cons a rest =>
      cases Option.some.inj hhead
      exact ⟨cons_le_cons.mpr (Or.inr ⟨rfl, nil_le _⟩), cons_lt_cons.mpr (Or.inl (by decide))⟩
  next => simp at h

theorem tenantUsageBytes_eq (hseq : ∀ v ∈ st.versions, v.seq < st.nextSeq) :
    st.tenantUsageBytes nowMs t = ∑ key ∈ st.keys, st.tenantLen nowMs t key := by
  have hrows : ∀ l : List Bytes,
      (((l.filterMap fun k => (st.snapshotOwned.get k nowMs).map fun value => (k, value)).filter
        fun e => tenantFromKey e.1 = some t).map fun e => e.2.length).sum =
      (l.map (st.tenantLen nowMs t)).sum := by
    intro l
    induction l with
    | nil => rfl
    | cons k l ih =>
      rw [List.map_cons, List.sum_cons, ← ih, List.filterMap_cons, get_snapshotOwned hseq]
      unfold tenantLen liveLen
      cases st.get k nowMs with
      | none => simp
      | some value => by_cases ht : tenantFromKey k = some t <;> simp [ht]
  have hrange : ∀ l : List Bytes,
      ((l.filter fun k => [ksUser] ≤ k ∧ ([ksUser + 1] = [] ∨ k < [ksUser + 1])).map
        (st.tenantLen nowMs t)).sum = (l.map (st.tenantLen nowMs t)).sum := by
    intro l
    induction l with
    | nil => rfl
    | cons k l ih =>
      rw [List.map_cons, List.sum_cons, ← ih, List.filter_cons]
      by_cases hk : [ksUser] ≤ k ∧ ([ksUser + 1] = [] ∨ k < [ksUser + 1])
      · rw [if_pos (decide_eq_true hk), List.map_cons, List.sum_cons]
      · have hzero : st.tenantLen nowMs t k = 0 := by
          refine if_neg fun ht => hk ?_
          exact ⟨(userKeyspace_of_tenant ht).1, Or.inr (userKeyspace_of_tenant ht).2⟩
        rw [if_neg (by simpa using hk), hzero, Nat.zero_add]
  have hperm := List.perm_insertionSort (· ≤ ·)
    ((st.snapshotOwned.versions.map Version.userKey).dedup.filter fun k =>
      [ksUser] ≤ k ∧ ([ksUser + 1] = [] ∨ k < [ksUser + 1]))
  show (((List.filterMap _ _).filter _).map _).sum = _
  rw [hrows, (hperm.map _).sum_eq, hrange]
  have hnodup := List.nodup_dedup (st.snapshotOwned.versions.map Version.userKey)
  rw [← List.sum_toFinset _ hnodup]
  refine Finset.sum_congr ?_ fun _ _ => rfl
  ext k
  simp [keys, snapshotOwned]

theorem tenantUsageBytes_nextSeq {versions : List Version} {n m : Nat}
    (hn : ∀ v ∈ versions, v.seq < n) (hm : ∀ v ∈ versions, v.seq < m) (nowMs : Nat) (t : Tenant) :
    tenantUsageBytes ⟨versions, n⟩ nowMs t = tenantUsageBytes ⟨versions, m⟩ nowMs t := by
  rw [tenantUsageBytes_eq hn, tenantUsageBytes_eq hm]
  rfl

def withOps (st : VersionStore) (ops : List BatchOp) : VersionStore :=
  ⟨st.versions ++ ops.map (BatchOp.version st.nextSeq), st.nextSeq + 1⟩

variable {ops : List BatchOp}

theorem mem_keys_withOps :
    key ∈ (st.withOps ops).keys ↔ key ∈ st.keys ∨ key ∈ ops.map BatchOp.key := by
  simp only [keys, withOps, List.mem_toFinset, List.mem_map, List.mem_append]
  constructor
  · rintro ⟨v, hv | ⟨op, hop, rfl⟩, rfl⟩
    · exact Or.inl ⟨v, hv, rfl⟩
    · exact Or.inr ⟨op, hop, (op.version_userKey _).symm⟩
  · rintro (⟨v, hv, rfl⟩ | ⟨op, hop, rfl⟩)
    · exact ⟨v, Or.inl hv, rfl⟩
    · exact ⟨op.version st.nextSeq, Or.inr ⟨op, hop, rfl⟩, op.version_userKey _⟩

theorem newest_withOps_of_not_mem (h : key ∉ ops.map BatchOp.key) :
    newest (st.withOps ops).versions key = newest st.versions key := by
  refine newest_append_left fun v hv hk => h ?_
  obtain ⟨op, hop, rfl⟩ := List.mem_map.mp hv
  rw [op.version_userKey] at hk
  exact List.mem_map.mpr ⟨op, hop, hk⟩

theorem newest_withOps (hseq : ∀ v ∈ st.versions, v.seq < st.nextSeq)
    (hnodup : (ops.map BatchOp.key).Nodup) {op : BatchOp} (hop : op ∈ ops) :
    newest (st.withOps ops).versions op.key = some (op.version st.nextSeq) := by
  have hmem : op.version st.nextSeq ∈ (st.withOps ops).versions :=
    List.mem_append_right _ (List.mem_map_of_mem hop)
  obtain ⟨w, hw⟩ : ∃ w, newest (st.withOps ops).versions (op.version st.nextSeq).userKey = some w :=
    exists_newest hmem
  rw [op.version_userKey] at hw
  have hge := newest_ge hw _ hmem (op.version_userKey _)
  rw [op.version_seq] at hge
  obtain ⟨hwm, hwk⟩ := newest_mem hw
  rcases List.mem_append.mp hwm with hold | hnew
  · have := hseq w hold
    omega
  · obtain ⟨op', hop', rfl⟩ := List.mem_map.mp hnew
    rw [op'.version_userKey] at hwk
    have he : op' = op := List.inj_on_of_nodup_map hnodup hop' hop hwk
    rw [← he] at hw ⊢
    exact hw

def arrivalLen (nowMs seq : Nat) (op : BatchOp) : Nat :=
  (((op.version seq).resolve nowMs).map fun r => r.1.length).getD 0

theorem liveLen_withOps (hseq : ∀ v ∈ st.versions, v.seq < st.nextSeq)
    (hnodup : (ops.map BatchOp.key).Nodup) {op : BatchOp} (hop : op ∈ ops) :
    (st.withOps ops).liveLen nowMs op.key = arrivalLen nowMs st.nextSeq op := by
  unfold liveLen get getWithSeq arrivalLen
  rw [newest_withOps hseq hnodup hop]
  show ((((op.version st.nextSeq).resolve nowMs).map Prod.fst).map List.length).getD 0 = _
  rw [Option.map_map]
  rfl

def opSum (t : Tenant) (f : BatchOp → Nat) (ops : List BatchOp) : Nat :=
  (ops.map fun op => if tenantFromKey op.key = some t then f op else 0).sum

/-- A batch frees the live values it overwrites and adds its own. -/
theorem tenantUsageBytes_withOps (hseq : ∀ v ∈ st.versions, v.seq < st.nextSeq)
    (hnodup : (ops.map BatchOp.key).Nodup) :
    (st.withOps ops).tenantUsageBytes nowMs t + opSum t (fun op => st.liveLen nowMs op.key) ops =
      st.tenantUsageBytes nowMs t + opSum t (arrivalLen nowMs st.nextSeq) ops := by
  have hseq' : ∀ v ∈ (st.withOps ops).versions, v.seq < (st.withOps ops).nextSeq := by
    intro v hv
    show v.seq < st.nextSeq + 1
    rcases List.mem_append.mp hv with hv | hv
    · have := hseq v hv
      omega
    · obtain ⟨op, -, rfl⟩ := List.mem_map.mp hv
      rw [op.version_seq]
      omega
  rw [tenantUsageBytes_eq hseq, tenantUsageBytes_eq hseq']
  -- Both sums over the keys of the store and of the batch, split at the batch's keys.
  have hwritten : (ops.map BatchOp.key).toFinset ⊆ (st.withOps ops).keys := fun k hk =>
    mem_keys_withOps.mpr (Or.inr (List.mem_toFinset.mp hk))
  have hold : st.keys ⊆ (st.withOps ops).keys := fun k hk => mem_keys_withOps.mpr (Or.inl hk)
  have hsum : ∑ k ∈ st.keys, st.tenantLen nowMs t k =
      ∑ k ∈ (st.withOps ops).keys, st.tenantLen nowMs t k :=
    Finset.sum_subset hold fun k _ hk => tenantLen_of_not_mem hk
  have hrest : ∑ k ∈ (st.withOps ops).keys \ (ops.map BatchOp.key).toFinset,
        (st.withOps ops).tenantLen nowMs t k =
      ∑ k ∈ (st.withOps ops).keys \ (ops.map BatchOp.key).toFinset, st.tenantLen nowMs t k := by
    refine Finset.sum_congr rfl fun k hk => ?_
    have hnot : k ∉ ops.map BatchOp.key := fun h => (Finset.mem_sdiff.mp hk).2 (List.mem_toFinset.mpr h)
    unfold tenantLen liveLen get getWithSeq
    rw [newest_withOps_of_not_mem hnot]
  have hbatch : ∀ F : Bytes → Nat, ∑ k ∈ (ops.map BatchOp.key).toFinset, F k =
      (ops.map fun op => F op.key).sum := by
    intro F
    rw [List.sum_toFinset _ hnodup, List.map_map]
    rfl
  have hnew : (ops.map fun op => (st.withOps ops).tenantLen nowMs t op.key) =
      ops.map fun op => if tenantFromKey op.key = some t then arrivalLen nowMs st.nextSeq op else 0 := by
    refine List.map_congr_left fun op hop => ?_
    unfold tenantLen
    rw [liveLen_withOps hseq hnodup hop]
  have h1 := Finset.sum_sdiff (f := (st.withOps ops).tenantLen nowMs t) hwritten
  have h2 := Finset.sum_sdiff (f := st.tenantLen nowMs t) hwritten
  rw [hbatch, hnew] at h1
  rw [hbatch] at h2
  rw [hsum, ← h1, ← h2, hrest]
  show _ + opSum t (arrivalLen nowMs st.nextSeq) ops + _ = _ + opSum t _ ops + _
  omega

end VersionStore

namespace VersionStore

variable {st : VersionStore} {nowMs : Nat} {t : Tenant}

theorem opSum_append (f : BatchOp → Nat) (ops ops' : List BatchOp) :
    opSum t f (ops ++ ops') = opSum t f ops + opSum t f ops' := by
  simp [opSum]

theorem opSum_eq_zero {f : BatchOp → Nat} {ops : List BatchOp}
    (h : ∀ op ∈ ops, tenantFromKey op.key = none) : opSum t f ops = 0 := by
  unfold opSum
  refine List.sum_eq_zero fun n hn => ?_
  obtain ⟨op, hop, rfl⟩ := List.mem_map.mp hn
  rw [h op hop]
  rfl

theorem opSum_liveLen_le (hseq : ∀ v ∈ st.versions, v.seq < st.nextSeq) {ops : List BatchOp}
    (hnodup : (ops.map BatchOp.key).Nodup) :
    opSum t (fun op => st.liveLen nowMs op.key) ops ≤ st.tenantUsageBytes nowMs t := by
  have hsum : opSum t (fun op => st.liveLen nowMs op.key) ops =
      ∑ k ∈ (ops.map BatchOp.key).toFinset, st.tenantLen nowMs t k := by
    rw [List.sum_toFinset _ hnodup, List.map_map]
    rfl
  rw [hsum, tenantUsageBytes_eq hseq]
  refine Finset.sum_le_sum_of_ne_zero fun k _ hk => ?_
  by_contra hnot
  exact hk (tenantLen_of_not_mem hnot)

theorem arrivalLen_le (nowMs seq : Nat) (op : BatchOp) : arrivalLen nowMs seq op ≤ op.value.length := by
  unfold arrivalLen Version.resolve
  split
  next => exact Nat.zero_le _
  next => cases op <;> exact le_rfl

theorem opSum_eq_iff {f g : BatchOp → Nat} (hle : ∀ op, f op ≤ g op) (ops : List BatchOp) :
    opSum t f ops = opSum t g ops ↔ ∀ op ∈ ops, tenantFromKey op.key = some t → f op = g op := by
  induction ops with
  | nil => simp [opSum]
  | cons op ops ih =>
    have hmono : opSum t f ops ≤ opSum t g ops := by
      refine List.sum_le_sum fun op' _ => ?_
      split
      · exact hle op'
      · exact le_rfl
    rw [List.forall_mem_cons, ← ih]
    have hf : opSum t f (op :: ops) = (if tenantFromKey op.key = some t then f op else 0) + opSum t f ops :=
      List.sum_cons
    have hg : opSum t g (op :: ops) = (if tenantFromKey op.key = some t then g op else 0) + opSum t g ops :=
      List.sum_cons
    rw [hf, hg]
    by_cases ht : tenantFromKey op.key = some t
    · have := hle op
      rw [if_pos ht, if_pos ht]
      constructor
      · intro h
        exact ⟨fun _ => by omega, by omega⟩
      · rintro ⟨h1, h2⟩
        rw [h1 ht, h2]
    · rw [if_neg ht, if_neg ht]
      constructor
      · intro h
        exact ⟨fun h' => absurd h' ht, by omega⟩
      · rintro ⟨-, h2⟩
        rw [h2]

theorem liveLen_later {now later : Nat} (h : now ≤ later) (key : Bytes) :
    st.liveLen later key ≤ st.liveLen now key := by
  unfold liveLen get getWithSeq
  rcases outcome_later h (v := newest st.versions key) with he | he
  · rw [he]
  · rw [he]
    exact Nat.zero_le _

theorem tenantUsageBytes_later_iff (hseq : ∀ v ∈ st.versions, v.seq < st.nextSeq) {now later : Nat}
    (h : now ≤ later) :
    (∀ t, st.tenantUsageBytes later t = st.tenantUsageBytes now t) ↔
      ∀ key, tenantFromKey key ≠ none → st.liveLen later key = st.liveLen now key := by
  have hle : ∀ t, ∀ k ∈ st.keys, st.tenantLen later t k ≤ st.tenantLen now t k := by
    intro t k _
    unfold tenantLen
    split
    · exact liveLen_later h k
    · exact le_rfl
  have hiff : ∀ t, st.tenantUsageBytes later t = st.tenantUsageBytes now t ↔
      ∀ k ∈ st.keys, st.tenantLen later t k = st.tenantLen now t k := by
    intro t
    rw [tenantUsageBytes_eq hseq, tenantUsageBytes_eq hseq]
    exact Finset.sum_eq_sum_iff_of_le (hle t)
  constructor
  · intro hall key hk
    obtain ⟨t, ht⟩ := Option.ne_none_iff_exists'.mp hk
    by_cases hmem : key ∈ st.keys
    · have hlen := (hiff t).mp (hall t) key hmem
      unfold tenantLen at hlen
      rw [if_pos ht, if_pos ht] at hlen
      exact hlen
    · rw [liveLen_of_not_mem hmem, liveLen_of_not_mem hmem]
  · intro hall t
    refine (hiff t).mpr fun k _ => ?_
    unfold tenantLen
    split
    next ht => exact hall k (by simp [ht])
    next => rfl

end VersionStore

end ZydecoDb
