import ZydecoDb.Session
import ZydecoDb.Document.Catalog
import Mathlib

namespace ZydecoDb

open Lib

inductive StoredRecord
  | raw (clientKey : Bytes)
  | doc (collectionId : UInt32) (docId : Bytes)
  | index (collectionId indexId : UInt32) (values : List Value) (docId : Bytes)

namespace StoredRecord

variable (indexes : UInt32 → IndexMeta) (session : SessionState) (legacy : Bool)

def key : StoredRecord → Bytes
  | raw clientKey => storageKey session clientKey legacy
  | doc cid id => docKey (tenantPrefix session legacy) cid id
  | index cid iid values id =>
    indexKey (tenantPrefix session legacy) cid iid
      (encodeFieldsWithDirections values (indexes iid).ascending) id

/-- What is ever written: no raw key that is reserved, collections numbered below 2^24, and a value for
each field of the index. -/
def Written : StoredRecord → Prop
  | raw clientKey => reservedClientKey clientKey = false
  | doc cid _ => cid.toNat < 2 ^ 24
  | index cid iid values _ => cid.toNat < 2 ^ 24 ∧ values.length = (indexes iid).fields.length

def Same : StoredRecord → StoredRecord → Prop
  | raw k, raw k' => k = k'
  | doc cid id, doc cid' id' => cid = cid' ∧ id = id'
  | index cid iid values id, index cid' iid' values' id' =>
    cid = cid' ∧ iid = iid' ∧ values.map Value.indexValue = values'.map Value.indexValue ∧ id = id'
  | _, _ => False

end StoredRecord

def SessionState.reach (session : SessionState) (indexes : UInt32 → IndexMeta) (legacy : Bool) :
    Set Bytes :=
  Set.range (StoredRecord.key indexes session legacy)

section

variable {indexes : UInt32 → IndexMeta} {session : SessionState} {legacy : Bool}

theorem mem_reach {k : Bytes} : k ∈ session.reach indexes legacy ↔ tenantPrefix session legacy <+: k := by
  constructor
  · rintro ⟨r, rfl⟩
    cases r with
    | raw clientKey => exact List.prefix_append _ _
    | doc cid id =>
      rw [StoredRecord.key, docKey_eq]
      exact List.prefix_append _ _
    | index cid iid values id =>
      rw [StoredRecord.key, indexKey_eq]
      exact List.prefix_append _ _
  · rintro ⟨rest, rfl⟩
    exact ⟨.raw rest, rfl⟩

theorem reservedClientKey_docLayer {tag : UInt8} (htag : tag = recDoc ∨ tag = recIndex) {cid : UInt32}
    (h : cid.toNat < 2 ^ 24) (rest : Bytes) :
    reservedClientKey (tag :: (toBe 4 cid.toNat ++ rest)) = true := by
  rw [toBe_id_small h]
  rcases htag with rfl | rfl <;> rfl

theorem storageKey_ne_docKey {k id : Bytes} {cid : UInt32} (hk : reservedClientKey k = false)
    (h : cid.toNat < 2 ^ 24) :
    storageKey session k legacy ≠ docKey (tenantPrefix session legacy) cid id := by
  rw [docKey_eq, storageKey]
  intro he
  rw [List.append_cancel_left he, reservedClientKey_docLayer (Or.inl rfl) h] at hk
  simp at hk

theorem storageKey_ne_indexKey {k fields id : Bytes} {cid iid : UInt32}
    (hk : reservedClientKey k = false) (h : cid.toNat < 2 ^ 24) :
    storageKey session k legacy ≠ indexKey (tenantPrefix session legacy) cid iid fields id := by
  rw [indexKey_eq, storageKey]
  intro he
  rw [List.append_cancel_left he, reservedClientKey_docLayer (Or.inr rfl) h] at hk
  simp at hk

theorem storageKey_inj {k k' : Bytes} :
    storageKey session k legacy = storageKey session k' legacy ↔ k = k' := by
  rw [storageKey, storageKey, List.append_cancel_left_eq]

theorem StoredRecord.key_eq_iff {r r' : StoredRecord} (hr : r.Written indexes)
    (hr' : r'.Written indexes) :
    r.key indexes session legacy = r'.key indexes session legacy ↔ r.Same r' := by
  cases r with
  | raw k =>
    cases r' with
    | raw k' => exact storageKey_inj
    | doc cid id => exact iff_of_false (storageKey_ne_docKey hr hr') (fun h => h)
    | index cid iid values id => exact iff_of_false (storageKey_ne_indexKey hr hr'.1) (fun h => h)
  | doc cid id =>
    cases r' with
    | raw k => exact iff_of_false (storageKey_ne_docKey hr' hr).symm (fun h => h)
    | doc cid' id' => exact docKey_inj
    | index cid' iid values id' => exact iff_of_false docKey_ne_indexKey (fun h => h)
  | index cid iid values id =>
    cases r' with
    | raw k => exact iff_of_false (storageKey_ne_indexKey hr' hr.1).symm (fun h => h)
    | doc cid' id' => exact iff_of_false docKey_ne_indexKey.symm (fun h => h)
    | index cid' iid' values' id' =>
      rw [key, key, indexKey_inj]
      refine and_congr_right fun _ => and_congr_right fun hi => ?_
      subst hi
      exact encodeFieldsWithDirections_append_inj (hr.2.trans hr'.2.symm)

theorem tenantPrefix_of_tenanted (h : legacy = true → session.tenant ≠ .zero) :
    tenantPrefix session legacy = ksUser :: session.tenant.bytes := by
  rw [tenantPrefix, if_neg fun hz => h hz.1 hz.2]

theorem tenantPrefix_legacy_zero (h : session.tenant = .zero) : tenantPrefix session true = [ksUser] := by
  rw [tenantPrefix, if_pos ⟨rfl, h⟩]

theorem ksUser_prefix_tenantPrefix : [ksUser] <+: tenantPrefix session legacy := by
  unfold tenantPrefix
  split
  next => exact List.prefix_rfl
  next => exact ⟨session.tenant.bytes, rfl⟩

theorem not_disjoint_reach_of_zero {other : SessionState} (h : session.tenant = .zero) :
    ¬ Disjoint (session.reach indexes true) (other.reach indexes true) := by
  rw [Set.not_disjoint_iff]
  refine ⟨tenantPrefix other true, mem_reach.mpr ?_, mem_reach.mpr List.prefix_rfl⟩
  rw [tenantPrefix_legacy_zero h]
  exact ksUser_prefix_tenantPrefix

theorem disjoint_reach_of_tenanted {other : SessionState} (hne : session.tenant ≠ other.tenant)
    (hs : legacy = true → session.tenant ≠ .zero) (ho : legacy = true → other.tenant ≠ .zero) :
    Disjoint (session.reach indexes legacy) (other.reach indexes legacy) := by
  rw [Set.disjoint_left]
  intro k hk hk'
  rw [mem_reach, tenantPrefix_of_tenanted hs] at hk
  rw [mem_reach, tenantPrefix_of_tenanted ho] at hk'
  have hlen : (ksUser :: session.tenant.bytes).length = (ksUser :: other.tenant.bytes).length := by
    simp [session.tenant.length_eq, other.tenant.length_eq]
  have heq := (List.prefix_of_prefix_length_le hk hk' hlen.le).eq_of_length hlen
  refine hne ?_
  cases hst : session.tenant
  cases hot : other.tenant
  simp only [hst, hot, List.cons.injEq, true_and] at heq
  subst heq
  rfl

end

/-- Two tenants' keys are apart exactly when no legacy session of the zero tenant is involved; within a
tenant no two different records are ever written under one key. -/
theorem keySpace_separated_iff (indexes : UInt32 → IndexMeta) (legacy : Bool) :
    (∀ s s' : SessionState, s.tenant ≠ s'.tenant →
      (Disjoint (s.reach indexes legacy) (s'.reach indexes legacy) ↔
        (legacy = true → s.tenant ≠ .zero ∧ s'.tenant ≠ .zero))) ∧
    ∀ (s : SessionState) (r r' : StoredRecord), r.Written indexes → r'.Written indexes →
      (r.key indexes s legacy = r'.key indexes s legacy ↔ r.Same r') := by
  refine ⟨fun s s' hne => ⟨fun hd hl => ?_, fun h => ?_⟩, fun s r r' hr hr' => StoredRecord.key_eq_iff hr hr'⟩
  · subst hl
    refine ⟨fun hz => not_disjoint_reach_of_zero hz hd, fun hz => ?_⟩
    exact not_disjoint_reach_of_zero hz hd.symm
  · exact disjoint_reach_of_tenanted hne (fun hl => (h hl).1) fun hl => (h hl).2

def tenantOne : Tenant := ⟨List.replicate 16 1, rfl⟩

def sessionOne : SessionState := { SessionState.anonymous with tenant := tenantOne }

/-- Two tenants over one descending index, and two index entries of one of them. -/
theorem keySpace_separated_prefixed :
    Disjoint (SessionState.anonymous.reach (fun _ => ⟨1, [], [[0x61]], [false], false, none⟩) false)
        (sessionOne.reach (fun _ => ⟨1, [], [[0x61]], [false], false, none⟩) false) ∧
      StoredRecord.key (fun _ => ⟨1, [], [[0x61]], [false], false, none⟩) sessionOne false (.index 1 1 [.bool true] [7]) ≠
        StoredRecord.key (fun _ => ⟨1, [], [[0x61]], [false], false, none⟩) sessionOne false
          (.index 1 1 [.bool false] [7]) := by
  have hsep := keySpace_separated_iff (fun _ => ⟨1, [], [[0x61]], [false], false, none⟩) false
  refine ⟨(hsep.1 .anonymous sessionOne (by decide)).mpr (by simp), ?_⟩
  refine mt (hsep.2 sessionOne (.index 1 1 [.bool true] [7]) (.index 1 1 [.bool false] [7])
    ⟨by decide, rfl⟩ ⟨by decide, rfl⟩).mp ?_
  simp [StoredRecord.Same, Value.indexValue]

/-- A legacy session of the zero tenant reads and writes the other tenant's key under a longer name;
and an index does not tell an array from null. -/
theorem legacy_zero_tenant_reaches_other :
    storageKey .anonymous (tenantOne.bytes ++ [0x6B]) true = storageKey sessionOne [0x6B] true ∧
      reservedClientKey (tenantOne.bytes ++ [0x6B]) = false ∧
      ¬ Disjoint (SessionState.anonymous.reach (fun _ => ⟨1, [], [], [], false, none⟩) true)
        (sessionOne.reach (fun _ => ⟨1, [], [], [], false, none⟩) true) ∧
      StoredRecord.key (fun _ => ⟨1, [], [[0x61]], [], false, none⟩) sessionOne true (.index 1 1 [.array []] [7]) =
        StoredRecord.key (fun _ => ⟨1, [], [[0x61]], [], false, none⟩) sessionOne true (.index 1 1 [.null] [7]) :=
  ⟨by decide, by decide, not_disjoint_reach_of_zero rfl, by decide⟩

end ZydecoDb
