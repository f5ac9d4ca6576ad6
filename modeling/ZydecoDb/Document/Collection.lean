import ZydecoDb.Document.BodyFields
import ZydecoDb.Document.Query

namespace ZydecoDb

open Lib ZDocBuilder ValueView

section Collection

variable (parseJson : Bytes → DocResult Value) (snap : SnapshotHandle) (nowMs : Nat)
  (storagePrefix : Bytes) (coll : CollectionMeta)

def IsDocument (id : Bytes) (v : Value) : Prop :=
  v.IsBody ∧ ∃ stored, snap.get (docKey storagePrefix coll.id id) nowMs = some stored ∧
    withStoredView parseJson stored = .ok (fromValue v)

/-- The bodies decode, and every index holds one entry per visible document, at the key of its body. -/
structure Consistent : Prop where
  bodies : ∀ id stored, snap.get (docKey storagePrefix coll.id id) nowMs = some stored →
    ∃ v : Value, v.IsBody ∧ withStoredView parseJson stored = .ok (fromValue v)
  entries : ∀ idx ∈ coll.indexes, ∀ k id, indexPrefix storagePrefix coll.id idx.id <+: k →
    (snap.get k nowMs = some id ↔ ∃ v, IsDocument parseJson snap nowMs storagePrefix coll id v ∧
      k = indexKey storagePrefix coll.id idx.id (encodedFields idx v) id)

variable {parseJson snap nowMs storagePrefix coll}

theorem IsDocument.eq {id stored : Bytes} {v w : Value}
    (hv : IsDocument parseJson snap nowMs storagePrefix coll id v)
    (hget : snap.get (docKey storagePrefix coll.id id) nowMs = some stored) (hw : w.IsBody)
    (hview : withStoredView parseJson stored = .ok (fromValue w)) : v = w := by
  obtain ⟨hbody, other, hother, hval⟩ := hv
  cases Option.some.inj (hget.symm.trans hother)
  exact hbody.ext hw (Except.ok.inj (hval.symm.trans hview))

end Collection

section Loaded

variable (storagePrefix : Bytes) (coll : CollectionMeta) (docs : List (Bytes × Value))

def loadedPairs : List (Bytes × Bytes) :=
  docs.flatMap fun d => (docKey storagePrefix coll.id d.1, vkZdoc :: fromValue d.2) ::
    coll.indexes.map fun idx =>
      (indexKey storagePrefix coll.id idx.id (encodedFields idx d.2) d.1, d.1)

def loadedSnapshot : SnapshotHandle :=
  ⟨(loadedPairs storagePrefix coll docs).map fun p => BatchOp.version 1 (.put p.1 p.2 0), 1⟩

variable {storagePrefix coll docs}

theorem mem_loadedPairs {k value : Bytes} :
    (k, value) ∈ loadedPairs storagePrefix coll docs ↔ ∃ d ∈ docs,
      (k = docKey storagePrefix coll.id d.1 ∧ value = vkZdoc :: fromValue d.2) ∨
      ∃ idx ∈ coll.indexes,
        k = indexKey storagePrefix coll.id idx.id (encodedFields idx d.2) d.1 ∧ value = d.1 := by
  simp only [loadedPairs, List.mem_flatMap, List.mem_cons, List.mem_map, Prod.mk.injEq]
  refine exists_congr fun d => and_congr_right fun _ => or_congr_right ?_
  refine exists_congr fun idx => and_congr_right fun _ => ?_
  rw [eq_comm (a := k), eq_comm (a := value)]

theorem encodedFields_append_inj {idx : IndexMeta} {v w : Value} {x y : Bytes}
    (h : encodedFields idx v ++ x = encodedFields idx w ++ y) : x = y := by
  have hlen : (idx.fields.map (extractPath v)).length = (idx.fields.map (extractPath w)).length := by
    simp
  exact ((encodeFieldsWithDirections_append_inj hlen).mp h).2

section Distinct

variable (hids : (docs.map Prod.fst).Nodup) (hindexes : (coll.indexes.map IndexMeta.id).Nodup)

include hids hindexes

theorem loadedPairs_functional {k a b : Bytes} (ha : (k, a) ∈ loadedPairs storagePrefix coll docs)
    (hb : (k, b) ∈ loadedPairs storagePrefix coll docs) : a = b := by
  obtain ⟨d, hd, hcase⟩ := mem_loadedPairs.mp ha
  obtain ⟨e, he, hcase'⟩ := mem_loadedPairs.mp hb
  rcases hcase with ⟨hk, rfl⟩ | ⟨i, hi, hk, rfl⟩
  · rcases hcase' with ⟨hk', rfl⟩ | ⟨j, hj, hk', rfl⟩
    · have hid := (docKey_inj.mp (hk.symm.trans hk')).2
      rw [List.inj_on_of_nodup_map hids hd he hid]
    · exact absurd (hk.symm.trans hk') docKey_ne_indexKey
  · rcases hcase' with ⟨hk', rfl⟩ | ⟨j, hj, hk', rfl⟩
    · exact absurd (hk'.symm.trans hk) docKey_ne_indexKey
    · obtain ⟨-, hid, hfields⟩ := indexKey_inj.mp (hk.symm.trans hk')
      cases List.inj_on_of_nodup_map hindexes hi hj hid
      exact encodedFields_append_inj hfields

theorem get_loadedSnapshot {k value : Bytes} {nowMs : Nat} :
    (loadedSnapshot storagePrefix coll docs).get k nowMs = some value ↔
      (k, value) ∈ loadedPairs storagePrefix coll docs := by
  have hmem : ∀ v : Version, v ∈ (loadedSnapshot storagePrefix coll docs).versions ↔
      ∃ q ∈ loadedPairs storagePrefix coll docs, v = ⟨q.1, 1, .value q.2 none⟩ := by
    intro v
    refine List.mem_map.trans (exists_congr fun q => and_congr_right fun _ => ?_)
    exact eq_comm
  have hcoherent : Coherent (loadedSnapshot storagePrefix coll docs).versions := by
    intro v hv w hw hkey _
    obtain ⟨⟨k, a⟩, ha, rfl⟩ := (hmem v).mp hv
    obtain ⟨⟨k', b⟩, hb, rfl⟩ := (hmem w).mp hw
    cases (show k = k' from hkey)
    rw [loadedPairs_functional hids hindexes ha hb]
  constructor
  · intro h
    obtain ⟨r, hr, rfl⟩ := Option.map_eq_some_iff.mp h
    obtain ⟨w, hw, hres⟩ := Option.bind_eq_some_iff.mp hr
    obtain ⟨hin, rfl, -⟩ := (newestAt_eq_some hcoherent).mp hw
    obtain ⟨q, hq, rfl⟩ := (hmem w).mp hin
    cases hres
    exact hq
  · intro h
    have hnewest : newestAt (loadedSnapshot storagePrefix coll docs).versions k 1 =
        some ⟨k, 1, .value value none⟩ := by
      refine (newestAt_eq_some hcoherent).mpr ⟨(hmem _).mpr ⟨(k, value), h, rfl⟩, rfl, le_rfl, ?_⟩
      intro w hw _ _
      obtain ⟨q, -, rfl⟩ := (hmem w).mp hw
      exact le_rfl
    show (outcome (newestAt (loadedSnapshot storagePrefix coll docs).versions k 1) nowMs).map _ = _
    rw [hnewest]
    rfl

/-- A collection just loaded has an index entry for each document and no other. -/
theorem loadedSnapshot_consistent (parseJson : Bytes → DocResult Value) (nowMs : Nat)
    (hbody : ∀ d ∈ docs, d.2.IsBody) :
    Consistent parseJson (loadedSnapshot storagePrefix coll docs) nowMs storagePrefix coll := by
  have hdoc : ∀ {id stored : Bytes}, (loadedSnapshot storagePrefix coll docs).get
      (docKey storagePrefix coll.id id) nowMs = some stored →
      ∃ v, (id, v) ∈ docs ∧ stored = vkZdoc :: fromValue v := by
    intro id stored hget
    rw [get_loadedSnapshot hids hindexes, mem_loadedPairs] at hget
    obtain ⟨d, hd, ⟨hk, hval⟩ | ⟨idx, -, hk, -⟩⟩ := hget
    · cases (docKey_inj.mp hk).2
      exact ⟨d.2, hd, hval⟩
    · exact absurd hk docKey_ne_indexKey
  refine ⟨fun id stored hget => ?_, fun idx hidx k id hprefix => ⟨fun hget => ?_, ?_⟩⟩
  · obtain ⟨v, hv, rfl⟩ := hdoc hget
    exact ⟨v, hbody _ hv, rfl⟩
  · rw [get_loadedSnapshot hids hindexes, mem_loadedPairs] at hget
    obtain ⟨d, hd, ⟨hk, -⟩ | ⟨j, hj, hk, rfl⟩⟩ := hget
    · obtain ⟨tail, htail⟩ := hprefix
      have hkey : indexKey storagePrefix coll.id idx.id [] tail = docKey storagePrefix coll.id d.1 := by
        rw [← hk, ← htail]
        simp [indexKey]
      exact absurd hkey.symm docKey_ne_indexKey
    · obtain ⟨tail, htail⟩ := hprefix
      have hkey : indexKey storagePrefix coll.id idx.id [] tail =
          indexKey storagePrefix coll.id j.id (encodedFields j d.2) d.1 := by
        rw [← hk, ← htail]
        simp [indexKey]
      cases List.inj_on_of_nodup_map hindexes hidx hj (indexKey_inj.mp hkey).2.1
      refine ⟨d.2, ⟨hbody d hd, vkZdoc :: fromValue d.2, ?_, rfl⟩, hk⟩
      rw [get_loadedSnapshot hids hindexes, mem_loadedPairs]
      exact ⟨d, hd, Or.inl ⟨rfl, rfl⟩⟩
  · rintro ⟨v, ⟨hv, stored, hget, hview⟩, rfl⟩
    obtain ⟨w, hw, rfl⟩ := hdoc hget
    have hsame : w = v := (hbody _ hw).ext hv (Except.ok.inj hview)
    subst hsame
    rw [get_loadedSnapshot hids hindexes, mem_loadedPairs]
    exact ⟨(id, w), hw, Or.inr ⟨idx, hidx, rfl, rfl⟩⟩

end Distinct

end Loaded

end ZydecoDb
