import ZydecoDb.Document.Encoding

namespace ZydecoDb

open Lib

def recDoc : UInt8 := 0x64
def recIndex : UInt8 := 0x69

def docPrefix (storagePrefix : Bytes) (collectionId : UInt32) : Bytes :=
  storagePrefix ++ recDoc :: toBe 4 collectionId.toNat

def docKey (storagePrefix : Bytes) (collectionId : UInt32) (docId : Bytes) : Bytes :=
  docPrefix storagePrefix collectionId ++ docId

def indexPrefix (storagePrefix : Bytes) (collectionId indexId : UInt32) : Bytes :=
  storagePrefix ++ recIndex :: (toBe 4 collectionId.toNat ++ toBe 4 indexId.toNat)

def indexKey (storagePrefix : Bytes) (collectionId indexId : UInt32) (encodedFields docId : Bytes) :
    Bytes :=
  indexPrefix storagePrefix collectionId indexId ++ encodedFields ++ docId

theorem docKey_eq (p : Bytes) (cid : UInt32) (id : Bytes) :
    docKey p cid id = p ++ (recDoc :: (toBe 4 cid.toNat ++ id)) := by
  simp [docKey, docPrefix]

theorem indexKey_eq (p : Bytes) (cid iid : UInt32) (fields id : Bytes) :
    indexKey p cid iid fields id =
      p ++ (recIndex :: (toBe 4 cid.toNat ++ (toBe 4 iid.toNat ++ (fields ++ id)))) := by
  simp [indexKey, indexPrefix]

theorem toBe_id_append_inj {a b : UInt32} {x y : Bytes} :
    toBe 4 a.toNat ++ x = toBe 4 b.toNat ++ y ↔ a = b ∧ x = y := by
  rw [toBe_append_inj a.toNat_lt b.toNat_lt, UInt32.toNat_inj]

theorem toBe_id_small {cid : UInt32} (h : cid.toNat < 2 ^ 24) :
    toBe 4 cid.toNat = 0x00 :: toBe 3 cid.toNat := by
  have hdiv : cid.toNat / 256 / 256 / 256 = 0 := by omega
  simp [toBe, hdiv]

theorem docKey_inj {p : Bytes} {cid cid' : UInt32} {id id' : Bytes} :
    docKey p cid id = docKey p cid' id' ↔ cid = cid' ∧ id = id' := by
  rw [docKey_eq, docKey_eq, List.append_cancel_left_eq, List.cons.injEq, toBe_id_append_inj]
  exact and_iff_right rfl

theorem docKey_ne_indexKey {p : Bytes} {cid cid' iid : UInt32} {id fields id' : Bytes} :
    docKey p cid id ≠ indexKey p cid' iid fields id' := by
  rw [docKey_eq, indexKey_eq]
  intro h
  have htag := (List.cons.inj (List.append_cancel_left h)).1
  exact absurd htag (by decide)

theorem indexKey_inj {p : Bytes} {cid cid' iid iid' : UInt32} {fields fields' id id' : Bytes} :
    indexKey p cid iid fields id = indexKey p cid' iid' fields' id' ↔
      cid = cid' ∧ iid = iid' ∧ fields ++ id = fields' ++ id' := by
  rw [indexKey_eq, indexKey_eq, List.append_cancel_left_eq, List.cons.injEq, toBe_id_append_inj,
    toBe_id_append_inj]
  exact and_iff_right rfl

end ZydecoDb
