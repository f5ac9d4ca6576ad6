import ZydecoDb.Document.BodyFields

namespace ZydecoDb

open Lib ZDocBuilder ValueView

/-- A number as the JSON parser leaves it: an integer of 64 bits, kept without a sign where it has
none, or a finite double. -/
def Number.Parsed : Number → Prop
  | .posInt _ => True
  | .negInt n => n < 0
  | .float bits => f64IsFinite bits = true

abbrev Value.Parsed (v : Value) : Prop := v.JsonWith Number.Parsed

def encodeView : Option ValueView → Bytes
  | none => [tagNull]
  | some view =>
    let tag := typeByte view
    if tag = typeNull then [tagNull]
    else if tag = typeBoolFalse then [tagBool, 0]
    else if tag = typeBoolTrue then [tagBool, 1]
    else if tag = typeI64 ∨ tag = typeF64 then
      tagNum :: encodeF64TotalOrder ((asF64 view).getD 0)
    else if tag = typeString then tagStr :: encodeStr ((asStr view).getD [])
    else [tagNull]

def encodeFieldsFromViewWithDirections (root : ValueView) : List Bytes → List Bool → Bytes
  | [], _ => []
  | field :: fields, directions =>
    let asc := encodeView (getPath root field)
    (if directions.headD true then asc else invertEncoding asc) ++
      encodeFieldsFromViewWithDirections root fields directions.tail

def indexKeysForView (coll : CollectionMeta) (storagePrefix docId : Bytes) (view : ValueView) :
    List Bytes :=
  coll.indexes.map fun idx => indexKey storagePrefix coll.id idx.id
    (encodeFieldsFromViewWithDirections view idx.fields idx.ascending) docId

def btreeSet (l : List Bytes) : List Bytes := l.dedup.insertionSort (· ≤ ·)

@[simp] theorem mem_btreeSet {k : Bytes} {l : List Bytes} : k ∈ btreeSet l ↔ k ∈ l := by
  rw [btreeSet, List.mem_insertionSort, List.mem_dedup]

section Writes

-- The JSON parser is a library's, with the texts of its errors.
variable (parseJson : Bytes → Except String Value) (coll : CollectionMeta) (storagePrefix docId : Bytes)

/-- The index keys of a stored body: read off the bytes of a ZDoc body, off the parsed text of any
other. A text that does not parse has none. -/
def storedIndexKeys : Bytes → List Bytes
  | [] => []
  | kind :: payload =>
    if kind = vkZdoc then indexKeysForView coll storagePrefix docId payload
    else match parseJson payload with
      | .ok old => indexKeysFor coll storagePrefix docId old
      | .error _ => []

def oldKeysOf : Option Bytes → List Bytes × Bool
  | some (kind :: payload) =>
    (btreeSet (storedIndexKeys parseJson coll storagePrefix docId (kind :: payload)), true)
  | _ => ([], false)

def newKeysOf (payload : Bytes) (isZdoc : Bool) : DocResult (List Bytes) :=
  if isZdoc then .ok (btreeSet (indexKeysForView coll storagePrefix docId payload))
  else match parseJson payload with
    | .ok doc => .ok (btreeSet (indexKeysFor coll storagePrefix docId doc))
    | .error e => .error (.invalidJson e)

/-- The batch that writes a body over what is stored, past the unique check: stale entries are removed
and the entries of the new body written, with the body's expiry. -/
def replaceOps (stored : Option Bytes) (payload : Bytes) (isZdoc : Bool) (expiresAt : Nat) :
    DocResult WriteOps :=
  (newKeysOf parseJson coll storagePrefix docId payload isZdoc).bind fun newKeys =>
    let old := oldKeysOf parseJson coll storagePrefix docId stored
    let ops := .put (docKey storagePrefix coll.id docId)
        ((if isZdoc then vkZdoc else vkRaw) :: payload) expiresAt ::
      ((old.1.filter fun k => !newKeys.contains k).map BatchOp.del ++
        newKeys.map fun k => .put k docId expiresAt)
    if ops.length + 1 > maxBatchKeys then .error (.batchTooLarge ops.length)
    else .ok ⟨ops, coll.id, if old.2 then 0 else 1⟩

def deleteStoredOps (stored : Bytes) : DocResult WriteOps :=
  let ops := .del (docKey storagePrefix coll.id docId) ::
    (storedIndexKeys parseJson coll storagePrefix docId stored).map BatchOp.del
  if ops.length + 1 > maxBatchKeys then .error (.batchTooLarge ops.length)
  else .ok ⟨ops, coll.id, -1⟩

end Writes

section Views

theorem asF64_number {n : Number} (h : n.Parsed) (tail : Bytes) :
    asF64 (encodeZDoc (.number n) ++ tail) = some n.asF64 := by
  cases n with
  | posInt n =>
    by_cases hlt : n.toNat < 2 ^ 63
    · exact asF64_encodeZDoc (n := .posInt n) hlt tail
    · have hi : (Number.posInt n).asI64 = none := if_neg hlt
      rw [encodeZDoc, writeNumber, hi]
      exact asF64_layout _ tail
  | negInt n => exact asF64_encodeZDoc (n := .negInt n) h tail
  | float bits => exact asF64_encodeZDoc (n := .float bits) h tail

theorem encodeView_encodeZDoc {v : Value} (hv : v.Parsed) (hlen : (encodeZDoc v).length < 2 ^ 32)
    (tail : Bytes) : encodeView (some (encodeZDoc v ++ tail)) = encodeValue v := by
  cases hv with
  | null => rfl
  | bool b => cases b <;> rfl
  | @number n h =>
    have hbits := asF64_number h tail
    rcases typeByte_number n tail with htag | htag <;>
      simp only [encodeView, htag, hbits, encodeValue] <;> rfl
  | @string s h =>
    rw [encodeZDoc, List.length_cons, List.length_append] at hlen
    have hstr := asStr_layout h (by omega) tail
    have htag : typeByte (typeString :: (toLe 4 s.length ++ s) ++ tail) = typeString := rfl
    rw [encodeZDoc]
    simp only [encodeView, htag, hstr, encodeValue]
    rfl
  | array h => rfl
  | object hk hs h => rfl

variable {v : Value} (hv : v.Parsed) (hsize : (fromValue v).length < 2 ^ 32)

include hv hsize

theorem encodeView_getPath (path : Bytes) :
    encodeView (getPath (fromValue v) path) = encodeValue (extractPath v path) := by
  rw [fromValue_eq] at hsize ⊢
  rw [getPath, extractPath, extractSegments_eq]
  generalize path.splitOn 0x2E = segs
  obtain ⟨tail, hget⟩ : ∃ tail, getSegments segs (encodeZDoc v ++ []) =
      (atSegments segs v).map (encodeZDoc · ++ tail) := getSegments_encodeZDoc hv hsize []
  rw [List.append_nil] at hget
  rw [hget]
  cases hl : atSegments segs v with
  | none => rfl
  | some w =>
    obtain ⟨hw, hlen, -⟩ := atSegments_part hv hl
    exact encodeView_encodeZDoc hw (by omega) tail

theorem encodeFieldsFromView_eq (fields : List Bytes) (directions : List Bool) :
    encodeFieldsFromViewWithDirections (fromValue v) fields directions =
      encodeFieldsWithDirections (fields.map (extractPath v)) directions := by
  induction fields generalizing directions with
  | nil => rfl
  | cons field fields ih =>
    rw [encodeFieldsFromViewWithDirections, List.map_cons, encodeFieldsWithDirections, ih,
      encodeView_getPath hv hsize]
    rfl

theorem indexKeysForView_eq (coll : CollectionMeta) (storagePrefix docId : Bytes) :
    indexKeysForView coll storagePrefix docId (fromValue v) =
      indexKeysFor coll storagePrefix docId v := by
  rw [indexKeysForView, indexKeysFor]
  refine List.map_congr_left fun idx _ => ?_
  rw [encodeFieldsFromView_eq hv hsize, encodedFields]

end Views

def HoldsDoc (parseJson : Bytes → Except String Value) (stored : Bytes) (v : Value) : Prop :=
  stored = vkZdoc :: fromValue v ∨
    ∃ kind text, kind ≠ vkZdoc ∧ parseJson text = .ok v ∧ stored = kind :: text

section Removal

variable {parseJson : Bytes → Except String Value} {coll : CollectionMeta} {storagePrefix docId : Bytes}
  {v : Value} {stored : Bytes}

theorem storedIndexKeys_eq (hv : v.Parsed) (hsize : (fromValue v).length < 2 ^ 32)
    (h : HoldsDoc parseJson stored v) :
    storedIndexKeys parseJson coll storagePrefix docId stored =
      indexKeysFor coll storagePrefix docId v := by
  rcases h with rfl | ⟨kind, text, hkind, hparse, rfl⟩
  · rw [storedIndexKeys, if_pos rfl, indexKeysForView_eq hv hsize]
  · rw [storedIndexKeys, if_neg hkind, hparse]

theorem stored_ne_nil (h : HoldsDoc parseJson stored v) : ∃ kind payload, stored = kind :: payload := by
  rcases h with rfl | ⟨kind, text, -, -, rfl⟩
  · exact ⟨_, _, rfl⟩
  · exact ⟨_, _, rfl⟩

theorem mem_replaceOps {keys : List Bytes} {payload : Bytes} {isZdoc : Bool} {expiresAt : Nat}
    {w : WriteOps} (hkeys : storedIndexKeys parseJson coll storagePrefix docId stored = keys)
    (hne : ∃ kind payload, stored = kind :: payload)
    (h : replaceOps parseJson coll storagePrefix docId (some stored) payload isZdoc expiresAt = .ok w) :
    ∃ newKeys, newKeysOf parseJson coll storagePrefix docId payload isZdoc = .ok newKeys ∧
      ∀ k ∈ keys, k ∉ newKeys → .del k ∈ w.ops := by
  obtain ⟨kind, body, rfl⟩ := hne
  unfold replaceOps at h
  cases hnew : newKeysOf parseJson coll storagePrefix docId payload isZdoc with
  | error e =>
    rw [hnew] at h
    cases h
  | ok newKeys =>
    rw [hnew] at h
    refine ⟨newKeys, rfl, fun k hk hout => ?_⟩
    simp only [Except.bind, oldKeysOf, hkeys] at h
    have hw := ite_error_eq_ok h
    cases hw
    refine List.mem_cons_of_mem _ (List.mem_append_left _ (List.mem_map.mpr ⟨k, ?_, rfl⟩))
    rw [List.mem_filter, mem_btreeSet]
    exact ⟨hk, by simpa using hout⟩

theorem mem_deleteStoredOps {w : WriteOps} {k : Bytes}
    (hk : k ∈ storedIndexKeys parseJson coll storagePrefix docId stored)
    (h : deleteStoredOps parseJson coll storagePrefix docId stored = .ok w) : .del k ∈ w.ops := by
  simp only [deleteStoredOps] at h
  have hw := ite_error_eq_ok h
  cases hw
  exact List.mem_cons_of_mem _ (List.mem_map.mpr ⟨k, hk, rfl⟩)

end Removal

/-- The index keys of a document are the same from its value and from its bytes, so a body in either
form takes all its entries with it: written over, except those the new body has, and deleted. -/
theorem indexKeys_either_form (parseJson : Bytes → Except String Value) (coll : CollectionMeta)
    (storagePrefix docId : Bytes) (v : Value) (hv : v.Parsed)
    (hsize : (fromValue v).length < 2 ^ 32) :
    indexKeysForView coll storagePrefix docId (fromValue v) =
        indexKeysFor coll storagePrefix docId v ∧
    ∀ stored, HoldsDoc parseJson stored v →
      (∀ payload isZdoc expiresAt w,
        replaceOps parseJson coll storagePrefix docId (some stored) payload isZdoc expiresAt = .ok w →
        ∃ newKeys, newKeysOf parseJson coll storagePrefix docId payload isZdoc = .ok newKeys ∧
          ∀ k ∈ indexKeysFor coll storagePrefix docId v, k ∉ newKeys → .del k ∈ w.ops) ∧
      ∀ w, deleteStoredOps parseJson coll storagePrefix docId stored = .ok w →
        ∀ k ∈ indexKeysFor coll storagePrefix docId v, .del k ∈ w.ops := by
  refine ⟨indexKeysForView_eq hv hsize coll storagePrefix docId, fun stored hstored => ⟨?_, ?_⟩⟩
  · intro payload isZdoc expiresAt w hw
    exact mem_replaceOps (storedIndexKeys_eq hv hsize hstored) (stored_ne_nil hstored) hw
  · intro w hw k hk
    rw [← storedIndexKeys_eq hv hsize hstored] at hk
    exact mem_deleteStoredOps hk hw

def cityIndex : CollectionMeta where
  id := 1
  storagePrefix := []
  name := [99]
  indexes := [⟨1, [105], [[0x61, 0x2E, 0x62], [0x63]], [true, false], false, none⟩]

def wideDoc : Value :=
  .object [([0x61], .object [([0x62], .number (.posInt 0xFFFFFFFFFFFFFFFF))])]

theorem wideDoc_parsed : wideDoc.Parsed := by
  refine .object (by decide) (by decide) ?_
  simp only [List.mem_singleton, forall_eq]
  refine .object (by decide) (by decide) ?_
  simp only [List.mem_singleton, forall_eq]
  exact .number trivial

/-- Stored in either form, the document takes its index entry with it when it is deleted. -/
theorem wideDoc_either_form :
    indexKeysForView cityIndex [] [7] (fromValue wideDoc) = indexKeysFor cityIndex [] [7] wideDoc ∧
    ∃ k w w', indexKeysFor cityIndex [] [7] wideDoc = [k] ∧
      deleteStoredOps (fun _ => .ok wideDoc) cityIndex [] [7] (vkZdoc :: fromValue wideDoc) = .ok w ∧
      deleteStoredOps (fun _ => .ok wideDoc) cityIndex [] [7] [vkRaw] = .ok w' ∧
      .del k ∈ w.ops ∧ .del k ∈ w'.ops := by
  obtain ⟨hkeys, hforms⟩ := indexKeys_either_form (fun _ => .ok wideDoc) cityIndex [] [7] wideDoc
    wideDoc_parsed (by decide)
  refine ⟨hkeys, _, _, _, rfl, rfl, rfl, ?_, ?_⟩
  · exact (hforms _ (Or.inl rfl)).2 _ rfl _ (List.mem_singleton_self _)
  · exact (hforms _ (Or.inr ⟨vkRaw, [], by decide, rfl, rfl⟩)).2 _ rfl _ (List.mem_singleton_self _)

end ZydecoDb
