import ZydecoDb.Document.IndexOrder

namespace ZydecoDb

open Lib

variable {directions : List Bool} {vs ws : List Value}

theorem byteCmp_encodeFields_append {x y : Bytes} (hne : compareFields directions vs ws ≠ .eq) :
    byteCmp (encodeFieldsWithDirections vs directions ++ x)
      (encodeFieldsWithDirections ws directions ++ y) = compareFields directions vs ws := by
  cases h : compareFields directions vs ws with
  | lt => exact byteCmp_eq_lt.mpr ((firstLess_of_compareFields h).append x y).lt
  | eq => exact absurd h hne
  | gt =>
    have hswap : compareFields directions ws vs = .lt := by
      rw [← compareFields_swap, h]
      rfl
    exact byteCmp_eq_gt.mpr ((firstLess_of_compareFields hswap).append y x).lt

theorem byteCmp_encodeFields (hlen : vs.length = ws.length) :
    byteCmp (encodeFieldsWithDirections vs directions) (encodeFieldsWithDirections ws directions) =
      compareFields directions vs ws := by
  by_cases h : compareFields directions vs ws = .eq
  · rw [h, byteCmp_eq_eq]
    exact encodeFieldsWithDirections_congr directions (indexValue_of_compareFields hlen h)
  · have happ := byteCmp_encodeFields_append (x := []) (y := []) h
    rwa [List.append_nil, List.append_nil] at happ

theorem encodeFields_prefix (hlen : vs.length = ws.length)
    (h : encodeFieldsWithDirections vs directions <+: encodeFieldsWithDirections ws directions) :
    encodeFieldsWithDirections vs directions = encodeFieldsWithDirections ws directions := by
  obtain ⟨x, hx⟩ := h
  have hempty : encodeFieldsWithDirections vs directions ++ x =
      encodeFieldsWithDirections ws directions ++ [] := by
    rw [hx, List.append_nil]
  obtain ⟨hsame, -⟩ := (encodeFieldsWithDirections_append_inj hlen).mp hempty
  exact encodeFieldsWithDirections_congr directions hsame

/-- Index keys sort as the tuples they hold. Encodings of two tuples are equal only field by field and
neither is a proper prefix of the other; bytes compare as the tuples do, with and without the key's
prefix and document ids around them; the upper bound of a prefix cuts off exactly its extensions; and
the walk over an ascending composite ends after its last field. -/
theorem index_key_order (directions : List Bool) (vs ws : List Value)
    (hlen : vs.length = ws.length) :
    (encodeFieldsWithDirections vs directions = encodeFieldsWithDirections ws directions →
      vs.map encodeValue = ws.map encodeValue) ∧
    (encodeFieldsWithDirections vs directions <+: encodeFieldsWithDirections ws directions →
      encodeFieldsWithDirections vs directions = encodeFieldsWithDirections ws directions) ∧
    byteCmp (encodeFieldsWithDirections vs directions)
      (encodeFieldsWithDirections ws directions) = compareFields directions vs ws ∧
    (encodeFieldsWithDirections vs directions ≠ encodeFieldsWithDirections ws directions →
      ∀ (storagePrefix : Bytes) (collectionId indexId : UInt32) (docId docId' : Bytes),
        byteCmp
          (indexKey storagePrefix collectionId indexId
            (encodeFieldsWithDirections vs directions) docId)
          (indexKey storagePrefix collectionId indexId
            (encodeFieldsWithDirections ws directions) docId') = compareFields directions vs ws) ∧
    (∀ p k : Bytes, p <+: k ↔ p ≤ k ∧ (prefixUpperBound p = [] ∨ k < prefixUpperBound p)) ∧
    tryDecodeFields (encodeFields vs) = .ok vs.length := by
  refine ⟨fun h => ?_, encodeFields_prefix hlen, byteCmp_encodeFields hlen,
    fun hne storagePrefix collectionId indexId docId docId' => ?_, prefix_iff_prefixUpperBound,
    walkFields_encodeFields (length_le_encodeFields vs)⟩
  · have happ : encodeFieldsWithDirections vs directions ++ [] =
        encodeFieldsWithDirections ws directions ++ [] := by
      rw [h]
    obtain ⟨hsame, -⟩ := (encodeFieldsWithDirections_append_inj hlen).mp happ
    have henc : encodeValue = IndexValue.encode ∘ Value.indexValue := funext encodeValue_eq
    rw [henc, ← List.map_map, ← List.map_map, hsame]
  · have hcmp : compareFields directions vs ws ≠ .eq := by
      intro he
      rw [← byteCmp_encodeFields hlen, byteCmp_eq_eq] at he
      exact hne he
    rw [indexKey, indexKey, List.append_assoc, List.append_assoc, byteCmp_append_left]
    exact byteCmp_encodeFields_append hcmp

/-- A descending second field: strings that share a prefix, the longer one first. -/
theorem index_key_order_descending :
    byteCmp
      (encodeFieldsWithDirections [.number (.posInt 7), .string [97, 0]] [true, false])
      (encodeFieldsWithDirections [.number (.posInt 7), .string [97]] [true, false]) =
        compareFields [true, false] [.number (.posInt 7), .string [97, 0]]
          [.number (.posInt 7), .string [97]] ∧
    compareFields [true, false] [.number (.posInt 7), .string [97, 0]]
      [.number (.posInt 7), .string [97]] = .lt :=
  ⟨(index_key_order [true, false] [.number (.posInt 7), .string [97, 0]]
    [.number (.posInt 7), .string [97]] rfl).2.2.1, by decide +kernel⟩

end ZydecoDb
