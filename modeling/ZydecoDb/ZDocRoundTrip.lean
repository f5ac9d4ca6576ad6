import ZydecoDb.Document.ZDocDecode

namespace ZydecoDb

open Lib

namespace ValueView

open ZDocBuilder

theorem getElem_of_lookup {members : List (Bytes × Value)} {key : Bytes} {v : Value}
    (h : members.lookup key = some v) : ∃ i : Nat, members[i]? = some (key, v) := by
  obtain ⟨before, after, heq, -⟩ := List.lookup_eq_some_iff.mp h
  exact ⟨before.length, by simp [heq]⟩

theorem length_le_of_lookup {members : List (Bytes × Value)} {key : Bytes} {v : Value}
    (h : members.lookup key = some v) :
    (key, v) ∈ members ∧ (encodeZDoc v).length ≤ (objectLayout (laidOut members)).length := by
  obtain ⟨i, hi⟩ := getElem_of_lookup h
  exact ⟨List.mem_of_getElem? hi, length_le_objectLayout (laidOut_getElem hi)⟩

theorem objectGet_layout {members : List (Bytes × Value)}
    (hk : ∀ m ∈ members, validUtf8 m.1 = true) (hs : members.Pairwise fun a b => a.1 < b.1)
    (h : (objectLayout (laidOut members)).length < 2 ^ 32) (rest key : Bytes) :
    ∃ tail, objectGet (objectLayout (laidOut members) ++ rest) key =
      (members.lookup key).map (encodeZDoc · ++ tail) := by
  have hcount := objectLen_layout rest h
  have hlength : (laidOut members).length = (members.map Prod.fst).length := by simp [laidOut]
  have hsorted : (members.map Prod.fst).Pairwise (· < ·) := List.pairwise_map.mpr hs
  have hat : ∀ i < (members.map Prod.fst).length,
      (keyOffset (objectLayout (laidOut members) ++ rest) i).bind
        (keyStr (objectLayout (laidOut members) ++ rest)) = (members.map Prod.fst)[i]? := by
    intro i hi
    rw [List.length_map] at hi
    have hget := List.getElem?_eq_getElem hi
    rw [keyAt_layout rest h (laidOut_getElem hget) (hk _ (List.mem_of_getElem? hget)),
      List.getElem?_map, hget]
    rfl
  cases hl : members.lookup key with
  | none =>
    have hout : key ∉ members.map Prod.fst := by
      intro hmem
      obtain ⟨m, hm, rfl⟩ := List.mem_map.mp hmem
      have hne := List.lookup_eq_none_iff.mp hl m hm
      simp at hne
    refine ⟨[], ?_⟩
    rw [objectGet, hcount, Option.bind_some, hlength, searchKey_of_not_mem hat hout]
    rfl
  | some v =>
    obtain ⟨i, hi⟩ := getElem_of_lookup hl
    have hkey : (members.map Prod.fst)[i]? = some key := by
      rw [List.getElem?_map, hi]
      rfl
    obtain ⟨tail, hval⟩ := valAt_layout rest h (laidOut_getElem hi) (encodeZDoc_ne_nil v)
    refine ⟨tail, ?_⟩
    rw [objectGet, hcount, Option.bind_some, hlength, searchKey_of_mem hsorted hat hkey,
      Option.bind_some, ← hlength]
    exact hval

def atSegments : List Bytes → Value → Option Value
  | [], v => some v
  | seg :: segs, .object members => (members.lookup seg).bind (atSegments segs)
  | _ :: _, _ => none

theorem extractSegments_eq (segs : List Bytes) (v : Value) :
    extractSegments segs v = (atSegments segs v).getD .null := by
  induction segs generalizing v with
  | nil => rfl
  | cons seg segs ih =>
    cases v with
    | object members =>
      rw [extractSegments, atSegments]
      cases members.lookup seg with
      | none => rfl
      | some w => exact ih w
    | _ => rfl

theorem atSegments_part {ok : Number → Prop} {segs : List Bytes} {v w : Value} (hv : v.JsonWith ok)
    (h : atSegments segs v = some w) :
    w.JsonWith ok ∧ (encodeZDoc w).length ≤ (encodeZDoc v).length ∧ valueDepth w ≤ valueDepth v := by
  induction segs generalizing v with
  | nil =>
    cases Option.some.inj h
    exact ⟨hv, le_rfl, le_rfl⟩
  | cons seg segs ih =>
    cases hv with
    | @object members hk hs hm =>
      obtain ⟨u, hu, hw⟩ := Option.bind_eq_some_iff.mp h
      obtain ⟨hmem, hsize⟩ := length_le_of_lookup hu
      have hle : valueDepth u ≤ membersDepth members := valueDepth_le_members hmem
      have hstu : u.JsonWith ok := hm _ hmem
      obtain ⟨hst, hlen, hdepth⟩ := ih hstu hw
      rw [encodeZDoc_object hs, valueDepth]
      exact ⟨hst, by omega, by omega⟩
    | _ => simp [atSegments] at h

theorem typeByte_writeNumber (n : Number) (rest : Bytes) :
    typeByte (writeNumber n ++ rest) ≠ typeObject := by
  rw [writeNumber]
  split <;> simp [typeByte, typeI64, typeF64, typeObject]

/-- A path read from the bytes finds the layout of what the path finds in the value. -/
theorem getSegments_encodeZDoc {ok : Number → Prop} {segs : List Bytes} {v : Value}
    (hv : v.JsonWith ok) (hlen : (encodeZDoc v).length < 2 ^ 32) (rest : Bytes) :
    ∃ tail, getSegments segs (encodeZDoc v ++ rest) =
      (atSegments segs v).map (encodeZDoc · ++ tail) := by
  induction segs generalizing v rest with
  | nil => exact ⟨rest, rfl⟩
  | cons seg segs ih =>
    cases hv with
    | null => exact ⟨[], rfl⟩
    | bool b => exact ⟨[], by cases b <;> rfl⟩
    | @number n h =>
      refine ⟨[], ?_⟩
      rw [encodeZDoc, getSegments, if_neg (typeByte_writeNumber n rest)]
      rfl
    | string h => exact ⟨[], rfl⟩
    | array h => exact ⟨[], rfl⟩
    | @object members hk hs h =>
      rw [encodeZDoc_object hs] at hlen ⊢
      obtain ⟨tail, hget⟩ := objectGet_layout hk hs hlen rest seg
      have htag : typeByte (objectLayout (laidOut members) ++ rest) = typeObject := rfl
      rw [getSegments, if_pos htag, hget, atSegments]
      cases hl : members.lookup seg with
      | none => exact ⟨[], rfl⟩
      | some u =>
        obtain ⟨hmem, hsize⟩ := length_le_of_lookup hl
        have hstu : u.JsonWith ok := h _ hmem
        exact ih hstu (by omega) tail

end ValueView

open ZDocBuilder ValueView

/-- Every value whose numbers are signed 64-bit integers or finite doubles, at most 256 levels deep
and shorter than 4 GiB, is read back from its bytes; a member is found by the binary search exactly
when the map has it, and a dotted path leads to the same value in the bytes as in the value. -/
theorem zdoc_round_trip (v : Value) (hv : v.Storable) (hd : valueDepth v ≤ maxZdocDepth)
    (hlen : (fromValue v).length < 2 ^ 32) :
    toValue (fromValue v) = .ok v ∧
    (∀ members key, v = .object members →
      (objectGet (fromValue v) key).map toValue = (members.lookup key).map .ok) ∧
    ∀ path, (getPath (fromValue v) path).map toValue =
        (atSegments (path.splitOn 0x2E) v).map .ok ∧
      extractPath v path = (atSegments (path.splitOn 0x2E) v).getD .null := by
  rw [fromValue_eq] at hlen ⊢
  have hback : ∀ {w : Value} (segs : List Bytes) (tail : Bytes), atSegments segs v = some w →
      toValue (encodeZDoc w ++ tail) = .ok w := by
    intro w segs tail hw
    obtain ⟨hst, hsize, hdepth⟩ := atSegments_part hv hw
    exact toValueAtDepth_encodeZDoc hst (by omega) (by omega) tail
  refine ⟨?_, ?_, fun path => ⟨?_, extractSegments_eq _ v⟩⟩
  · have hself := hback [] [] rfl
    rwa [List.append_nil] at hself
  · intro members key heq
    subst heq
    cases hv with
    | object hk hs h =>
      rw [encodeZDoc_object hs] at hlen ⊢
      obtain ⟨tail, hget⟩ := objectGet_layout hk hs hlen [] key
      rw [List.append_nil] at hget
      rw [hget]
      cases hl : members.lookup key with
      | none => rfl
      | some w =>
        have hw : atSegments [key] (.object members) = some w := by
          rw [atSegments, hl]
          rfl
        exact congrArg some (hback [key] tail hw)
  · rw [getPath]
    generalize path.splitOn 0x2E = segs
    obtain ⟨tail, hget⟩ := getSegments_encodeZDoc hv hlen []
    rw [List.append_nil] at hget
    rw [hget]
    cases hl : atSegments segs v with
    | none => rfl
    | some w => exact congrArg some (hback _ tail hl)

def nestedDoc : Value :=
  .object [([0x61], .object [([0x62], .number (.negInt (-5)))]),
    ([0x63], .array [.number (.posInt 7), .number (.float 0x3FF8000000000000), .null]),
    ([0x64], .string [0xC3, 0xA9])]

theorem nestedDoc_storable : nestedDoc.Storable := by
  refine .object (by decide) (by decide) ?_
  simp only [List.mem_cons, List.not_mem_nil, or_false, forall_eq_or_imp, forall_eq]
  refine ⟨.object (by decide) (by decide) ?_, .array ?_, .string (by decide)⟩
  · simp only [List.mem_cons, List.not_mem_nil, or_false, forall_eq]
    exact .number (show (-5 : Int64) < 0 by decide)
  · simp only [List.mem_cons, List.not_mem_nil, or_false, forall_eq_or_imp, forall_eq]
    refine ⟨.number ?_, .number ?_, .null⟩
    · show (7 : UInt64).toNat < 2 ^ 63
      decide
    · show f64IsFinite 0x3FF8000000000000 = true
      decide

/-- A nested member and one that is not there, read from the bytes. -/
theorem zdoc_round_trip_nestedDoc :
    toValue (fromValue nestedDoc) = .ok nestedDoc ∧
    (objectGet (fromValue nestedDoc) [0x65]).map toValue = none ∧
    (getPath (fromValue nestedDoc) [0x61, 0x2E, 0x62]).map toValue =
      some (.ok (.number (.negInt (-5)))) := by
  obtain ⟨hback, hget, hpath⟩ := zdoc_round_trip nestedDoc nestedDoc_storable
    (by decide +kernel) (by decide +kernel)
  exact ⟨hback, hget _ [0x65] rfl, (hpath [0x61, 0x2E, 0x62]).1⟩

end ZydecoDb
