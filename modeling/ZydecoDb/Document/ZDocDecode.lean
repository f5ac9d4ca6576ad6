import ZydecoDb.Document.ZDocRead

namespace ZydecoDb

open Lib

namespace ValueView

open ZDocBuilder

theorem toInt64_nonneg {n : UInt64} (h : n.toNat < 2 ^ 63) : ¬ n.toInt64 < 0 := by
  have hzero : (0 : Int64).toInt = 0 := rfl
  have hint : n.toInt64.toInt = n.toBitVec.toInt := rfl
  have hnat : n.toBitVec.toNat = n.toNat := rfl
  rw [Int64.lt_iff_toInt_lt, hzero, hint, BitVec.toInt_eq_toNat_cond, hnat]
  split <;> omega

theorem readLe_eight (tag : UInt8) (n : UInt64) (rest : Bytes) :
    readLe 8 (tag :: (toLe 8 n.toNat ++ rest)) 1 = some n.toNat :=
  readLe_append (a := [tag]) (b := rest) rfl rfl n.toNat_lt

theorem asI64_layout (i : Int64) (rest : Bytes) :
    asI64 (typeI64 :: toLe 8 i.toUInt64.toNat ++ rest) = some i := by
  rw [List.cons_append, asI64, readLe_eight, Option.map_some, UInt64.ofNat_toNat,
    Int64.toInt64_toUInt64]
  rfl

theorem asF64_layout (bits : UInt64) (rest : Bytes) :
    asF64 (typeF64 :: toLe 8 bits.toNat ++ rest) = some bits := by
  rw [List.cons_append, asF64, readLe_eight, Option.map_some, UInt64.ofNat_toNat]
  rfl

theorem toValueAtDepth_i64 (levels : Nat) (i : Int64) (rest : Bytes) :
    toValueAtDepth (levels + 1) (typeI64 :: toLe 8 i.toUInt64.toNat ++ rest) =
      .ok (.number (.ofI64 i)) := by
  have htag : typeByte (typeI64 :: toLe 8 i.toUInt64.toNat ++ rest) = typeI64 := rfl
  simp only [toValueAtDepth, htag, asI64_layout]
  rfl

theorem writeNumber_cases {n : Number} (h : n.Exact) :
    (∃ i : Int64, writeNumber n = typeI64 :: toLe 8 i.toUInt64.toNat ∧ Number.ofI64 i = n) ∨
    ∃ bits, n = .float bits ∧ Number.fromF64 bits = some n ∧
      writeNumber n = typeF64 :: toLe 8 bits.toNat := by
  cases n with
  | posInt n =>
    have hi : (Number.posInt n).asI64 = some n.toInt64 := if_pos h
    refine Or.inl ⟨n.toInt64, ?_, ?_⟩
    · rw [writeNumber, hi]
    · rw [Number.ofI64, if_neg (toInt64_nonneg h), UInt64.toUInt64_toInt64]
  | negInt n =>
    have hneg : n < 0 := h
    exact Or.inl ⟨n, rfl, if_pos hneg⟩
  | float bits => exact Or.inr ⟨bits, rfl, if_pos h, rfl⟩

theorem toValueAtDepth_number {n : Number} (h : n.Exact) (levels : Nat) (rest : Bytes) :
    toValueAtDepth (levels + 1) (writeNumber n ++ rest) = .ok (.number n) := by
  rcases writeNumber_cases h with ⟨i, hw, hi⟩ | ⟨bits, -, hfin, hw⟩
  · rw [hw, toValueAtDepth_i64, hi]
  · have htag : typeByte (typeF64 :: toLe 8 bits.toNat ++ rest) = typeF64 := rfl
    rw [hw]
    simp only [toValueAtDepth, htag, asF64_layout, hfin]
    rfl

theorem asStr_layout {s : Bytes} (h : validUtf8 s = true) (hlen : s.length < 2 ^ 32) (rest : Bytes) :
    asStr (typeString :: (toLe 4 s.length ++ s) ++ rest) = some s := by
  have htag : typeByte (typeString :: (toLe 4 s.length ++ s) ++ rest) = typeString := rfl
  have hread : readU32 (typeString :: (toLe 4 s.length ++ s) ++ rest) 1 = some s.length :=
    readLe_append (a := [typeString]) (b := s ++ rest) (by simp) rfl (by omega)
  rw [asStr, if_neg (not_not.mpr htag), hread, Option.bind_some]
  exact utf8Slice_append (a := typeString :: toLe 4 s.length) (b := rest) (by simp) (by simp)
    (by simp) h

theorem toValueAtDepth_string {s : Bytes} (h : validUtf8 s = true) (hlen : s.length < 2 ^ 32)
    (levels : Nat) (rest : Bytes) :
    toValueAtDepth (levels + 1) (typeString :: (toLe 4 s.length ++ s) ++ rest) =
      .ok (.string s) := by
  have htag : typeByte (typeString :: (toLe 4 s.length ++ s) ++ rest) = typeString := rfl
  simp only [toValueAtDepth, htag, asStr_layout h hlen]
  rfl

theorem readEntries_eq_ok {α : Type} {read : Nat → DocResult α} {l : List α} {i : Nat}
    (h : ∀ j a, l[j]? = some a → read (i + j) = .ok a) : readEntries read l.length i = .ok l := by
  induction l generalizing i with
  | nil => rfl
  | cons a l ih =>
    have hhead := h 0 a rfl
    have htail : readEntries read l.length (i + 1) = .ok l := by
      refine ih fun j b hj => ?_
      have hnext := h (j + 1) b hj
      rwa [show i + 1 + j = i + (j + 1) by omega]
    rw [List.length_cons, readEntries, show read i = .ok a from hhead]
    show Except.map _ (readEntries read l.length (i + 1)) = _
    rw [htail]
    rfl

theorem foldl_insertPair {l seen : List (Bytes × Value)}
    (h : (seen ++ l).Pairwise fun a b => a.1 < b.1) :
    l.foldl (fun map p => insertPair p.1 p.2 map) seen = seen ++ l := by
  have hlast : ∀ (seen : List (Bytes × Value)) (p : Bytes × Value), (∀ q ∈ seen, q.1 < p.1) →
      insertPair p.1 p.2 seen = seen ++ [p] := by
    intro seen p hp
    induction seen with
    | nil => rfl
    | cons q seen ih =>
      have hq := hp q List.mem_cons_self
      rw [insertPair, if_neg (lt_asymm hq), if_neg hq.ne', ih fun r hr => hp r
        (List.mem_cons_of_mem _ hr)]
      rfl
  induction l generalizing seen with
  | nil => simp
  | cons p l ih =>
    have hp : ∀ q ∈ seen, q.1 < p.1 := fun q hq =>
      (List.pairwise_append.mp h).2.2 q hq p List.mem_cons_self
    rw [List.foldl_cons, hlast seen p hp, ih (by simpa using h)]
    simp

theorem encodeZDoc_ne_nil (v : Value) : encodeZDoc v ≠ [] := by
  cases v with
  | number n =>
    rw [encodeZDoc, writeNumber]
    split <;> simp
  | _ => simp [encodeZDoc, arrayLayout, objectLayout]

theorem valueDepth_pos (v : Value) : 1 ≤ valueDepth v := by
  cases v <;> simp [valueDepth]

theorem valueDepth_le_items {items : List Value} {v : Value} (h : v ∈ items) :
    valueDepth v ≤ itemsDepth items := by
  induction items with
  | nil => simp at h
  | cons w items ih =>
    rw [itemsDepth]
    rcases List.mem_cons.mp h with rfl | h
    · exact le_max_left _ _
    · exact (ih h).trans (le_max_right _ _)

variable {members : List (Bytes × Value)} {m : Bytes × Value}

theorem valueDepth_le_members (h : m ∈ members) : valueDepth m.2 ≤ membersDepth members := by
  induction members with
  | nil => simp at h
  | cons n members ih =>
    rw [membersDepth]
    rcases List.mem_cons.mp h with rfl | h
    · exact le_max_left _ _
    · exact (ih h).trans (le_max_right _ _)

theorem length_le_arrayLayout {bs : List Bytes} {i : Nat} {b : Bytes} (h : bs[i]? = some b) :
    b.length ≤ (arrayLayout bs).length := by
  rw [arrayLayout_eq, flatten_split h]
  simp only [List.length_append]
  omega

theorem length_le_objectLayout {ms : List (Bytes × Bytes)} {i : Nat} {m : Bytes × Bytes}
    (h : ms[i]? = some m) : m.2.length ≤ (objectLayout ms).length := by
  obtain ⟨a, c, hdata, -⟩ := objectLayout_split h
  simp only [hdata, List.length_append]
  omega

def laidOut (members : List (Bytes × Value)) : List (Bytes × Bytes) :=
  members.map fun m => (m.1, encodeZDoc m.2)

theorem encodeZDoc_object (hs : members.Pairwise fun a b => a.1 < b.1) :
    encodeZDoc (.object members) = objectLayout (laidOut members) := by
  rw [encodeZDoc, encodeMembers_eq, List.Pairwise.insertionSort_eq]
  · rfl
  · rw [List.pairwise_map]
    exact hs.imp fun h => h.le

theorem laidOut_getElem {i : Nat} (h : members[i]? = some m) :
    (laidOut members)[i]? = some (m.1, encodeZDoc m.2) := by
  rw [laidOut, List.getElem?_map, h]
  rfl

theorem getAt_layout (rest : Bytes) (h : (objectLayout (laidOut members)).length < 2 ^ 32) {i : Nat}
    (hi : members[i]? = some m) (hk : validUtf8 m.1 = true) :
    ∃ tail, getAt (objectLayout (laidOut members) ++ rest) i =
      some (m.1, encodeZDoc m.2 ++ tail) := by
  have hi' := laidOut_getElem hi
  obtain ⟨hlt, -⟩ := List.getElem?_eq_some_iff.mp hi'
  obtain ⟨tail, hval⟩ := valAt_layout rest h hi' (encodeZDoc_ne_nil m.2)
  refine ⟨tail, ?_⟩
  rw [getAt, objectLen_layout rest h, Option.bind_some, if_neg (by omega),
    keyAt_layout rest h hi' hk, Option.bind_some, hval]
  rfl

/-- What is written is read back, whatever follows it in the buffer. The induction is on the levels
the reader has left, which every container lowers by one. -/
theorem toValueAtDepth_encodeZDoc {levels : Nat} {v : Value} (hv : v.Storable)
    (hd : valueDepth v ≤ levels) (hlen : (encodeZDoc v).length < 2 ^ 32) (rest : Bytes) :
    toValueAtDepth levels (encodeZDoc v ++ rest) = .ok v := by
  induction levels generalizing v rest with
  | zero =>
    have hpos := valueDepth_pos v
    omega
  | succ levels ih =>
    cases hv with
    | null => rfl
    | bool b => cases b <;> rfl
    | number h => exact toValueAtDepth_number h levels rest
    | @string s h =>
      rw [encodeZDoc, List.length_cons, List.length_append] at hlen
      exact toValueAtDepth_string h (by omega) levels rest
    | @array items h =>
      rw [encodeZDoc, encodeItems_eq] at hlen ⊢
      rw [valueDepth] at hd
      have htag : typeByte (arrayLayout (items.map encodeZDoc) ++ rest) = typeArray := rfl
      have hcount := arrayLen_layout rest hlen
      rw [List.length_map] at hcount
      simp only [toValueAtDepth, htag, hcount]
      show Except.map Value.array (readEntries _ items.length 0) = _
      rw [readEntries_eq_ok (l := items)]
      · rfl
      · intro j w hj
        have hj' : (items.map encodeZDoc)[j]? = some (encodeZDoc w) := by
          rw [List.getElem?_map, hj]
          rfl
        obtain ⟨tail, hget⟩ := arrayGet_layout rest hlen hj' (encodeZDoc_ne_nil w)
        have hw := List.mem_of_getElem? hj
        have hdepth := valueDepth_le_items hw
        have hsize := length_le_arrayLayout hj'
        simp only [Nat.zero_add, hget]
        exact ih (h w hw) (by omega) (by omega) tail
    | @object members hk hs h =>
      rw [encodeZDoc_object hs] at hlen ⊢
      rw [valueDepth] at hd
      have htag : typeByte (objectLayout (laidOut members) ++ rest) = typeObject := rfl
      have hcount := objectLen_layout rest hlen
      rw [laidOut, List.length_map, ← laidOut] at hcount
      have hmap : members.foldl (fun map p => insertPair p.1 p.2 map) [] = [] ++ members :=
        foldl_insertPair hs
      simp only [toValueAtDepth, htag, hcount]
      show Except.map _ (readEntries _ members.length 0) = _
      rw [readEntries_eq_ok (l := members)]
      · show Except.ok (Value.object _) = _
        rw [hmap]
        rfl
      · intro j m hj
        have hm := List.mem_of_getElem? hj
        obtain ⟨tail, hget⟩ := getAt_layout rest hlen hj (hk m hm)
        have hdepth := valueDepth_le_members hm
        have hsize : (encodeZDoc m.2).length ≤ (objectLayout (laidOut members)).length :=
          length_le_objectLayout (laidOut_getElem hj)
        have hvalue := ih (h m hm) (by omega) (by omega) tail
        simp only [Nat.zero_add, hget, hvalue]
        rfl

end ValueView

end ZydecoDb
