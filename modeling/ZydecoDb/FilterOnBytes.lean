import ZydecoDb.Document.FilterSemantics

namespace ZydecoDb

open Lib ZDocBuilder ValueView

theorem Value.cmpScalar_eq (a b : Value) : a.cmpScalar b =
    if a.isScalar && b.isScalar then a.indexValue.scalarCmp b.indexValue else none := by
  cases a <;> cases b <;> rfl

theorem cmpScalarView_eq {w : Value} (hw : w.Parsed) (hlen : (encodeZDoc w).length < 2 ^ 32)
    (b : Value) (tail : Bytes) : cmpScalarView (encodeZDoc w ++ tail) b = w.cmpScalar b := by
  rw [Value.cmpScalar_eq]
  cases hb : b.isScalar with
  | true =>
    rw [cmpScalarView_jsonWith (fun _ h => asF64_number h) hw hlen hb, Bool.and_true]
  | false =>
    unfold cmpScalarView
    rw [hb, Bool.and_false]
    rfl

structure ReadsItems (data : ValueView) (items : List Value) : Prop where
  count : arrayLen data = some items.length
  item : ∀ i w, items[i]? = some w →
    w.Parsed ∧ (encodeZDoc w).length < 2 ^ 32 ∧ ∃ tail, arrayGet data i = some (encodeZDoc w ++ tail)
  past : ∀ i, items.length ≤ i → arrayGet data i = none

theorem readsItems_encodeZDoc {items : List Value} (hv : (Value.array items).Parsed)
    (hlen : (encodeZDoc (.array items)).length < 2 ^ 32) (rest : Bytes) :
    ReadsItems (encodeZDoc (.array items) ++ rest) items := by
  rw [encodeZDoc, encodeItems_eq] at hlen ⊢
  have hcount := arrayLen_layout rest hlen
  rw [List.length_map] at hcount
  refine ⟨hcount, fun i w hi => ?_, fun i hi => ?_⟩
  · have hi' : (items.map encodeZDoc)[i]? = some (encodeZDoc w) := by
      rw [List.getElem?_map, hi]
      rfl
    have hsize := length_le_arrayLayout hi'
    cases hv with
    | array h =>
      refine ⟨h w (List.mem_of_getElem? hi), by omega, ?_⟩
      exact arrayGet_layout rest hlen hi' (encodeZDoc_ne_nil w)
  · rw [arrayGet, hcount, Option.bind_some, if_pos hi]

structure ReadsMembers (data : ValueView) (members : List (Bytes × Value)) : Prop where
  count : objectLen data = some members.length
  member : ∀ i m, members[i]? = some m → m.2.Parsed ∧ (encodeZDoc m.2).length < 2 ^ 32 ∧
    ∃ tail, getAt data i = some (m.1, encodeZDoc m.2 ++ tail)

theorem readsMembers_encodeZDoc {members : List (Bytes × Value)}
    (hv : (Value.object members).Parsed) (hlen : (encodeZDoc (.object members)).length < 2 ^ 32)
    (rest : Bytes) : ReadsMembers (encodeZDoc (.object members) ++ rest) members := by
  cases hv with
  | object hk hs h =>
    rw [encodeZDoc_object hs] at hlen ⊢
    have hcount := objectLen_layout rest hlen
    rw [laidOut, List.length_map, ← laidOut] at hcount
    refine ⟨hcount, fun i m hi => ?_⟩
    have hm := List.mem_of_getElem? hi
    have hsize : (encodeZDoc m.2).length ≤ (objectLayout (laidOut members)).length :=
      length_le_objectLayout (laidOut_getElem hi)
    exact ⟨h m hm, by omega, getAt_layout rest hlen hi (hk m hm)⟩

theorem all_range_eq {α : Type} {l : List α} {p : Nat → Bool} {q : α → Bool}
    (h : ∀ i a, l[i]? = some a → p i = q a) : (List.range l.length).all p = l.all q := by
  rw [Bool.eq_iff_iff, List.all_eq_true, List.all_eq_true]
  constructor
  · intro hp a ha
    obtain ⟨i, hi⟩ := List.mem_iff_getElem?.mp ha
    have hlt := (List.getElem?_eq_some_iff.mp hi).1
    rw [← h i a hi]
    exact hp i (List.mem_range.mpr hlt)
  · intro hq i hi
    have hget := List.getElem?_eq_getElem (List.mem_range.mp hi)
    rw [h i _ hget]
    exact hq _ (List.mem_of_getElem? hget)

theorem any_elements_eq {data : ValueView} {items : List Value} (hr : ReadsItems data items)
    {p : ValueView → Bool} {q : Value → Bool}
    (h : ∀ w tail, w.Parsed → (encodeZDoc w).length < 2 ^ 32 → p (encodeZDoc w ++ tail) = q w) :
    (elements data).any p = items.any q := by
  rw [Bool.eq_iff_iff, List.any_eq_true, List.any_eq_true, elements, hr.count, Option.getD_some]
  constructor
  · rintro ⟨e, he, hp⟩
    obtain ⟨i, hi, hget⟩ := List.mem_filterMap.mp he
    have hw := List.getElem?_eq_getElem (List.mem_range.mp hi)
    obtain ⟨hparsed, hlen, tail, htail⟩ := hr.item i _ hw
    rw [hget] at htail
    cases Option.some.inj htail
    rw [h _ tail hparsed hlen] at hp
    exact ⟨_, List.mem_of_getElem? hw, hp⟩
  · rintro ⟨w, hw, hq⟩
    obtain ⟨i, hi⟩ := List.mem_iff_getElem?.mp hw
    obtain ⟨hparsed, hlen, tail, htail⟩ := hr.item i w hi
    have hlt := (List.getElem?_eq_some_iff.mp hi).1
    refine ⟨_, List.mem_filterMap.mpr ⟨i, List.mem_range.mpr hlt, htail⟩, ?_⟩
    rw [h w tail hparsed hlen]
    exact hq

mutual

theorem valueEqView_eq : ∀ (b : Value) {w : Value}, w.Parsed → (encodeZDoc w).length < 2 ^ 32 →
    ∀ tail, valueEqView (encodeZDoc w ++ tail) b = w.same b
  | .array items, w, hw, hlen, tail => by
    rw [valueEqView, Value.same.eq_def]
    cases w with
    | array xs =>
      have hr := readsItems_encodeZDoc hw hlen tail
      have htag : typeByte (encodeZDoc (.array xs) ++ tail) = typeArray := rfl
      have hitems := itemsEqView_eq items hr 0
      simp only [htag, hr.count, hitems, List.drop_zero, decide_true, Bool.true_and]
    | number n =>
      rcases typeByte_number n tail with htag | htag <;> simp only [htag] <;> rfl
    | bool x => cases x <;> rfl
    | _ => rfl
  | .object members, w, hw, hlen, tail => by
    rw [valueEqView, Value.same.eq_def]
    cases w with
    | object ms =>
      have hr := readsMembers_encodeZDoc hw hlen tail
      have htag : typeByte (encodeZDoc (.object ms) ++ tail) = typeObject := rfl
      simp only [htag, hr.count, decide_true, Bool.true_and]
      congr 1
      refine all_range_eq fun i m hi => ?_
      obtain ⟨hparsed, hsize, rest, hget⟩ := hr.member i m hi
      rw [hget]
      exact memberEqView_eq m.1 members hparsed hsize rest
    | number n =>
      rcases typeByte_number n tail with htag | htag <;> simp only [htag] <;> rfl
    | bool x => cases x <;> rfl
    | _ => rfl
  | .null, w, hw, hlen, tail => by
    rw [valueEqView, Value.same.eq_def, cmpScalarView_eq hw hlen]
  | .bool b, w, hw, hlen, tail => by
    rw [valueEqView, Value.same.eq_def, cmpScalarView_eq hw hlen]
  | .number n, w, hw, hlen, tail => by
    rw [valueEqView, Value.same.eq_def, cmpScalarView_eq hw hlen]
  | .string s, w, hw, hlen, tail => by
    rw [valueEqView, Value.same.eq_def, cmpScalarView_eq hw hlen]

theorem itemsEqView_eq : ∀ (items : List Value) {data : ValueView} {xs : List Value},
    ReadsItems data xs → ∀ i, itemsEqView data i items = itemsSame (xs.drop i) items
  | [], _, xs, _, i => by
    rw [itemsEqView]
    cases xs.drop i <;> rfl
  | b :: items, data, xs, hr, i => by
    rw [itemsEqView]
    cases hi : xs[i]? with
    | none =>
      have hlen := List.getElem?_eq_none_iff.mp hi
      rw [hr.past i hlen, List.drop_eq_nil_of_le hlen]
      rfl
    | some w =>
      obtain ⟨hparsed, hsize, tail, hget⟩ := hr.item i w hi
      obtain ⟨hlt, hw⟩ := List.getElem?_eq_some_iff.mp hi
      rw [hget, List.drop_eq_getElem_cons hlt, hw, itemsSame, itemsEqView_eq items hr (i + 1)]
      simp only [valueEqView_eq b hparsed hsize tail]

theorem memberEqView_eq (k : Bytes) : ∀ (members : List (Bytes × Value)) {v : Value}, v.Parsed →
    (encodeZDoc v).length < 2 ^ 32 → ∀ tail,
      memberEqView k (encodeZDoc v ++ tail) members = memberSame k v members
  | [], _, _, _, _ => rfl
  | (key, b) :: members, v, hv, hlen, tail => by
    rw [memberEqView, memberSame, valueEqView_eq b hv hlen tail, memberEqView_eq k members hv hlen tail]

end

inductive FieldView : Option ValueView → Option Value → Prop
  | missing : FieldView none none
  | found {w : Value} (hw : w.Parsed) (hlen : (encodeZDoc w).length < 2 ^ 32) (tail : Bytes) :
      FieldView (some (encodeZDoc w ++ tail)) (some w)

theorem fieldView_getPath {v : Value} (hv : v.Parsed) (hlen : (encodeZDoc v).length < 2 ^ 32)
    (rest path : Bytes) :
    FieldView (getPath (encodeZDoc v ++ rest) path) (atSegments (path.splitOn 0x2E) v) := by
  rw [getPath]
  generalize path.splitOn 0x2E = segs
  obtain ⟨tail, hget⟩ : ∃ tail, getSegments segs (encodeZDoc v ++ rest) =
      (atSegments segs v).map (encodeZDoc · ++ tail) := getSegments_encodeZDoc hv hlen rest
  rw [hget]
  cases hl : atSegments segs v with
  | none => exact .missing
  | some w =>
    obtain ⟨hw, hsize, -⟩ := atSegments_part hv hl
    exact .found hw (by omega) tail

section Fields

variable {fv : Option ValueView} {fw : Option Value}

section

variable (h : FieldView fv fw)
include h

theorem FieldView.eqMatch (target : Value) : ValueView.eqMatch fv target = sameField fw target := by
  cases h with
  | missing => rfl
  | found hw hlen tail => exact valueEqView_eq target hw hlen tail

theorem FieldView.orderingMatch (target : Value) (accept : List Ordering) :
    ValueView.orderingMatch fv target accept = orderedField fw target accept := by
  cases h with
  | missing => rfl
  | @found w hw hlen tail =>
    have hcmp := cmpScalarView_eq hw hlen target tail
    cases hc : w.cmpScalar target <;> simp [ValueView.orderingMatch, orderedField, hcmp, hc]

theorem FieldView.typeMatch (name : TypeName) :
    ValueView.typeMatch fv name = decide (fw.map Value.typeName = some name) := by
  cases h with
  | missing => rfl
  | @found w hw hlen tail =>
    cases w with
    | number n =>
      rcases typeByte_number n tail with htag | htag <;> cases name <;>
        simp only [ValueView.typeMatch, htag] <;> rfl
    | bool b => cases b <;> cases name <;> rfl
    | _ => cases name <;> rfl

theorem FieldView.asArray :
    (∃ items data, fw.bind Value.items = some items ∧ fv.bind ValueView.asArray = some data ∧
      ReadsItems data items) ∨
    (fw.bind Value.items = none ∧ fv.bind ValueView.asArray = none) := by
  cases h with
  | missing => exact Or.inr ⟨rfl, rfl⟩
  | @found w hw hlen tail =>
    cases w with
    | array items => exact Or.inl ⟨items, _, rfl, rfl, readsItems_encodeZDoc hw hlen tail⟩
    | number n =>
      refine Or.inr ⟨rfl, ?_⟩
      rcases typeByte_number n tail with htag | htag <;>
        simp only [Option.bind_some, ValueView.asArray, htag] <;> rfl
    | bool b => exact Or.inr ⟨rfl, by cases b <;> rfl⟩
    | _ => exact Or.inr ⟨rfl, rfl⟩

theorem FieldView.asStr : fv.bind ValueView.asStr = fw.bind Value.text := by
  cases h with
  | missing => rfl
  | @found w hw hlen tail =>
    cases hw with
    | @string s hs =>
      rw [encodeZDoc, List.length_cons, List.length_append] at hlen
      rw [Option.bind_some, Option.bind_some, Value.text, encodeZDoc, asStr_layout hs (by omega)]
    | @number n h =>
      rcases typeByte_number n tail with htag | htag <;>
        simp only [Option.bind_some, ValueView.asStr, htag] <;> rfl
    | bool b => cases b <;> rfl
    | _ => rfl

end

end Fields

theorem same_string (s : Bytes) (target : Value) : (Value.string s).same target = strEq s target := by
  cases target with
  | string t =>
    have hcmp : (Value.string s).same (.string t) = decide (some (byteCmp s t) = some .eq) := rfl
    have hiff : some (byteCmp s t) = some .eq ↔ t = s := by
      rw [Option.some_inj, byteCmp_eq_eq]
      exact eq_comm
    rw [hcmp, strEq]
    exact decide_eq_decide.mpr hiff
  | _ => rfl

theorem ordered_string (s : Bytes) (target : Value) (accept : List Ordering) :
    orderedField (some (.string s)) target accept = strOrdering s target accept := by
  cases target <;> rfl

theorem validUtf8_chunk {b0 : UInt8} {rest : Bytes} {n : Nat} (h : utf8Chunk b0 rest = (n, true))
    (tail : Bytes) : validUtf8 ((b0 :: rest).take n ++ tail) = validUtf8 tail := by
  have hzero : utf8Continues 0 = false := by decide
  have hlead3 : utf8Lead3 b0 0 = false := by simp [utf8Lead3, utf8Continues]
  have hlead4 : utf8Lead4 b0 0 = false := by simp [utf8Lead4, utf8Continues]
  rw [utf8Chunk] at h
  split at h
  next h0 =>
    cases h
    rw [List.take_succ_cons, List.take_zero, List.cons_append, List.nil_append, validUtf8.eq_def]
    exact if_pos h0
  next h0 =>
    split at h
    next h2 =>
      match rest with
      | [] => simp [hzero] at h
      | b1 :: rest =>
        cases hc : utf8Continues b1 with
        | false => simp [hc] at h
        | true =>
          have hn : n = 2 := by simpa [hc] using h.symm
          rw [hn, List.take_succ_cons, List.take_succ_cons, List.take_zero, List.cons_append,
            List.cons_append, List.nil_append, validUtf8.eq_def]
          simp only [h0, h2, hc, if_true, if_false, Bool.true_and]
    next h2 =>
      split at h
      next h3 =>
        match rest with
        | [] => simp [hlead3] at h3
        | [b1] => simp [hzero] at h
        | b1 :: b2 :: rest =>
          cases hc : utf8Continues b2 with
          | false => simp [hc] at h
          | true =>
            have hn : n = 3 := by simpa [hc] using h.symm
            rw [List.headD_cons] at h3
            rw [hn, List.take_succ_cons, List.take_succ_cons, List.take_succ_cons, List.take_zero,
              List.cons_append, List.cons_append, List.cons_append, List.nil_append,
              validUtf8.eq_def]
            simp only [h0, h2, h3, hc, if_true, if_false, Bool.true_and]
            rfl
      next h3 =>
        split at h
        next h4 =>
          match rest with
          | [] => simp [hlead4] at h4
          | [b1] => simp [hzero] at h
          | [b1, b2] => cases hc : utf8Continues b2 <;> simp [hzero, hc] at h
          | b1 :: b2 :: b3 :: rest =>
            cases hc : utf8Continues b2 with
            | false => simp [hc] at h
            | true =>
              cases hc' : utf8Continues b3 with
              | false => simp [hc, hc'] at h
              | true =>
                have hn : n = 4 := by simpa [hc, hc'] using h.symm
                rw [List.headD_cons] at h3 h4
                rw [hn, List.take_succ_cons, List.take_succ_cons, List.take_succ_cons,
                  List.take_succ_cons, List.take_zero, List.cons_append, List.cons_append,
                  List.cons_append, List.cons_append, List.nil_append, validUtf8.eq_def]
                simp only [h0, h2, h3, h4, hc, hc', if_false, Bool.true_and]
                rfl
        next => cases h

theorem validUtf8_utf8Lossy (bytes : Bytes) : validUtf8 (utf8Lossy bytes) = true := by
  have hloop : ∀ fuel bytes, validUtf8 (utf8LossyLoop fuel bytes) = true := by
    intro fuel
    induction fuel with
    | zero => exact fun _ => rfl
    | succ fuel ih =>
      intro bytes
      cases bytes with
      | nil => rfl
      | cons b0 rest =>
        rw [utf8LossyLoop]
        cases hchunk : (utf8Chunk b0 rest).2 with
        | true =>
          have hchar : utf8Chunk b0 rest = ((utf8Chunk b0 rest).1, true) := Prod.ext rfl hchunk
          rw [if_pos rfl, validUtf8_chunk hchar]
          exact ih _
        | false =>
          have hchar : utf8Chunk 0xEF [0xBF, 0xBD] = (3, true) := by decide
          have hrest := validUtf8_chunk hchar
            (utf8LossyLoop fuel ((b0 :: rest).drop (utf8Chunk b0 rest).1))
          exact hrest.trans (ih _)
  exact hloop _ _

section Ids

variable (isMatch : Bytes → Bool → Bytes → Bool)

theorem matchesStr_eq (s : Bytes) (a : Atom) :
    a.matchesStr isMatch s = a.holds isMatch (some (.string s)) := by
  have hsame : sameField (some (.string s)) = strEq s := funext (same_string s)
  cases a with
  | eq target | ne target | isIn list | nin list => rw [Atom.matchesStr, Atom.holds, hsame]
  | gt target | gte target | lt target | lte target =>
    rw [Atom.matchesStr, Atom.holds, ordered_string]
  | fieldExists want => cases want <;> rfl
  | type name => cases name <;> rfl
  | all operands | elemMatch sub | regex pattern caseInsensitive => rfl

theorem all_matchesStr (s : Bytes) (atoms : List Atom) :
    atoms.all (Atom.matchesStr isMatch s) = atomsHold isMatch atoms (some (.string s)) := by
  induction atoms with
  | nil => rfl
  | cons a atoms ih => rw [List.all_cons, ih, matchesStr_eq, atomsHold]

mutual

theorem Filter.matches_eq : ∀ (f : Filter) {v : Value}, v.Parsed →
    (encodeZDoc v).length < 2 ^ 32 → ∀ rest docId,
      f.matches isMatch (encodeZDoc v ++ rest) docId = f.holds isMatch v docId
  | .matchAll, _, _, _, _, _ => rfl
  | .and fs, _, hv, hlen, rest, docId => by
    rw [Filter.matches, Filter.holds, allMatch_eq fs hv hlen rest docId]
  | .or fs, _, hv, hlen, rest, docId => by
    rw [Filter.matches, Filter.holds, anyMatch_eq fs hv hlen rest docId]
  | .not f, _, hv, hlen, rest, docId => by
    rw [Filter.matches, Filter.holds, f.matches_eq hv hlen rest docId]
  | .field path atoms, _, hv, hlen, rest, docId => by
    have hfield := atomsMatch_eq atoms (fieldView_getPath hv hlen rest path)
    cases docId with
    | none => rw [Filter.matches, Filter.holds, hfield]
    | some id => rw [Filter.matches, Filter.holds, hfield, all_matchesStr]

theorem allMatch_eq : ∀ (fs : List Filter) {v : Value}, v.Parsed →
    (encodeZDoc v).length < 2 ^ 32 → ∀ rest docId,
      allMatch isMatch fs (encodeZDoc v ++ rest) docId = allHold isMatch fs v docId
  | [], _, _, _, _, _ => rfl
  | f :: fs, _, hv, hlen, rest, docId => by
    rw [allMatch, allHold, f.matches_eq hv hlen rest docId, allMatch_eq fs hv hlen rest docId]

theorem anyMatch_eq : ∀ (fs : List Filter) {v : Value}, v.Parsed →
    (encodeZDoc v).length < 2 ^ 32 → ∀ rest docId,
      anyMatch isMatch fs (encodeZDoc v ++ rest) docId = anyHold isMatch fs v docId
  | [], _, _, _, _, _ => rfl
  | f :: fs, _, hv, hlen, rest, docId => by
    rw [anyMatch, anyHold, f.matches_eq hv hlen rest docId, anyMatch_eq fs hv hlen rest docId]

/-- An operator on a stored field decides as on the field's value. -/
theorem Atom.matches_eq : ∀ (a : Atom) {fv : Option ValueView} {fw : Option Value},
    FieldView fv fw → a.matches isMatch fv = a.holds isMatch fw
  | .eq target, _, _, h => by rw [Atom.matches, Atom.holds, h.eqMatch]
  | .ne target, _, _, h => by rw [Atom.matches, Atom.holds, h.eqMatch]
  | .gt target, _, _, h => by rw [Atom.matches, Atom.holds, h.orderingMatch]
  | .gte target, _, _, h => by rw [Atom.matches, Atom.holds, h.orderingMatch]
  | .lt target, _, _, h => by rw [Atom.matches, Atom.holds, h.orderingMatch]
  | .lte target, _, _, h => by rw [Atom.matches, Atom.holds, h.orderingMatch]
  | .fieldExists want, _, _, h => by cases h <;> rfl
  | .isIn list, fv, fw, h => by
    have heq : ValueView.eqMatch fv = sameField fw := funext h.eqMatch
    rw [Atom.holds, ← heq]
    cases h <;> rfl
  | .nin list, fv, fw, h => by
    have heq : ValueView.eqMatch fv = sameField fw := funext h.eqMatch
    rw [Atom.holds, ← heq]
    cases h <;> rfl
  | .type name, _, _, h => by rw [Atom.matches, Atom.holds, h.typeMatch]
  | .all operands, _, _, h => by
    rw [Atom.matches, Atom.holds]
    rcases h.asArray with ⟨items, data, hitems, harr, hr⟩ | ⟨hitems, harr⟩
    · have hany : ∀ op, ((elements data).any fun e => valueEqView e op) =
          items.any fun e => e.same op := fun op =>
        any_elements_eq hr fun w tail hw hlen => valueEqView_eq op hw hlen tail
      simp only [harr, hitems, hany]
    · simp only [harr, hitems]
  | .elemMatch sub, _, _, h => by
    rw [Atom.matches, Atom.holds]
    rcases h.asArray with ⟨items, data, hitems, harr, hr⟩ | ⟨hitems, harr⟩
    · simp only [harr, hitems]
      exact any_elements_eq hr fun w tail hw hlen => sub.matches_eq hw hlen tail none
    · simp only [harr, hitems]
  | .regex pattern caseInsensitive, _, fw, h => by
    cases hs : fw.bind Value.text <;> simp [Atom.matches, Atom.holds, h.asStr, hs]

theorem atomsMatch_eq : ∀ (atoms : List Atom) {fv : Option ValueView} {fw : Option Value},
    FieldView fv fw → atomsMatch isMatch atoms fv = atomsHold isMatch atoms fw
  | [], _, _, _ => rfl
  | a :: atoms, _, _, h => by rw [atomsMatch, atomsHold, a.matches_eq h, atomsMatch_eq atoms h]

end

/-- On the bytes of a document a filter gives what it means on the document, and an id is treated as a
string field that holds it. -/
theorem filter_matches_on_bytes (v : Value) (hv : v.Parsed) (hsize : (fromValue v).length < 2 ^ 32) :
    (∀ (f : Filter) (docId : Option Bytes),
      f.matches isMatch (fromValue v) docId = f.holds isMatch v docId) ∧
    ∀ (a : Atom) (id : Bytes), (fromValue (.string (utf8Lossy id))).length < 2 ^ 32 →
      a.matchesStr isMatch (utf8Lossy id) =
        a.matches isMatch (some (fromValue (.string (utf8Lossy id)))) := by
  rw [fromValue_eq] at hsize ⊢
  refine ⟨fun f docId => ?_, fun a id hid => ?_⟩
  · have h := f.matches_eq isMatch hv hsize [] docId
    rwa [List.append_nil] at h
  · rw [fromValue_eq] at hid ⊢
    have hstr : (Value.string (utf8Lossy id)).Parsed := .string (validUtf8_utf8Lossy id)
    have h := a.matches_eq isMatch (.found hstr hid [])
    rw [List.append_nil] at h
    rw [matchesStr_eq, h]

end Ids

def mixedDoc : Value :=
  .object [([0x61], .array [.number (.posInt 9223372036854775809), .object [(idField, .string [0x78])]])]

theorem mixedDoc_parsed : mixedDoc.Parsed := by
  have hinner : (Value.object [(idField, .string [0x78])]).Parsed :=
    .object (by decide) (by simp) (by simpa using Value.JsonWith.string (by decide))
  have hitems : (Value.array [.number (.posInt 9223372036854775809),
      .object [(idField, .string [0x78])]]).Parsed := by
    refine .array fun w hw => ?_
    rcases List.mem_cons.mp hw with rfl | hw
    · exact .number trivial
    · rw [List.mem_singleton.mp hw]
      exact hinner
  exact .object (by decide) (by simp) (by simpa using hitems)

def mixedFilter : Filter :=
  .and [.field [0x61] [.elemMatch (.field idField [.eq (.string [0x78])])],
    .field [0x61] [.all [.number (.posInt 9223372036854775808)]]]

/-- A big number and a nested object in an array, and an id compared as a string. -/
theorem mixedDoc_on_bytes : (fromValue mixedDoc).length < 2 ^ 32 ∧
    mixedFilter.matches (fun _ _ _ => false) (fromValue mixedDoc) none = true ∧
    (Atom.lt (.string [0x79])).matchesStr (fun _ _ _ => false) (utf8Lossy [0x78]) =
      (Atom.lt (.string [0x79])).matches (fun _ _ _ => false)
        (some (fromValue (.string (utf8Lossy [0x78])))) := by
  have hsize : (fromValue mixedDoc).length < 2 ^ 32 := by decide +kernel
  have h := filter_matches_on_bytes (fun _ _ _ => false) mixedDoc mixedDoc_parsed hsize
  exact ⟨hsize, (h.1 mixedFilter none).trans (by decide +kernel),
    h.2 (.lt (.string [0x79])) [0x78] (by decide +kernel)⟩

end ZydecoDb
