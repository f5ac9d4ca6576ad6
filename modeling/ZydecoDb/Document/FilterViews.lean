import ZydecoDb.Document.Filter
import ZydecoDb.ZDocRoundTrip

namespace ZydecoDb

open Lib ZDocBuilder

def IndexValue.ZeroBelow : IndexValue → IndexValue → Prop
  | .number x, .number y => f64IsZero x = true ∧ f64IsZero y = true ∧ f64Order x < f64Order y
  | _, _ => False

def IndexValue.scalarCmp : IndexValue → IndexValue → Option Ordering
  | .number x, .number y => f64PartialCmp x y
  | a, b => some (a.order b)

namespace IndexValue

variable {a b : IndexValue}

theorem order_of_zeroBelow (h : a.ZeroBelow b) : a.order b = .lt := by
  cases a <;> cases b <;> simp only [ZeroBelow] at h
  exact (cmp_eq_lt_iff _ _).mpr h.2.2

theorem order_of_scalarCmp {o : Ordering} (h : a.scalarCmp b = some o) :
    a.order b = o ∨ o = .eq ∧ (a.ZeroBelow b ∨ b.ZeroBelow a) := by
  cases a <;> cases b
  case number.number x y =>
    replace h : f64PartialCmp x y = some o := h
    unfold f64PartialCmp at h
    obtain ⟨-, h⟩ := Option.ite_none_left_eq_some.mp h
    split at h
    next hz =>
      cases Option.some.inj h
      rw [Bool.and_eq_true] at hz
      rcases lt_trichotomy (f64Order x) (f64Order y) with hlt | heq | hgt
      · exact Or.inr ⟨rfl, Or.inl ⟨hz.1, hz.2, hlt⟩⟩
      · exact Or.inl ((cmp_eq_eq_iff _ _).mpr heq)
      · exact Or.inr ⟨rfl, Or.inr ⟨hz.2, hz.1, hgt⟩⟩
    next => exact Or.inl (Option.some.inj h)
  all_goals exact Or.inl (Option.some.inj h)

theorem eq_iff_of_scalarCmp (h : a.scalarCmp b = some .eq) :
    a = b ↔ ¬ (a.ZeroBelow b ∨ b.ZeroBelow a) := by
  constructor
  · rintro rfl hz
    have hlt := order_of_zeroBelow (or_self_iff.mp hz)
    have hswap := order_swap a a
    rw [hlt] at hswap
    exact absurd hswap (by simp)
  · intro hz
    rcases order_of_scalarCmp h with ho | ⟨-, hz'⟩
    · exact eq_of_order ho
    · exact absurd hz' hz

theorem order_ne_lt_iff_of_scalarCmp {o : Ordering} (h : a.scalarCmp b = some o) (ho : o ≠ .lt) :
    a.order b ≠ .lt ↔ ¬ a.ZeroBelow b := by
  constructor
  · intro hlt hz
    exact hlt (order_of_zeroBelow hz)
  · intro hz hlt
    rcases order_of_scalarCmp h with heq | ⟨-, hz' | hz'⟩
    · exact ho (heq ▸ hlt)
    · exact hz hz'
    · have hgt := order_of_zeroBelow hz'
      rw [← order_swap, hlt] at hgt
      exact absurd hgt (by simp)

theorem scalarCmp_swap (a b : IndexValue) : (a.scalarCmp b).map Ordering.swap = b.scalarCmp a := by
  cases a <;> cases b
  case number.number x y =>
    show (f64PartialCmp x y).map _ = f64PartialCmp y x
    unfold f64PartialCmp
    rw [Bool.or_comm (f64IsNan y), Bool.and_comm (f64IsZero y)]
    split
    next => rfl
    next =>
      split
      next => rfl
      next => exact congrArg some (cmp_swap _ _)
  all_goals exact congrArg some (order_swap _ _)

theorem order_ne_gt_iff_of_scalarCmp {o : Ordering} (h : a.scalarCmp b = some o) (ho : o ≠ .gt) :
    a.order b ≠ .gt ↔ ¬ b.ZeroBelow a := by
  have hswap : b.scalarCmp a = some o.swap := by rw [← scalarCmp_swap, h]; rfl
  have hne : o.swap ≠ .lt := by cases o <;> simp_all
  rw [← order_ne_lt_iff_of_scalarCmp hswap hne, ← order_swap b a]
  cases b.order a <;> simp

theorem order_ne_gt_iff (a b : IndexValue) : a.order b ≠ .gt ↔ b.order a ≠ .lt := by
  rw [← order_swap a b]
  cases a.order b <;> simp

end IndexValue

namespace ValueView

theorem asF64_ofI64 (i : Int64) (tail : Bytes) :
    asF64 (typeI64 :: toLe 8 i.toUInt64.toNat ++ tail) = some (Number.ofI64 i).asF64 := by
  rw [asF64, asI64_layout]
  rfl

theorem asF64_encodeZDoc {n : Number} (h : n.Exact) (tail : Bytes) :
    asF64 (encodeZDoc (.number n) ++ tail) = some n.asF64 := by
  rw [encodeZDoc]
  rcases writeNumber_cases h with ⟨i, hw, hi⟩ | ⟨bits, hn, -, hw⟩
  · rw [hw, asF64_ofI64, hi]
  · rw [hw, asF64_layout, hn]
    rfl

theorem typeByte_number (n : Number) (tail : Bytes) :
    typeByte (encodeZDoc (.number n) ++ tail) = typeI64 ∨
      typeByte (encodeZDoc (.number n) ++ tail) = typeF64 := by
  rw [encodeZDoc, writeNumber]
  split
  next => exact Or.inl rfl
  next => exact Or.inr rfl

theorem scalarRank_encodeZDoc (w : Value) (tail : Bytes) :
    scalarRank (encodeZDoc w ++ tail) = if w.isScalar then some w.indexValue.typeRank else none := by
  cases w with
  | null => rfl
  | bool b => cases b <;> rfl
  | number n =>
    rcases typeByte_number n tail with h | h <;> simp only [scalarRank, h] <;> rfl
  | string s => rfl
  | array items => rfl
  | object members => rfl

theorem cmpScalarView_jsonWith {ok : Number → Prop}
    (hok : ∀ n, ok n → ∀ tail, asF64 (encodeZDoc (.number n) ++ tail) = some n.asF64) {w b : Value}
    (hw : w.JsonWith ok) (hlen : (encodeZDoc w).length < 2 ^ 32) (hb : b.isScalar = true)
    (tail : Bytes) :
    cmpScalarView (encodeZDoc w ++ tail) b =
      if w.isScalar then w.indexValue.scalarCmp b.indexValue else none := by
  unfold cmpScalarView
  rw [if_pos hb, scalarRank_encodeZDoc]
  cases hw with
  | null => cases b <;> rfl
  | bool x =>
    have hread : asBool (encodeZDoc (.bool x) ++ tail) = some x := by cases x <;> rfl
    cases b with
    | bool y =>
      show (asBool _).map _ = _
      rw [hread]
      rfl
    | _ => rfl
  | @number n h =>
    have hread := hok n h tail
    cases b with
    | number m =>
      show (asF64 _).bind _ = _
      rw [hread]
      rfl
    | _ => rfl
  | @string s h =>
    have hread : asStr (encodeZDoc (.string s) ++ tail) = some s := by
      rw [encodeZDoc, List.length_cons, List.length_append] at hlen
      exact asStr_layout h (by omega) tail
    cases b with
    | string t =>
      show (asStr _).map _ = _
      rw [hread]
      rfl
    | _ => rfl
  | array h => rfl
  | object hk hs h => rfl

theorem cmpScalarView_encodeZDoc {w b : Value} (hw : w.Storable)
    (hlen : (encodeZDoc w).length < 2 ^ 32) (hb : b.isScalar = true) (tail : Bytes) :
    cmpScalarView (encodeZDoc w ++ tail) b =
      if w.isScalar then w.indexValue.scalarCmp b.indexValue else none :=
  cmpScalarView_jsonWith (fun _ h => asF64_encodeZDoc h) hw hlen hb tail

theorem valueEqView_scalar {a : ValueView} {b : Value} (hb : b.isScalar = true) :
    valueEqView a b = decide (cmpScalarView a b = some .eq) := by
  cases b <;> first | rfl | cases hb

end ValueView

end ZydecoDb
