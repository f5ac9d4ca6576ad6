import ZydecoDb.Document.ConstraintSound
import ZydecoDb.Document.FilterViews

namespace ZydecoDb

open Lib ZDocBuilder ValueView

structure Value.IsBody (v : Value) : Prop where
  storable : v.Storable
  depth : valueDepth v ≤ maxZdocDepth
  size : (fromValue v).length < 2 ^ 32

theorem Value.IsBody.toValue_fromValue {v : Value} (hv : v.IsBody) : toValue (fromValue v) = .ok v := by
  have hsize := hv.size
  rw [fromValue_eq] at hsize ⊢
  have hread := toValueAtDepth_encodeZDoc hv.storable hv.depth hsize []
  rwa [List.append_nil] at hread

theorem Value.IsBody.ext {v w : Value} (hv : v.IsBody) (hw : w.IsBody)
    (h : fromValue v = fromValue w) : v = w := by
  have heq := hv.toValue_fromValue
  rw [h, hw.toValue_fromValue] at heq
  exact (Except.ok.inj heq).symm

theorem getPath_body {v : Value} (hv : v.IsBody) (path : Bytes) :
    (∃ w tail, w.Storable ∧ (encodeZDoc w).length < 2 ^ 32 ∧
      getPath (fromValue v) path = some (encodeZDoc w ++ tail) ∧ extractPath v path = w) ∨
    getPath (fromValue v) path = none ∧ extractPath v path = .null := by
  have hsize := hv.size
  rw [fromValue_eq] at hsize ⊢
  rw [getPath, extractPath, extractSegments_eq]
  generalize path.splitOn 0x2E = segs
  obtain ⟨tail, hget⟩ := getSegments_encodeZDoc hv.storable hsize []
  rw [List.append_nil] at hget
  rw [hget]
  cases hl : atSegments segs v with
  | none => exact Or.inr ⟨rfl, rfl⟩
  | some w =>
    obtain ⟨hst, hlen, -⟩ := atSegments_part hv.storable hl
    exact Or.inl ⟨w, tail, hst, by omega, rfl, rfl⟩

section Fields

variable {v : Value} (hv : v.IsBody) {path : Bytes} {t : Value} (ht : t.isScalar = true)

include hv ht

theorem indexValue_eq_iff_of_eqMatch (h : eqMatch (getPath (fromValue v) path) t = true) :
    (extractPath v path).indexValue = t.indexValue ↔
      ¬ ((extractPath v path).indexValue.ZeroBelow t.indexValue ∨
        t.indexValue.ZeroBelow (extractPath v path).indexValue) := by
  rcases getPath_body hv path with ⟨w, tail, hst, hlen, hget, hval⟩ | ⟨hget, hval⟩
  · rw [hget] at h
    have heq : valueEqView (encodeZDoc w ++ tail) t = true := h
    rw [valueEqView_scalar ht, cmpScalarView_encodeZDoc hst hlen ht, decide_eq_true_eq] at heq
    rw [hval]
    split at heq
    next => exact IndexValue.eq_iff_of_scalarCmp heq
    next => simp at heq
  · rw [hget] at h
    have hnull : t.isNull = true := h
    cases t with
    | null => simp [hval, Value.indexValue, IndexValue.ZeroBelow]
    | _ => simp [Value.isNull] at hnull

theorem scalarCmp_of_orderingMatch {accept : List Ordering}
    (h : orderingMatch (getPath (fromValue v) path) t accept = true) :
    ∃ o ∈ accept, (extractPath v path).indexValue.scalarCmp t.indexValue = some o := by
  rcases getPath_body hv path with ⟨w, tail, hst, hlen, hget, hval⟩ | ⟨hget, hval⟩
  · rw [orderingMatch, hget, Option.bind_some, cmpScalarView_encodeZDoc hst hlen ht] at h
    rw [hval]
    split at h
    next o ho =>
      split at ho
      next => exact ⟨o, by simpa using h, ho⟩
      next => simp at ho
    next => simp at h
  · rw [orderingMatch, hget] at h
    simp at h

end Fields

end ZydecoDb
