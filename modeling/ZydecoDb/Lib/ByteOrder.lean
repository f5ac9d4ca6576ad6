import ZydecoDb.Lib.Run
import Mathlib.Data.List.Lex

namespace Lib

/-- Byte strings, compared lexicographically byte by byte. -/
abbrev Bytes := List UInt8

instance byteLinearOrder : LinearOrder UInt8 where
  le_refl := UInt8.le_refl
  le_trans _ _ _ := UInt8.le_trans
  lt_iff_le_not_ge a b := by
    simp only [UInt8.lt_iff_toNat_lt, UInt8.le_iff_toNat_le]
    omega
  le_antisymm _ _ := UInt8.le_antisymm
  le_total := UInt8.le_total
  toDecidableLE := inferInstance
  toDecidableEq := inferInstance
  toDecidableLT := inferInstance

theorem nil_le (b : Bytes) : [] ≤ b := not_lt.mp (List.not_lt_nil b)

theorem cons_lt_cons {a b : UInt8} {l m : Bytes} : a :: l < b :: m ↔ a < b ∨ a = b ∧ l < m :=
  List.cons_lt_cons_iff

theorem cons_le_cons {a b : UInt8} {l m : Bytes} : a :: l ≤ b :: m ↔ a < b ∨ a = b ∧ l ≤ m := by
  rw [← not_lt, cons_lt_cons, ← not_lt]
  constructor
  · intro h
    rcases lt_trichotomy a b with hab | rfl | hab
    · exact Or.inl hab
    · exact Or.inr ⟨rfl, fun hlt => h (Or.inr ⟨rfl, hlt⟩)⟩
    · exact absurd (Or.inl hab) h
  · rintro (hab | ⟨rfl, hle⟩) (hba | ⟨hba, hlt⟩)
    · exact lt_asymm hab hba
    · exact absurd hab (hba ▸ lt_irrefl _)
    · exact lt_irrefl _ hba
    · exact hle hlt

theorem not_cons_le_nil {a : UInt8} {l : Bytes} : ¬ a :: l ≤ [] :=
  not_le.mpr (List.nil_lt_cons a l)

/-- The byte string with its last byte below `0xFF` raised and the rest cut off: the least one above
every extension of it. There is none when all bytes are `0xFF`. -/
def bump : Bytes → Option Bytes
  | [] => none
  | b :: bs =>
    match bump bs with
    | some q => some (b :: q)
    | none => if b = 0xFF then none else some [b + 1]

theorem le_iff_prefix_of_bump_none {p k : Bytes} (h : bump p = none) : p ≤ k ↔ p <+: k := by
  induction p generalizing k with
  | nil => simp [nil_le]
  | cons b bs ih =>
    simp only [bump] at h
    split at h
    next => simp at h
    next hn =>
      split at h
      next hb =>
        cases k with
        | nil => simp [not_cons_le_nil]
        | cons c cs =>
          rw [cons_le_cons, List.cons_prefix_cons, ih hn]
          have hc : ¬ b < c := by
            rw [hb, UInt8.lt_iff_toNat_lt]
            have := c.toNat_lt
            simp only [UInt8.reduceToNat]
            omega
          simp [hc]
      next => simp at h

theorem lt_succ_iff {b c : UInt8} (h : b ≠ 0xFF) : c < b + 1 ↔ c ≤ b := by
  have hb := b.toNat_lt
  have hne : b.toNat ≠ 255 := fun he => h (UInt8.toNat_inj.mp he)
  rw [UInt8.lt_iff_toNat_lt, UInt8.le_iff_toNat_le, UInt8.toNat_add]
  simp only [UInt8.reduceToNat]
  omega

theorem mem_range_bump {p q k : Bytes} (h : bump p = some q) : p ≤ k ∧ k < q ↔ p <+: k := by
  induction p generalizing q k with
  | nil => simp [bump] at h
  | cons b bs ih =>
    cases k with
    | nil => simp [not_cons_le_nil]
    | cons c cs =>
      rw [List.cons_prefix_cons, cons_le_cons]
      simp only [bump] at h
      split at h
      next q' hq =>
        cases Option.some.inj h
        rw [cons_lt_cons]
        constructor
        · rintro ⟨hbc | ⟨rfl, hle⟩, hcb | ⟨hcb, hlt⟩⟩
          · exact absurd hbc (lt_asymm hcb)
          · exact absurd hbc (hcb ▸ lt_irrefl _)
          · exact absurd hcb (lt_irrefl _)
          · exact ⟨rfl, (ih hq).mp ⟨hle, hlt⟩⟩
        · rintro ⟨rfl, hp⟩
          obtain ⟨hle, hlt⟩ := (ih hq).mpr hp
          exact ⟨Or.inr ⟨rfl, hle⟩, Or.inr ⟨rfl, hlt⟩⟩
      next hn =>
        obtain ⟨hb, ⟨⟩⟩ := Option.ite_none_left_eq_some.mp h
        rw [cons_lt_cons, lt_succ_iff hb, le_iff_prefix_of_bump_none hn]
        constructor
        · rintro ⟨hbc | ⟨rfl, hp⟩, hcb | ⟨-, hlt⟩⟩
          · exact absurd hbc (not_lt.mpr hcb)
          · exact absurd hlt (List.not_lt_nil cs)
          · exact ⟨rfl, hp⟩
          · exact absurd hlt (List.not_lt_nil cs)
        · rintro ⟨rfl, hp⟩
          exact ⟨Or.inr ⟨rfl, hp⟩, Or.inl le_rfl⟩

theorem lt_bump {p q : Bytes} (h : bump p = some q) : p < q :=
  ((mem_range_bump h).mpr List.prefix_rfl).2

theorem lt_append_singleton (p : Bytes) (b : UInt8) : p < p ++ [b] := by
  induction p with
  | nil => exact List.nil_lt_cons b []
  | cons a p ih => exact cons_lt_cons.mpr (Or.inr ⟨rfl, ih⟩)

end Lib
