import ZydecoDb.Lib.BigEndian

namespace Lib

/-- The first place where the two byte strings differ lies within both, and the first one has the
smaller byte there. Unlike `<`, this is kept by anything put behind them. -/
inductive FirstLess : Bytes → Bytes → Prop
  | head {a b : UInt8} {s t : Bytes} (h : a < b) : FirstLess (a :: s) (b :: t)
  | tail {a : UInt8} {s t : Bytes} (h : FirstLess s t) : FirstLess (a :: s) (a :: t)

namespace FirstLess

variable {s t : Bytes}

theorem lt (h : FirstLess s t) : s < t := by
  induction h with
  | head h => exact cons_lt_cons.mpr (Or.inl h)
  | tail _ ih => exact cons_lt_cons.mpr (Or.inr ⟨rfl, ih⟩)

theorem append (h : FirstLess s t) (x y : Bytes) : FirstLess (s ++ x) (t ++ y) := by
  induction h with
  | head h => exact .head h
  | tail _ ih => exact .tail ih

theorem prepend (h : FirstLess s t) (p : Bytes) : FirstLess (p ++ s) (p ++ t) := by
  induction p with
  | nil => exact h
  | cons a p ih => exact .tail ih

theorem complement (h : FirstLess s t) : FirstLess (t.map (~~~ ·)) (s.map (~~~ ·)) := by
  induction h with
  | @head a b s t h =>
    refine .head ?_
    have ha := a.toNat_lt
    have hb := b.toNat_lt
    rw [UInt8.lt_iff_toNat_lt] at h ⊢
    rw [UInt8.toNat_not, UInt8.toNat_not]
    simp only [UInt8.size] at *
    omega
  | tail _ ih => exact .tail ih

end FirstLess

theorem firstLess_toBe {w m n : Nat} (h : m < n) (hn : n < 256 ^ w) :
    FirstLess (toBe w m) (toBe w n) := by
  induction w generalizing m n with
  | zero =>
    simp only [Nat.pow_zero] at hn
    omega
  | succ w ih =>
    rw [toBe, toBe]
    have hpow : 256 ^ (w + 1) = 256 ^ w * 256 := Nat.pow_succ ..
    rcases Nat.lt_or_ge (m / 256) (n / 256) with hlt | hge
    · exact (ih hlt (by omega)).append _ _
    · have heq : m / 256 = n / 256 := by omega
      rw [heq]
      refine FirstLess.prepend (.head ?_) _
      rw [UInt8.lt_iff_toNat_lt]
      simp only [UInt8.toNat_ofNat', Nat.reducePow]
      omega

theorem append_lt_append_left (p : Bytes) {s t : Bytes} : p ++ s < p ++ t ↔ s < t := by
  induction p with
  | nil => rfl
  | cons a p ih => simp [ih]

def byteCmp (s t : Bytes) : Ordering := if s < t then .lt else if t < s then .gt else .eq

@[simp] theorem byteCmp_eq_lt {s t : Bytes} : byteCmp s t = .lt ↔ s < t := by
  unfold byteCmp
  split
  next h => simp [h]
  next h => split <;> simp [h]

@[simp] theorem byteCmp_eq_gt {s t : Bytes} : byteCmp s t = .gt ↔ t < s := by
  unfold byteCmp
  split
  next h => simp [lt_asymm h]
  next => split <;> simp [*]

@[simp] theorem byteCmp_eq_eq {s t : Bytes} : byteCmp s t = .eq ↔ s = t := by
  rcases lt_trichotomy s t with h | rfl | h
  · simp [byteCmp, h, h.ne]
  · simp [byteCmp]
  · simp [byteCmp, h, h.ne', lt_asymm h]

theorem byteCmp_append_left (p s t : Bytes) : byteCmp (p ++ s) (p ++ t) = byteCmp s t := by
  simp only [byteCmp, append_lt_append_left]

theorem bump_ne_nil {p q : Bytes} (h : bump p = some q) : q ≠ [] := by
  rintro rfl
  exact List.not_lt_nil p (lt_bump h)

end Lib
