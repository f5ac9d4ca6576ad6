import ZydecoDb.Lib.Run

namespace Lib

/-- The search for the last position that satisfies a predicate, over the signed bounds `lo..=hi`;
`ans` is the last position found so far. -/
def searchLastLoop (p : Nat → Bool) : Nat → Int → Int → Option Nat → Option Nat
  | 0, _, _, ans => ans
  | fuel + 1, lo, hi, ans =>
    if lo ≤ hi then
      let mid := ((lo + hi) / 2).toNat
      if p mid then searchLastLoop p fuel (mid + 1) hi (some mid)
      else searchLastLoop p fuel lo (mid - 1) ans
    else ans

def searchLast (p : Nat → Bool) (n : Nat) : Option Nat := searchLastLoop p n 0 (n - 1) none

def IsLast (p : Nat → Bool) (n : Nat) : Option Nat → Prop
  | none => ∀ j < n, p j = false
  | some i => i < n ∧ p i = true ∧ ∀ j, i < j → j < n → p j = false

/-- What the loop keeps: nothing behind `hi` satisfies the predicate, and `ans` stands right below
`lo`. -/
structure SearchBounds (p : Nat → Bool) (n : Nat) (lo hi : Int) (ans : Option Nat) : Prop where
  lo_nonneg : 0 ≤ lo
  hi_lt : hi < n
  lo_le : lo ≤ hi + 1
  above : ∀ j : Nat, hi < j → j < n → p j = false
  ans_below : (ans = none ∧ lo = 0) ∨ ∃ i : Nat, ans = some i ∧ lo = i + 1 ∧ p i = true

theorem SearchBounds.isLast {p : Nat → Bool} {n : Nat} {lo hi : Int} {ans : Option Nat}
    (h : SearchBounds p n lo hi ans) (hlt : hi < lo) : IsLast p n ans := by
  have hn := h.hi_lt
  have hle := h.lo_le
  rcases h.ans_below with ⟨rfl, h0⟩ | ⟨i, rfl, hi', hp⟩
  · exact fun j hj => h.above j (by omega) hj
  · exact ⟨by omega, hp, fun j hij hj => h.above j (by omega) hj⟩

theorem searchLastLoop_spec {p : Nat → Bool} {n fuel : Nat} {lo hi : Int} {ans : Option Nat}
    (hmono : ∀ i j, i ≤ j → j < n → p j = true → p i = true)
    (h : SearchBounds p n lo hi ans) (hfuel : hi + 1 - lo ≤ fuel) :
    IsLast p n (searchLastLoop p fuel lo hi ans) := by
  induction fuel generalizing lo hi ans with
  | zero => exact h.isLast (by omega)
  | succ fuel ih =>
    obtain ⟨hlo, hhi, hle, habove, hans⟩ := h
    simp only [searchLastLoop]
    split
    next hle' =>
      have hmid : (((lo + hi) / 2).toNat : Int) = (lo + hi) / 2 := Int.toNat_of_nonneg (by omega)
      split
      next hp =>
        exact ih ⟨by omega, hhi, by omega, habove, Or.inr ⟨_, rfl, rfl, hp⟩⟩ (by omega)
      next hp =>
        refine ih ⟨hlo, by omega, by omega, fun j hj hjn => ?_, hans⟩ (by omega)
        by_contra hpj
        exact hp (hmono _ j (show ((lo + hi) / 2).toNat ≤ j by omega) hjn (by simpa using hpj))
    next hgt => exact SearchBounds.isLast ⟨hlo, hhi, hle, habove, hans⟩ (by omega)

/-- The search finds the last index at which a falling predicate holds. -/
theorem searchLast_spec {p : Nat → Bool} {n : Nat}
    (hmono : ∀ i j, i ≤ j → j < n → p j = true → p i = true) : IsLast p n (searchLast p n) :=
  searchLastLoop_spec hmono ⟨le_rfl, by omega, by omega, fun j _ _ => by omega,
    Or.inl ⟨rfl, rfl⟩⟩ (by omega)

end Lib
