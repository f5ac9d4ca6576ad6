import Mathlib

namespace Lib

def peak : List Int → Int
  | [] => 0
  | x :: xs => max 0 (x + peak xs)

theorem peak_nonneg (l : List Int) : 0 ≤ peak l := by
  cases l with
  | nil => exact Int.le_refl 0
  | cons x xs =>
    rw [peak]
    omega

theorem sum_le_peak (l : List Int) : l.sum ≤ peak l := by
  induction l with
  | nil => exact Int.le_refl 0
  | cons x xs ih =>
    rw [List.sum_cons, peak]
    omega

theorem peak_append (a b : List Int) : peak (a ++ b) = max (peak a) (a.sum + peak b) := by
  induction a with
  | nil =>
    have h := peak_nonneg b
    rw [List.nil_append, peak, List.sum_nil]
    omega
  | cons x a ih =>
    rw [List.cons_append, peak, peak, ih, List.sum_cons]
    omega

def StaysWithin (lo hi : Int) (l : List Int) : Prop := peak l ≤ hi ∧ peak (l.map (- ·)) ≤ -lo

instance decidableStaysWithin (lo hi : Int) (l : List Int) : Decidable (StaysWithin lo hi l) :=
  inferInstanceAs (Decidable (_ ∧ _))

theorem sum_map_neg (l : List Int) : (l.map (- ·)).sum = - l.sum := by
  induction l with
  | nil => rfl
  | cons x xs ih =>
    rw [List.map_cons, List.sum_cons, List.sum_cons, ih]
    omega

theorem StaysWithin.sum {lo hi : Int} {l : List Int} (h : StaysWithin lo hi l) :
    lo ≤ l.sum ∧ l.sum ≤ hi := by
  have hup := sum_le_peak l
  have hdown := sum_le_peak (l.map (- ·))
  rw [sum_map_neg] at hdown
  have hhi := h.1
  have hlo := h.2
  omega

theorem staysWithin_append {lo hi : Int} {a b : List Int} :
    StaysWithin lo hi (a ++ b) ↔ StaysWithin lo hi a ∧ a.sum + peak b ≤ hi ∧
      - a.sum + peak (b.map (- ·)) ≤ -lo := by
  rw [StaysWithin, StaysWithin, List.map_append, peak_append, peak_append, sum_map_neg]
  omega

def sumWithin (lo hi : Int) : Int → List Int → Option Int
  | s, [] => some s
  | s, x :: xs => if lo ≤ s + x ∧ s + x ≤ hi then sumWithin lo hi (s + x) xs else none

theorem sumWithin_append (lo hi s : Int) (a b : List Int) :
    sumWithin lo hi s (a ++ b) = (sumWithin lo hi s a).bind fun t => sumWithin lo hi t b := by
  induction a generalizing s with
  | nil => rfl
  | cons x a ih =>
    rw [List.cons_append, sumWithin, sumWithin]
    split
    next => exact ih (s + x)
    next => rfl

theorem sumWithin_eq {lo hi s : Int} {l : List Int} (hlo : lo ≤ s) (hhi : s ≤ hi) :
    sumWithin lo hi s l =
      if s + peak l ≤ hi ∧ - s + peak (l.map (- ·)) ≤ -lo then some (s + l.sum) else none := by
  induction l generalizing s with
  | nil =>
    rw [sumWithin, List.map_nil, peak, List.sum_nil, if_pos (by omega), Int.add_zero]
  | cons x xs ih =>
    have hup := peak_nonneg xs
    have hdown := peak_nonneg (xs.map (- ·))
    rw [sumWithin, List.map_cons, peak, peak, List.sum_cons]
    by_cases h : lo ≤ s + x ∧ s + x ≤ hi
    · have hsum : s + x + xs.sum = s + (x + xs.sum) := Int.add_assoc _ _ _
      rw [if_pos h, ih h.1 h.2, hsum]
      refine if_congr ?_ rfl rfl
      omega
    · rw [if_neg h, if_neg (by omega)]

section Orders

variable {α : Type*} (f : α → List Int)

def surplus (g : List α) : Int := (g.map fun d => max 0 (f d).sum).sum

theorem surplus_nonneg (g : List α) : 0 ≤ surplus f g := by
  induction g with
  | nil => exact Int.le_refl 0
  | cons d g ih =>
    rw [surplus, List.map_cons, List.sum_cons]
    rw [surplus] at ih
    omega

theorem surplus_cons (d : α) (g : List α) :
    surplus f (d :: g) = max 0 (f d).sum + surplus f g := by
  rw [surplus, List.map_cons, List.sum_cons, surplus]

theorem surplus_perm {g g' : List α} (h : g'.Perm g) : surplus f g' = surplus f g :=
  (h.map _).sum_eq

theorem sum_filter_pos (g : List α) :
    ((g.filter fun d => 0 < (f d).sum).flatMap f).sum = surplus f g := by
  induction g with
  | nil => rfl
  | cons d g ih =>
    rw [surplus_cons]
    by_cases h : 0 < (f d).sum
    · rw [List.filter_cons_of_pos (by simpa using h), List.flatMap_cons, List.sum_append, ih]
      omega
    · rw [List.filter_cons_of_neg (by simpa using h), ih]
      omega

theorem peak_flatMap_le {hi s : Int} {g : List α} (hs : s ≤ hi)
    (h : ∀ d ∈ g, s + surplus f g - max 0 (f d).sum + peak (f d) ≤ hi) :
    s + peak (g.flatMap f) ≤ hi := by
  induction g generalizing s with
  | nil =>
    rw [List.flatMap_nil, peak, Int.add_zero]
    exact hs
  | cons d g ih =>
    have hd := h d List.mem_cons_self
    have hrest := surplus_nonneg f g
    have hsum := sum_le_peak (f d)
    rw [surplus_cons] at hd
    have htail : s + (f d).sum + peak (g.flatMap f) ≤ hi := by
      refine ih (by omega) fun e he => ?_
      have he' := h e (List.mem_cons_of_mem d he)
      rw [surplus_cons] at he'
      omega
    rw [List.flatMap_cons, peak_append]
    omega

/-- The highest peak over all orders, one element at a time. -/
theorem peak_flatMap_perm_le_iff {hi : Int} (hpos : 0 ≤ hi) {g : List α} :
    (∀ g' : List α, g'.Perm g → peak (g'.flatMap f) ≤ hi) ↔
      ∀ d ∈ g, surplus f g - max 0 (f d).sum + peak (f d) ≤ hi := by
  constructor
  · intro h d hd
    obtain ⟨a, b, rfl⟩ := List.append_of_mem hd
    have hperm : (a ++ d :: b).Perm (d :: (a ++ b)) := List.perm_middle
    have hsurplus := surplus_perm f hperm
    rw [surplus_cons] at hsurplus
    have hsplit : ((a ++ b).filter (fun e => 0 < (f e).sum) ++
        d :: (a ++ b).filter fun e => !decide (0 < (f e).sum)).Perm (a ++ d :: b) := by
      refine (List.perm_middle.trans ?_).trans hperm.symm
      exact (List.filter_append_perm _ _).cons d
    have hle := h _ hsplit
    rw [List.flatMap_append, List.flatMap_cons, peak_append, peak_append, sum_filter_pos] at hle
    omega
  · intro h g' hg
    have hle : 0 + peak (g'.flatMap f) ≤ hi := by
      refine peak_flatMap_le f hpos fun d hd => ?_
      have hd' := h d (hg.mem_iff.mp hd)
      rw [surplus_perm f hg]
      omega
    omega

end Orders

end Lib
