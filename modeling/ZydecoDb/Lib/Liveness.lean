import Mathlib.Tactic

namespace Lib

def LeadsTo (p q : Nat → Prop) : Prop := ∀ n, p n → ∃ m, n ≤ m ∧ q m

namespace LeadsTo

variable {p q r : Nat → Prop}

theorem of_imp (h : ∀ n, p n → q n) : LeadsTo p q := fun n hp => ⟨n, le_rfl, h n hp⟩

theorem trans (hpq : LeadsTo p q) (hqr : LeadsTo q r) : LeadsTo p r := by
  intro n hp
  obtain ⟨m, hnm, hq⟩ := hpq n hp
  obtain ⟨k, hmk, hr⟩ := hqr m hq
  exact ⟨k, hnm.trans hmk, hr⟩

theorem keeps {n m : Nat} (hkeep : ∀ k, p k → p (k + 1) ∨ q (k + 1)) (hp : p n) (hle : n ≤ m) :
    p m ∨ ∃ k, n ≤ k ∧ q k := by
  induction m, hle using Nat.le_induction with
  | base => exact Or.inl hp
  | succ m hnm ih =>
    rcases ih with hm | hq
    · rcases hkeep m hm with hnext | hq
      · exact Or.inl hnext
      · exact Or.inr ⟨m + 1, by omega, hq⟩
    · exact Or.inr hq

/-- What holds until a helpful step, which is bound to come, leads to that step's effect. -/
theorem ensures (helpful : Nat → Prop) (hkeep : ∀ n, p n → p (n + 1) ∨ q (n + 1))
    (hfair : ∀ n, p n → ∃ m, n ≤ m ∧ helpful m) (heffect : ∀ n, p n → helpful n → q (n + 1)) :
    LeadsTo p q := by
  intro n hp
  obtain ⟨m, hnm, hm⟩ := hfair n hp
  rcases keeps hkeep hp hnm with hpm | hq
  · exact ⟨m + 1, by omega, heffect m hpm hm⟩
  · exact hq

end LeadsTo

theorem exists_labels {τ : Type*} {P : Nat → τ → Prop} {R : Nat → τ → τ → Prop} {t₀ : τ} (h₀ : P 0 t₀)
    (hstep : ∀ n t, P n t → ∃ t', P (n + 1) t' ∧ R n t t') :
    ∃ label : Nat → τ, label 0 = t₀ ∧ ∀ n, P n (label n) ∧ R n (label n) (label (n + 1)) := by
  choose next hnext using fun n (x : { t // P n t }) => hstep n x.1 x.2
  let label : (n : Nat) → { t // P n t } :=
    fun n => Nat.rec ⟨t₀, h₀⟩ (fun n x => ⟨next n x, (hnext n x).1⟩) n
  exact ⟨fun n => (label n).1, rfl, fun n => ⟨(label n).2, (hnext n (label n)).2⟩⟩

end Lib
