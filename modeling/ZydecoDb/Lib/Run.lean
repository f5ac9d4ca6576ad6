import Mathlib.Tactic
import Mathlib.Data.List.Sort

namespace Lib

theorem except_map_eq_ok {ε α β : Type*} {x : Except ε α} {f : α → β} {b : β} :
    x.map f = .ok b ↔ ∃ a, x = .ok a ∧ f a = b := by
  cases x <;> simp [Except.map]

theorem except_bind_eq_ok {ε α β : Type*} {x : Except ε α} {f : α → Except ε β} {b : β} :
    x.bind f = .ok b ↔ ∃ a, x = .ok a ∧ f a = .ok b := by
  cases x with
  | error e => simp [Except.bind]
  | ok a => simp [Except.bind]

theorem ite_error_eq_ok {ε α : Type*} {c : Prop} [Decidable c] {e : ε} {a b : α}
    (h : (if c then Except.error e else .ok a) = .ok b) : a = b := by
  split at h
  next => simp at h
  next => exact Except.ok.inj h

theorem foldl_max_ge {l : List Nat} {m : Nat} : m ≤ l.foldl max m ∧ ∀ a ∈ l, a ≤ l.foldl max m := by
  induction l generalizing m with
  | nil => simp
  | cons a l ih =>
    obtain ⟨h1, h2⟩ := ih (m := max m a)
    refine ⟨(le_max_left m a).trans h1, List.forall_mem_cons.mpr ⟨(le_max_right m a).trans h1, h2⟩⟩

theorem foldl_max_mem (l : List Nat) (m : Nat) : l.foldl max m = m ∨ l.foldl max m ∈ l := by
  induction l generalizing m with
  | nil => exact Or.inl rfl
  | cons a l ih =>
    rcases ih (max m a) with h | h
    · rw [List.foldl_cons, h]
      rcases max_choice m a with hm | hm
      · exact Or.inl hm
      · rw [hm]
        exact Or.inr List.mem_cons_self
    · exact Or.inr (List.mem_cons_of_mem _ h)

section Runs

variable {σ α : Type*} (step : σ → α → Option σ)

/-- The state a list of actions leads to, when each of them is enabled where it is taken. -/
def runFrom : σ → List α → Option σ
  | s, [] => some s
  | s, a :: as => (step s a).bind fun s' => runFrom s' as

/-- Every action of the run is taken in a state where the condition holds. -/
def MeetsAlong (cond : σ → α → Prop) : σ → List α → Prop
  | _, [] => True
  | s, a :: as => cond s a ∧
      match step s a with
      | none => True
      | some s' => MeetsAlong cond s' as

instance decidableMeetsAlong (cond : σ → α → Prop) [∀ s a, Decidable (cond s a)] :
    ∀ (s : σ) (as : List α), Decidable (MeetsAlong step cond s as)
  | _, [] => isTrue trivial
  | s, a :: as =>
    match h : step s a with
    | none => decidable_of_iff (cond s a) (by simp [MeetsAlong, h])
    | some s' =>
      have := decidableMeetsAlong cond s' as
      decidable_of_iff (cond s a ∧ MeetsAlong step cond s' as) (by simp [MeetsAlong, h])

variable {step}

@[simp] theorem runFrom_nil (s : σ) : runFrom step s [] = some s := rfl

variable {as : List α}

theorem runFrom_cons {s s' : σ} {a : α} :
    runFrom step s (a :: as) = some s' ↔ ∃ t, step s a = some t ∧ runFrom step t as = some s' :=
  Option.bind_eq_some_iff

theorem runFrom_append {s s' : σ} {as bs : List α} :
    runFrom step s (as ++ bs) = some s' ↔
      ∃ t, runFrom step s as = some t ∧ runFrom step t bs = some s' := by
  induction as generalizing s with
  | nil => simp
  | cons a as ih =>
    rw [List.cons_append, runFrom_cons]
    constructor
    · rintro ⟨u, hu, hr⟩
      obtain ⟨t, ht, hb⟩ := ih.mp hr
      exact ⟨t, runFrom_cons.mpr ⟨u, hu, ht⟩, hb⟩
    · rintro ⟨t, ht, hb⟩
      obtain ⟨u, hu, hr⟩ := runFrom_cons.mp ht
      exact ⟨u, hu, ih.mpr ⟨t, hr, hb⟩⟩

variable {cond : σ → α → Prop}

/-- The invariant rule: what every step that meets the condition preserves holds at the end of
every run whose steps all meet it. -/
theorem runFrom_invariant {P : σ → Prop}
    (hstep : ∀ s a s', P s → cond s a → step s a = some s' → P s') {s s' : σ} (hs : P s)
    (hc : MeetsAlong step cond s as) (hr : runFrom step s as = some s') : P s' := by
  induction as generalizing s with
  | nil => cases Option.some.inj hr; exact hs
  | cons a as ih =>
    obtain ⟨t, ht, hr⟩ := runFrom_cons.mp hr
    simp only [MeetsAlong, ht] at hc
    exact ih (hstep s a t hs hc.1 ht) hc.2 hr

theorem meetsAlong_append {s t : σ} {as bs : List α} (hc : MeetsAlong step cond s (as ++ bs))
    (ht : runFrom step s as = some t) :
    MeetsAlong step cond s as ∧ MeetsAlong step cond t bs := by
  induction as generalizing s with
  | nil => cases Option.some.inj ht; exact ⟨trivial, hc⟩
  | cons a as ih =>
    obtain ⟨u, hu, ht⟩ := runFrom_cons.mp ht
    simp only [List.cons_append, MeetsAlong, hu] at hc ⊢
    exact ⟨⟨hc.1, (ih hc.2 ht).1⟩, (ih hc.2 ht).2⟩

/-- Where the steps that meet the condition are those that keep a property, and they keep the invariant
too, a run keeps the property throughout exactly when its steps all meet the condition. What the steps
are allowed to be is `side`. -/
theorem forall_prefix_iff_meetsAlong {I P : σ → Prop} {side : σ → α → Prop}
    (hstep : ∀ s a, I s → P s → side s a →
      ∃ s', step s a = some s' ∧ (P s' ↔ cond s a) ∧ (cond s a → I s')) {s : σ}
    (hs : I s) (hp : P s) (hside : MeetsAlong step side s as) :
    (∀ bs s', bs <+: as → runFrom step s bs = some s' → P s') ↔ MeetsAlong step cond s as := by
  induction as generalizing s with
  | nil =>
    refine ⟨fun _ => trivial, fun _ bs s' hbs hr => ?_⟩
    rw [List.prefix_nil.mp hbs] at hr
    cases Option.some.inj hr
    exact hp
  | cons a as ih =>
    obtain ⟨t, ht, hpt, hit⟩ := hstep s a hs hp hside.1
    simp only [MeetsAlong, ht] at hside ⊢
    constructor
    · intro h
      have hc : cond s a := hpt.mp (h [a] t ⟨as, rfl⟩ (runFrom_cons.mpr ⟨t, ht, rfl⟩))
      refine ⟨hc, (ih (hit hc) (hpt.mpr hc) hside.2).mp fun bs s' hbs hr => ?_⟩
      exact h (a :: bs) s' (List.cons_prefix_cons.mpr ⟨rfl, hbs⟩) (runFrom_cons.mpr ⟨t, ht, hr⟩)
    · intro h bs s' hbs hr
      cases bs with
      | nil =>
        cases Option.some.inj hr
        exact hp
      | cons b bs =>
        obtain ⟨rfl, hrest⟩ := List.cons_prefix_cons.mp hbs
        obtain ⟨u, hu, hr⟩ := runFrom_cons.mp hr
        cases Option.some.inj (ht.symm.trans hu)
        exact (ih (hit h.1) (hpt.mpr h.1) hside.2).mpr h.2 bs s' hrest hr

theorem meetsAlong_true (s : σ) (as : List α) : MeetsAlong step (fun _ _ => True) s as := by
  induction as generalizing s with
  | nil => trivial
  | cons a as ih =>
    refine ⟨trivial, ?_⟩
    cases step s a with
    | none => trivial
    | some t => exact ih t

end Runs

end Lib
