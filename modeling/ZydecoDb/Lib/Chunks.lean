import Mathlib.Data.List.Basic
import Mathlib.Tactic.Common

namespace Lib

variable {α : Type*}

/-- Groups gathered into batches: a batch is sent as soon as it holds `max` members, with the whole
group that filled it, and what is left over is sent at the end. -/
def chunks (max : Nat) : List α → List (List α) → List (List α)
  | pending, [] => if pending = [] then [] else [pending]
  | pending, g :: groups =>
    if max ≤ (pending ++ g).length then (pending ++ g) :: chunks max [] groups
    else chunks max (pending ++ g) groups

theorem length_le_of_mem_chunks {max : Nat} (hmax : 0 < max) {groups : List (List α)}
    (hone : ∀ g ∈ groups, g.length ≤ 1) {pending b : List α} (hp : pending.length < max)
    (hb : b ∈ chunks max pending groups) : b.length ≤ max := by
  induction groups generalizing pending with
  | nil =>
    rw [chunks] at hb
    split at hb
    next => simp at hb
    next =>
      rw [List.mem_singleton.mp hb]
      omega
  | cons g groups ih =>
    have hg := hone g List.mem_cons_self
    have htail := fun c hc => hone c (List.mem_cons_of_mem g hc)
    have hlen : (pending ++ g).length = pending.length + g.length := List.length_append
    rw [chunks] at hb
    split at hb
    next hfull =>
      rcases List.mem_cons.mp hb with rfl | hb
      · omega
      · have hnil : ([] : List α).length < max := hmax
        exact ih htail hnil hb
    next hroom => exact ih htail (by omega) hb

/-- Only a pair that comes when one place is left makes a chunk too long. -/
theorem chunks_le_iff {max : Nat} (hmax : 0 < max) {groups : List (List α)}
    (htwo : ∀ g ∈ groups, g.length ≤ 2) {pending : List α} (hp : pending.length < max) :
    (∀ b ∈ chunks max pending groups, b.length ≤ max) ↔
      ∀ i g, groups[i]? = some g → g.length = 2 →
        (pending.length + (groups.take i).flatten.length) % max ≠ max - 1 := by
  induction groups generalizing pending with
  | nil =>
    refine iff_of_true (fun b hb => ?_) (by simp)
    rw [chunks] at hb
    split at hb
    next => simp at hb
    next =>
      rw [List.mem_singleton.mp hb]
      omega
  | cons g groups ih =>
    have hg := htwo g List.mem_cons_self
    have htail := fun c hc => htwo c (List.mem_cons_of_mem g hc)
    have hlen : (pending ++ g).length = pending.length + g.length := List.length_append
    have hfirst : pending.length % max = pending.length := Nat.mod_eq_of_lt hp
    -- the members before group `i + 1` are those before group `i` of the rest, with `g`
    have hsplit : (∀ i c, (g :: groups)[i]? = some c → c.length = 2 →
          (pending.length + ((g :: groups).take i).flatten.length) % max ≠ max - 1) ↔
        (g.length = 2 → pending.length ≠ max - 1) ∧ ∀ i c, groups[i]? = some c → c.length = 2 →
          ((pending ++ g).length + (groups.take i).flatten.length) % max ≠ max - 1 := by
      constructor
      · intro h
        refine ⟨fun hg2 => ?_, fun i c hc hc2 => ?_⟩
        · have h0 := h 0 g rfl hg2
          simpa [hfirst] using h0
        · have hs := h (i + 1) c hc hc2
          rw [List.take_succ_cons, List.flatten_cons, List.length_append, ← Nat.add_assoc, ← hlen] at hs
          exact hs
      · rintro ⟨h0, h⟩ i c hc hc2
        cases i with
        | zero =>
          cases Option.some.inj hc
          simpa [hfirst] using h0 hc2
        | succ i =>
          rw [List.take_succ_cons, List.flatten_cons, List.length_append, ← Nat.add_assoc, ← hlen]
          exact h i c hc hc2
    rw [hsplit, chunks]
    split
    next hfull =>
      have hnil : ([] : List α).length < max := hmax
      rw [List.forall_mem_cons, ih htail hnil]
      constructor
      · rintro ⟨hle, hrest⟩
        have hexact : (pending ++ g).length = max := by omega
        refine ⟨fun _ => by omega, fun i c hc hc2 => ?_⟩
        have hs := hrest i c hc hc2
        rwa [hexact, Nat.add_mod_left, ← Nat.zero_add (List.length _), ← List.length_nil]
      · rintro ⟨h0, hrest⟩
        have hexact : (pending ++ g).length = max := by
          by_cases hg2 : g.length = 2
          · have h1 := h0 hg2
            omega
          · omega
        refine ⟨by omega, fun i c hc hc2 => ?_⟩
        have hs := hrest i c hc hc2
        rwa [hexact, Nat.add_mod_left, ← Nat.zero_add (List.length _), ← List.length_nil] at hs
    next hroom =>
      rw [ih htail (by omega)]
      refine ⟨fun h => ⟨fun hg2 => by omega, h⟩, fun h => h.2⟩

end Lib
