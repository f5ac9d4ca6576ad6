import ZydecoDb.CatalogAnswers

namespace ZydecoDb

open Lib

def ReadView.ReadsAs (view : ReadView) (nowMs : Nat) (vs : List Version) : Prop :=
  ∀ t, nowMs ≤ t → (∀ k, view.handleGet k u64Max t = valueAt (newest vs k) t) ∧
    ∀ lo hi, ReadView.ScanRange lo hi → ∃ rows, view.scan u64Max lo hi t = some rows ∧
      ∀ k b, (k, b) ∈ rows ↔ ReadView.InScan lo hi k ∧ valueAt (newest vs k) t = some b

variable {tables : List LoadedSstable} {segs : List (Nat × List WalEntry)}

theorem ReadView.ReadsAs.congr {view : ReadView} {nowMs : Nat} {vs vs' : List Version}
    (h : view.ReadsAs nowMs vs) (hc : Coherent vs') (hm : ∀ v, v ∈ vs' ↔ v ∈ vs) :
    view.ReadsAs nowMs vs' := by
  have hsame : ∀ k, newest vs' k = newest vs k := fun k => newest_congr hc fun v _ => hm v
  intro t ht
  simp only [hsame]
  exact h t ht

end ZydecoDb
