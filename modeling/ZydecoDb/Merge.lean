import ZydecoDb.Sstable
import ZydecoDb.Lib.KWayMerge

namespace ZydecoDb

open Lib

def mergeRaw (sources : List (List Version)) : List Version := kmerge Version.le sources

def dedup : Option Bytes → List Version → List Version
  | _, [] => []
  | lastUserKey, v :: vs =>
    if lastUserKey = some v.userKey then dedup lastUserKey vs
    else if v.entry.kind = .tombstone then dedup (some v.userKey) vs
    else v :: dedup (some v.userKey) vs

def mergeDedup (sources : List (List Version)) : List Version :=
  dedup none (mergeRaw sources)

theorem kind_eq_tombstone {e : Entry} : e.kind = .tombstone ↔ e.isTombstone = true := by
  cases e <;> simp [Entry.kind, Entry.isTombstone]

section Dedup

variable {R : Bytes → Bytes → Prop} [Std.Antisymm R]

/-- The merge yields the first version of each key unless it is a tombstone. -/
theorem mem_dedup {l : List Version} {last : Option Bytes} {x : Version}
    (hl : l.Pairwise fun a b => R a.userKey b.userKey)
    (hlast : ∀ b ∈ last, ∀ v ∈ l, R b v.userKey) :
    x ∈ dedup last l ↔ last ≠ some x.userKey ∧
      l.find? (fun v => v.userKey = x.userKey) = some x ∧ x.entry.isTombstone = false := by
  induction l generalizing last with
  | nil => simp [dedup]
  | cons v vs ih =>
    obtain ⟨hv, hvs⟩ := List.pairwise_cons.mp hl
    have hlow : ∀ b ∈ some v.userKey, ∀ w ∈ vs, R b w.userKey := by
      intro b hb w hw
      cases Option.mem_some_iff.mp hb
      exact hv w hw
    simp only [dedup]
    by_cases hsame : last = some v.userKey
    · rw [if_pos hsame, hsame, ih hvs hlow]
      by_cases hx : v.userKey = x.userKey
      · simp [hx]
      · simp [hx]
    · rw [if_neg hsame]
      have hstep : x ∈ dedup (some v.userKey) vs ↔ v.userKey ≠ x.userKey ∧
          vs.find? (fun w => w.userKey = x.userKey) = some x ∧ x.entry.isTombstone = false := by
        rw [ih hvs hlow]
        simp
      have hpast : v.userKey ≠ x.userKey →
          vs.find? (fun w => w.userKey = x.userKey) = some x → last ≠ some x.userKey := by
        intro hne hf hlx
        have hxv := hv x (List.mem_of_find?_eq_some hf)
        have hvx := hlast x.userKey hlx v List.mem_cons_self
        exact hne (Std.Antisymm.antisymm _ _ hxv hvx)
      by_cases hx : v.userKey = x.userKey
      · rw [List.find?_cons_of_pos (by simpa using hx)]
        split
        next ht =>
          rw [hstep]
          constructor
          · exact fun h => absurd hx h.1
          · rintro ⟨-, hvx, hnt⟩
            cases Option.some.inj hvx
            simp [kind_eq_tombstone.mp ht] at hnt
        next ht =>
          rw [List.mem_cons, hstep]
          constructor
          · rintro (rfl | h)
            · exact ⟨hsame, rfl, by simpa [kind_eq_tombstone] using ht⟩
            · exact absurd hx h.1
          · rintro ⟨-, hvx, -⟩
            exact Or.inl (Option.some.inj hvx).symm
      · have hxv : x ≠ v := fun h => hx (h ▸ rfl)
        rw [List.find?_cons_of_neg (by simpa using hx)]
        split
        next =>
          rw [hstep]
          exact ⟨fun h => ⟨hpast hx h.2.1, h.2⟩, fun h => ⟨hx, h.2⟩⟩
        next =>
          rw [List.mem_cons, hstep]
          exact ⟨fun h => ⟨hpast hx (h.resolve_left hxv).2.1, (h.resolve_left hxv).2⟩,
            fun h => Or.inr ⟨hx, h.2⟩⟩

theorem dedup_sublist (last : Option Bytes) (l : List Version) : (dedup last l).Sublist l := by
  induction l generalizing last with
  | nil => exact List.Sublist.slnil
  | cons v vs ih =>
    rw [dedup]
    split
    next => exact (ih _).cons v
    next =>
      split
      next => exact (ih _).cons v
      next => exact (ih _).cons_cons v

theorem dedup_pairwise {l : List Version} {last : Option Bytes}
    (hl : l.Pairwise fun a b => R a.userKey b.userKey)
    (hlast : ∀ b ∈ last, ∀ v ∈ l, R b v.userKey) :
    (dedup last l).Pairwise fun a b => R a.userKey b.userKey ∧ a.userKey ≠ b.userKey := by
  induction l generalizing last with
  | nil => exact List.Pairwise.nil
  | cons v vs ih =>
    obtain ⟨hv, hvs⟩ := List.pairwise_cons.mp hl
    have hlow : ∀ b ∈ some v.userKey, ∀ w ∈ vs, R b w.userKey := by
      intro b hb w hw
      cases Option.mem_some_iff.mp hb
      exact hv w hw
    rw [dedup]
    split
    next => exact ih hvs fun b hb w hw => hlast b hb w (List.mem_cons_of_mem _ hw)
    next =>
      split
      next => exact ih hvs hlow
      next =>
        refine List.pairwise_cons.mpr ⟨fun x hx => ?_, ih hvs hlow⟩
        obtain ⟨hne, hf, -⟩ := (mem_dedup hvs hlow).mp hx
        exact ⟨hv x (List.mem_of_find?_eq_some hf), fun h => hne (by rw [h])⟩

end Dedup

theorem mem_mergeRaw {sources : List (List Version)} {v : Version} :
    v ∈ mergeRaw sources ↔ ∃ src ∈ sources, v ∈ src := mem_kmerge

theorem mergeRaw_sorted {sources : List (List Version)}
    (hs : ∀ src ∈ sources, src.Pairwise Version.le) : (mergeRaw sources).Pairwise Version.le :=
  kmerge_sorted hs

theorem mergeDedup_ascending {sources : List (List Version)}
    (hs : ∀ src ∈ sources, src.Pairwise Version.le) :
    (mergeDedup sources).Pairwise fun a b => a.userKey < b.userKey :=
  (dedup_pairwise (keyAscending_of_sorted (mergeRaw_sorted hs)) (by simp)).imp fun h =>
    lt_of_le_of_ne h.1 h.2

section MergeOrder

variable {r : Version → Version → Prop} [DecidableRel r] [Std.Total r] [IsTrans Version r]
variable {R : Bytes → Bytes → Prop} [Std.Antisymm R]

/-- A merge that walks the keys in one direction and each key's versions newest first yields, from
sources sorted that way, the newest version of each key, tombstones left out. -/
theorem mem_dedup_kmerge (hkey : ∀ {a b : Version}, r a b → R a.userKey b.userKey)
    (hseq : ∀ {a b : Version}, r a b → a.userKey = b.userKey → b.seq ≤ a.seq)
    {sources : List (List Version)} (hs : ∀ src ∈ sources, src.Pairwise r) {x : Version} :
    x ∈ dedup none (kmerge r sources) ↔
      newest (kmerge r sources) x.userKey = some x ∧ x.entry.isTombstone = false := by
  have hsort : (kmerge r sources).Pairwise r := kmerge_sorted hs
  have hfirst : (kmerge r sources).Pairwise fun a b => a.userKey = b.userKey → b.seq ≤ a.seq :=
    hsort.imp hseq
  have hdir : (kmerge r sources).Pairwise fun a b => R a.userKey b.userKey := hsort.imp hkey
  rw [newest, newest_eq_find hfirst, mem_dedup hdir (by simp)]
  simp

end MergeOrder

end ZydecoDb
