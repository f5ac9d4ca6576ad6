import ZydecoDb.Survivors

namespace ZydecoDb

open Lib

/-- The rule of a job, said without the order of the merge: an expired value takes every older
version of its key along; below the watermark only the newest version stays that is no droppable
tombstone. -/
def GcPolicy.Keeps (p : GcPolicy) (inputs : List Version) (v : Version) : Prop :=
  (∀ w ∈ inputs, w.userKey = v.userKey → v.seq ≤ w.seq → p.expires w = false) ∧
  (p.gcWatermark = 0 ∨ p.gcWatermark < v.seq ∨ p.dropsTombstone v = false ∧
    ∀ w ∈ inputs, w.userKey = v.userKey → v.seq < w.seq → w.seq ≤ p.gcWatermark →
      p.dropsTombstone w = true)

instance decidableKeeps (p : GcPolicy) (inputs : List Version) (v : Version) :
    Decidable (p.Keeps inputs v) := inferInstanceAs (Decidable (_ ∧ _))

variable {p : GcPolicy}

structure KeyFlags.Sound (p : GcPolicy) (pre : List Version) (k : Bytes) (f : KeyFlags) : Prop where
  rest : f.dropRestOfKey = true ↔ ∃ w ∈ pre, w.userKey = k ∧ p.expires w = true
  kept : f.dropRestOfKey = false → (f.keptAtOrBelowWatermark = true ↔ ∃ w ∈ pre, w.userKey = k ∧
    p.gcWatermark ≠ 0 ∧ w.seq ≤ p.gcWatermark ∧ p.dropsTombstone w = false)

theorem KeyFlags.sound_fresh {pre : List Version} {k : Bytes} (h : ∀ w ∈ pre, w.userKey ≠ k) :
    KeyFlags.Sound p pre k .fresh := by
  constructor
  · simp only [KeyFlags.fresh, Bool.false_eq_true, false_iff]
    rintro ⟨w, hw, hk, -⟩
    exact h w hw hk
  · intro _
    simp only [KeyFlags.fresh, Bool.false_eq_true, false_iff]
    rintro ⟨w, hw, hk, -⟩
    exact h w hw hk

theorem GcPolicy.dropsTombstone_iff {v : Version} : p.dropsTombstone v = true ↔
    p.gcWatermark ≠ 0 ∧ v.seq ≤ p.gcWatermark ∧ p.dropTombstones = true ∧
      v.entry.isTombstone = true := by
  simp only [dropsTombstone, shouldDropAtCompaction]
  split
  next h => simp [h]
  next h =>
    split
    next hgt => simp [not_le.mpr hgt]
    next hle =>
      split
      next ht => simpa [h, not_lt.mp hle] using ht
      next ht => simpa [h, not_lt.mp hle] using ht

theorem shouldDropAtCompaction_eq (v : Version) (kept : Bool) :
    shouldDropAtCompaction v p.gcWatermark kept p.dropTombstones =
      if p.gcWatermark = 0 ∨ p.gcWatermark < v.seq then (false, kept)
      else if p.dropsTombstone v then (true, kept) else (kept, true) := by
  unfold shouldDropAtCompaction
  by_cases h0 : p.gcWatermark = 0
  · rw [if_pos h0, if_pos (Or.inl h0)]
  · by_cases hgt : v.seq > p.gcWatermark
    · rw [if_neg h0, if_pos hgt, if_pos (Or.inr hgt)]
    · have habove : ¬ (p.gcWatermark = 0 ∨ p.gcWatermark < v.seq) := by omega
      rw [if_neg h0, if_neg hgt, if_neg habove]
      have hiff : (p.dropTombstones && v.entry.isTombstone) = true ↔ p.dropsTombstone v = true := by
        rw [GcPolicy.dropsTombstone_iff, Bool.and_eq_true]
        exact ⟨fun h => ⟨h0, not_lt.mp hgt, h⟩, fun h => h.2.2⟩
      by_cases ht : p.dropsTombstone v = true
      · rw [if_pos (hiff.mpr ht), if_pos ht]
      · rw [if_neg fun h => ht (hiff.mp h), if_neg ht]
        cases kept <;> rfl

theorem exists_mem_concat {P : Version → Prop} {pre : List Version} {v : Version} :
    (∃ w ∈ pre ++ [v], P w) ↔ (∃ w ∈ pre, P w) ∨ P v := by
  simp [or_and_right, exists_or]

/-- A version is kept by what the flags say of the versions before it. -/
theorem dropDecision_sound {pre : List Version} {f : KeyFlags} {v : Version}
    (h : f.Sound p pre v.userKey) :
    ((dropDecision p f v).1 = false ↔ f.dropRestOfKey = false ∧ p.expires v = false ∧
      (p.gcWatermark = 0 ∨ p.gcWatermark < v.seq ∨ p.dropsTombstone v = false ∧
        f.keptAtOrBelowWatermark = false)) ∧
      (dropDecision p f v).2.Sound p (pre ++ [v]) v.userKey := by
  obtain ⟨hrest, hkept⟩ := h
  have hexp : (v.entry.isExpired p.nowMs && !v.entry.isTombstone) = p.expires v := rfl
  unfold dropDecision
  rw [hexp]
  by_cases hd : f.dropRestOfKey = true
  · rw [if_pos hd]
    refine ⟨by simp [hd], ?_, fun hf => absurd (hd.symm.trans hf) (by decide)⟩
    rw [exists_mem_concat, ← hrest]
    simp [hd]
  · have hd' : f.dropRestOfKey = false := by simpa using hd
    have hnone := mt hrest.mpr hd
    rw [if_neg hd]
    by_cases he : p.expires v = true
    · rw [if_pos he]
      refine ⟨by simp [he], ?_, fun hf => absurd hf (by simp)⟩
      rw [exists_mem_concat]
      simp [he]
    · have he' : p.expires v = false := by simpa using he
      rw [if_neg he]
      have hmark := hkept hd'
      simp only
      rw [shouldDropAtCompaction_eq]
      have hrest' : f.dropRestOfKey = true ↔
          ∃ w ∈ pre ++ [v], w.userKey = v.userKey ∧ p.expires w = true := by
        rw [exists_mem_concat, ← hrest]
        simp [he']
      by_cases habove : p.gcWatermark = 0 ∨ p.gcWatermark < v.seq
      · rw [if_pos habove]
        refine ⟨?_, hrest', fun _ => ?_⟩
        · rcases habove with h0 | hlt
          · simp [hd', he', h0]
          · simp [hd', he', hlt]
        · rw [exists_mem_concat, hmark]
          refine (or_iff_left ?_).symm
          rintro ⟨-, hne, hle, -⟩
          rcases habove with h0 | hlt
          · exact hne h0
          · omega
      · obtain ⟨hne, hle⟩ := not_or.mp habove
        have hle := not_lt.mp hle
        rw [if_neg habove]
        by_cases ht : p.dropsTombstone v = true
        · rw [if_pos ht]
          refine ⟨by simp [ht, hne, hle], hrest', fun _ => ?_⟩
          rw [exists_mem_concat, hmark]
          simp [ht]
        · have ht' : p.dropsTombstone v = false := by simpa using ht
          rw [if_neg ht]
          refine ⟨?_, hrest', fun _ => ?_⟩
          · simp [hd', he', ht', hne, hle]
          · rw [exists_mem_concat]
            simp [ht', hne, hle]

section Merge

variable {pre l : List Version} {a : Version} {f : KeyFlags}

section

variable (hsort : (pre ++ a :: l).Pairwise Version.le)
include hsort

theorem expires_iff_flags (hco : Coherent (pre ++ a :: l)) (hf : f.Sound p pre a.userKey) :
    (∀ w ∈ pre ++ a :: l, w.userKey = a.userKey → a.seq ≤ w.seq → p.expires w = false) ↔
      f.dropRestOfKey = false ∧ p.expires a = false := by
  obtain ⟨-, hal, hcross⟩ := List.pairwise_append.mp hsort
  have hrest : f.dropRestOfKey = false ↔ ∀ w ∈ pre, w.userKey = a.userKey → p.expires w = false := by
    rw [← Bool.not_eq_true, hf.rest]
    simp
  rw [hrest]
  constructor
  · intro h
    refine ⟨fun w hw hk => h w (List.mem_append_left _ hw) hk ?_, h a (by simp) rfl le_rfl⟩
    exact Version.le_seq (hcross w hw a List.mem_cons_self) hk
  · rintro ⟨h1, h2⟩ w hw hk hle
    rcases List.mem_append.mp hw with hpre | hal'
    · exact h1 w hpre hk
    · rcases List.mem_cons.mp hal' with rfl | hl
      · exact h2
      · have hge : w.seq ≤ a.seq := Version.le_seq ((List.pairwise_cons.mp hal).1 w hl) hk.symm
        rw [hco w hw a (by simp) hk (le_antisymm hge hle)]
        exact h2

theorem keeps_of_turn (hco : Coherent (pre ++ a :: l)) (hf : f.Sound p pre a.userKey) :
    ((dropDecision p f a).1 = false → p.Keeps (pre ++ a :: l) a) ∧
      (p.Keeps (pre ++ a :: l) a → (dropDecision p f a).1 = false ∨ a ∈ pre) := by
  obtain ⟨-, hal, hcross⟩ := List.pairwise_append.mp hsort
  rw [(dropDecision_sound hf).1]
  unfold GcPolicy.Keeps
  rw [expires_iff_flags hsort hco hf]
  constructor
  · rintro ⟨hd, he, hmark⟩
    refine ⟨⟨hd, he⟩, hmark.imp_right (Or.imp_right fun ⟨ht, hk⟩ => ⟨ht, fun w hw hkey hlt hle => ?_⟩)⟩
    by_contra hnt
    rcases List.mem_append.mp hw with hpre | hal'
    · have hne : p.gcWatermark ≠ 0 := by omega
      exact absurd ((hf.kept hd).mpr ⟨w, hpre, hkey, hne, hle, by simpa using hnt⟩) (by simp [hk])
    · rcases List.mem_cons.mp hal' with rfl | hl
      · omega
      · have hge : w.seq ≤ a.seq := Version.le_seq ((List.pairwise_cons.mp hal).1 w hl) hkey.symm
        omega
  · rintro ⟨⟨hd, he⟩, h0 | hlt | ⟨ht, hall⟩⟩
    · exact Or.inl ⟨hd, he, Or.inl h0⟩
    · exact Or.inl ⟨hd, he, Or.inr (Or.inl hlt)⟩
    · by_cases hk : f.keptAtOrBelowWatermark = true
      · obtain ⟨w, hw, hkey, -, hle, hnt⟩ := (hf.kept hd).mp hk
        have hwm : w ∈ pre ++ a :: l := List.mem_append_left _ hw
        rcases Nat.lt_or_eq_of_le (Version.le_seq (hcross w hw a List.mem_cons_self) hkey) with
          hlt | heq
        · exact absurd (hall w hwm hkey hlt hle) (by simp [hnt])
        · exact Or.inr (hco w hwm a (by simp) hkey heq.symm ▸ hw)
      · exact Or.inl ⟨hd, he, Or.inr (Or.inr ⟨ht, by simpa using hk⟩)⟩

theorem flagsAt_sound (hf : f.Sound p pre a.userKey) : ∀ w ∈ l,
      (flagsAt (some a.userKey) (dropDecision p f a).2 w).Sound p (pre ++ [a]) w.userKey := by
  obtain ⟨-, hal, hcross⟩ := List.pairwise_append.mp hsort
  intro w hw
  unfold flagsAt
  split
  next hk =>
    rw [← Option.some.inj hk]
    exact (dropDecision_sound hf).2
  next hk =>
    have haw : a.userKey < w.userKey :=
      lt_of_le_of_ne (Version.le_userKey ((List.pairwise_cons.mp hal).1 w hw)) fun h => hk (by rw [h])
    apply KeyFlags.sound_fresh
    intro u hu
    rcases List.mem_append.mp hu with hu | hu
    · exact (lt_of_le_of_lt (Version.le_userKey (hcross u hu a List.mem_cons_self)) haw).ne
    · rw [List.mem_singleton.mp hu]
      exact haw.ne

end

end Merge

theorem mem_survivors_of_sound {pre l : List Version} {last : Option Bytes} {f : KeyFlags}
    (hsort : (pre ++ l).Pairwise Version.le) (hco : Coherent (pre ++ l))
    (hf : ∀ w ∈ l, (flagsAt last f w).Sound p pre w.userKey) (v : Version) :
    (v ∈ survivors p last f l → p.Keeps (pre ++ l) v) ∧
      (v ∈ l → p.Keeps (pre ++ l) v → v ∈ pre ∨ v ∈ survivors p last f l) := by
  induction l generalizing pre last f with
  | nil => simp [survivors]
  | cons a l ih =>
    have ha := hf a List.mem_cons_self
    obtain ⟨hturn, hrule⟩ := keeps_of_turn hsort hco ha
    have happ : pre ++ a :: l = (pre ++ [a]) ++ l := by simp
    have hnext := flagsAt_sound hsort ha
    rw [happ] at hsort hco
    obtain ⟨hin, hout⟩ := ih hsort hco hnext
    rw [← happ] at hin hout
    have hself : p.Keeps (pre ++ a :: l) a → a ∈ pre ∨ a ∈ survivors p last f (a :: l) := by
      intro hk
      rcases hrule hk with hd | hpre
      · refine Or.inr ?_
        rw [survivors]
        simp only [hd, Bool.false_eq_true, if_false]
        exact List.mem_cons_self
      · exact Or.inl hpre
    constructor
    · intro hv
      rw [survivors] at hv
      split at hv
      next => exact hin hv
      next hd =>
        rcases List.mem_cons.mp hv with rfl | hv
        · exact hturn (by simpa using hd)
        · exact hin hv
    · intro hv hk
      rcases List.mem_cons.mp hv with rfl | hv
      · exact hself hk
      · rcases hout hv hk with hpre | hsv
        · rcases List.mem_append.mp hpre with hpre | hva
          · exact Or.inl hpre
          · cases List.mem_singleton.mp hva
            exact hself hk
        · refine Or.inr ?_
          rw [survivors]
          split
          next => exact hsv
          next => exact List.mem_cons_of_mem _ hsv

theorem mem_compactionRuns {n : Nat} {sources : List (List Version)}
    (hs : ∀ src ∈ sources, src.Pairwise Version.le) (hc : Coherent sources.flatten) {v : Version} :
    v ∈ (compactionRuns p n sources).flatten ↔ v ∈ sources.flatten ∧ p.Keeps sources.flatten v := by
  have hsort := mergeRaw_sorted hs
  have hmem : ∀ w, w ∈ mergeRaw sources ↔ w ∈ sources.flatten := fun w => by
    rw [mem_mergeRaw, List.mem_flatten]
  have hkeeps : p.Keeps (mergeRaw sources) v ↔ p.Keeps sources.flatten v := by
    simp only [GcPolicy.Keeps, hmem]
  have hco : Coherent ([] ++ mergeRaw sources) := hc.sublist fun w hw => (hmem w).mp hw
  have hfresh : ∀ w ∈ mergeRaw sources, (flagsAt none .fresh w).Sound p [] w.userKey := fun w _ =>
    KeyFlags.sound_fresh (by simp)
  obtain ⟨hin, hout⟩ := mem_survivors_of_sound hsort hco hfresh v
  rw [compactionRuns_flatten]
  constructor
  · intro hv
    exact ⟨(hmem v).mp ((survivors_sublist _ _ _ _).subset hv), hkeeps.mp (hin hv)⟩
  · rintro ⟨hv, hk⟩
    exact (hout ((hmem v).mpr hv) (hkeeps.mpr hk)).resolve_left (by simp)

end ZydecoDb
