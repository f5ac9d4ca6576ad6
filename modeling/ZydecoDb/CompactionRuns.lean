import ZydecoDb.CompactionWorker

namespace ZydecoDb

def KeysBelow (c d : List Version) : Prop := ∀ x ∈ c, ∀ y ∈ d, x.userKey < y.userKey

structure MergeState.Separated (s : MergeState) (rest : List Version) : Prop where
  runs : (s.outputs ++ [s.pending]).Pairwise KeysBelow
  nonempty : ∀ c ∈ s.outputs, c ≠ []
  pending_le : ∀ x ∈ s.pending, ∃ b ∈ s.lastUserKey, x.userKey ≤ b
  ahead : ∀ c ∈ s.outputs, KeysBelow c rest
  ascending : rest.Pairwise fun a b => a.userKey ≤ b.userKey
  low : ∀ b ∈ s.lastUserKey, ∀ w ∈ rest, b ≤ w.userKey

theorem MergeState.separated_cut {s : MergeState} {v : Version} {vs : List Version} {n : Nat}
    (h : s.Separated (v :: vs)) : (s.cut n v).Separated (v :: vs) := by
  unfold cut
  split
  next hc =>
    have hlt : KeysBelow s.pending (v :: vs) := by
      intro x hx w hw
      obtain ⟨b, hb, hxb⟩ := h.pending_le x hx
      have hbv : b < v.userKey :=
        lt_of_le_of_ne (h.low b hb v List.mem_cons_self) fun he => hc.1 (he ▸ hb)
      have hvw : v.userKey ≤ w.userKey := by
        rcases List.mem_cons.mp hw with rfl | hw
        · exact le_rfl
        · exact (List.pairwise_cons.mp h.ascending).1 w hw
      exact lt_of_le_of_lt hxb (lt_of_lt_of_le hbv hvw)
    refine ⟨?_, ?_, by simp, ?_, h.ascending, h.low⟩
    · refine List.pairwise_append.mpr ⟨h.runs, List.pairwise_singleton _ _, ?_⟩
      intro c _ d hd
      cases List.mem_singleton.mp hd
      simp [KeysBelow]
    · intro c hcm
      rcases List.mem_append.mp hcm with hcm | hcm
      · exact h.nonempty c hcm
      · cases List.mem_singleton.mp hcm; exact hc.2.2
    · intro c hcm
      rcases List.mem_append.mp hcm with hcm | hcm
      · exact h.ahead c hcm
      · cases List.mem_singleton.mp hcm; exact hlt
  next => exact h

theorem MergeState.separated_step {p : GcPolicy} {s : MergeState} {v : Version} {vs : List Version}
    {n : Nat} (h : s.Separated (v :: vs)) : (s.step p n v).Separated vs := by
  have hcut : (s.cut n v).Separated (v :: vs) := separated_cut h
  obtain ⟨hv, hvs⟩ := List.pairwise_cons.mp h.ascending
  obtain ⟨houts, -, hpend⟩ := List.pairwise_append.mp hcut.runs
  have hpending_le : ∀ x ∈ (s.cut n v).pending, x.userKey ≤ v.userKey := by
    intro x hx
    obtain ⟨b, hb, hxb⟩ := hcut.pending_le x hx
    exact hxb.trans (hcut.low b hb v List.mem_cons_self)
  have hahead : ∀ c ∈ (s.cut n v).outputs, KeysBelow c vs := fun c hc x hx w hw =>
    hcut.ahead c hc x hx w (List.mem_cons_of_mem _ hw)
  have hlow : ∀ b ∈ some v.userKey, ∀ w ∈ vs, b ≤ w.userKey := by
    intro b hb w hw
    cases Option.mem_some_iff.mp hb
    exact hv w hw
  simp only [step]
  split
  next =>
    exact ⟨hcut.runs, hcut.nonempty, fun x hx => ⟨v.userKey, rfl, hpending_le x hx⟩, hahead, hvs, hlow⟩
  next =>
    refine ⟨?_, hcut.nonempty, ?_, hahead, hvs, hlow⟩
    · refine List.pairwise_append.mpr ⟨houts, List.pairwise_singleton _ _, ?_⟩
      intro c hc d hd x hx y hy
      cases List.mem_singleton.mp hd
      rcases List.mem_append.mp hy with hy | hy
      · exact hpend c hc _ (List.mem_singleton.mpr rfl) x hx y hy
      · cases List.mem_singleton.mp hy
        exact hcut.ahead c hc x hx v List.mem_cons_self
    · intro x hx
      refine ⟨v.userKey, rfl, ?_⟩
      rcases List.mem_append.mp hx with hx | hx
      · exact hpending_le x hx
      · cases List.mem_singleton.mp hx; exact le_rfl

theorem MergeState.separated_foldl {p : GcPolicy} {n : Nat} {l : List Version} {s : MergeState}
    (h : s.Separated l) : (l.foldl (MergeState.step p n) s).Separated [] := by
  induction l generalizing s with
  | nil => exact h
  | cons v vs ih => exact ih (separated_step h)

section Runs

variable {p : GcPolicy} {n : Nat} {sources : List (List Version)}

section

variable (hs : ∀ src ∈ sources, src.Pairwise Version.le)
include hs

theorem mergeRaw_separated : MergeState.init.Separated (mergeRaw sources) where
  runs := List.pairwise_singleton _ _
  nonempty := by simp [MergeState.init]
  pending_le := by simp [MergeState.init]
  ahead := by simp [MergeState.init]
  ascending := keyAscending_of_sorted (mergeRaw_sorted hs)
  low := by simp [MergeState.init]

/-- Outputs do not share keys. -/
theorem compactionRuns_keysBelow : (compactionRuns p n sources).Pairwise KeysBelow := by
  have h := MergeState.separated_foldl (p := p) (n := n) (mergeRaw_separated hs)
  unfold compactionRuns MergeState.runs
  split
  next => exact (List.pairwise_append.mp h.runs).1
  next => exact h.runs

theorem compactionRuns_ne_nil : ∀ c ∈ compactionRuns p n sources, c ≠ [] := by
  have h := MergeState.separated_foldl (p := p) (n := n) (mergeRaw_separated hs)
  intro c hc
  unfold compactionRuns MergeState.runs at hc
  split at hc
  next => exact h.nonempty c hc
  next hne =>
    rcases List.mem_append.mp hc with hc | hc
    · exact h.nonempty c hc
    · cases List.mem_singleton.mp hc; exact hne

end

theorem compactionRuns_sublist {c : List Version} (hc : c ∈ compactionRuns p n sources) :
    c.Sublist (mergeRaw sources) := by
  have h := List.sublist_flatten_of_mem hc
  rw [compactionRuns_flatten] at h
  exact h.trans (survivors_sublist _ _ _ _)

theorem compactionRuns_sorted (hs : ∀ src ∈ sources, src.Pairwise Version.le) :
    ∀ c ∈ compactionRuns p n sources, c.Pairwise Version.le := fun _ hc =>
  (mergeRaw_sorted hs).sublist (compactionRuns_sublist hc)

theorem mem_of_mem_compactionRuns {c : List Version} {v : Version}
    (hc : c ∈ compactionRuns p n sources) (hv : v ∈ c) : ∃ src ∈ sources, v ∈ src :=
  mem_mergeRaw.mp ((compactionRuns_sublist hc).subset hv)

theorem not_live_of_lost (hs : ∀ src ∈ sources, src.Pairwise Version.le) {v : Version}
    (hv : newest (mergeRaw sources) v.userKey = some v)
    (hlost : ∀ c ∈ compactionRuns p n sources, v ∉ c) : v.entry.isLive p.nowMs = false := by
  have hsort := mergeRaw_sorted hs
  rw [newest, Lib.newest_eq_find (newestFirst_of_sorted hsort)] at hv
  have hd : v ∉ survivors p none .fresh (mergeRaw sources) := by
    rw [← compactionRuns_flatten p n]
    intro hm
    obtain ⟨c, hc, hvc⟩ := List.mem_flatten.mp hm
    exact hlost c hc hvc
  refine not_live_of_dropped (keyAscending_of_sorted hsort) ?_ ?_ hv hd
  · simp
  · simp

end Runs

end ZydecoDb
