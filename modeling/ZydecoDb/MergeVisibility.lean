import ZydecoDb.CatalogReads
import ZydecoDb.GcRule

namespace ZydecoDb

open Lib

/-- A reader at or above the watermark, at the job's clock or later, finds of the key the same in the
output as in the inputs. -/
def GcPolicy.SameOutcomes (p : GcPolicy) (inputs outputs : List Version) (k : Bytes) : Prop :=
  ∀ seqUpper nowMs, p.gcWatermark ≤ seqUpper → p.nowMs ≤ nowMs →
    outcome (newestAt outputs k seqUpper) nowMs = outcome (newestAt inputs k seqUpper) nowMs

/-- What the inputs must be for that: no version a reader is shown lies under an expired one, and no
value lies under a tombstone the job drops, unless an expired version takes it along. -/
structure GcPolicy.Transparent (p : GcPolicy) (inputs : List Version) (k : Bytes) : Prop where
  shown : ∀ seqUpper v, p.gcWatermark ≤ seqUpper → newestAt inputs k seqUpper = some v →
    v.entry.isLive p.nowMs = true →
      ∀ w ∈ inputs, w.userKey = k → v.seq ≤ w.seq → p.expires w = false
  deleted : ∀ w, newestAt inputs k p.gcWatermark = some w → p.gcWatermark ≠ 0 →
    p.dropTombstones = true → w.entry.isTombstone = true →
      ∀ v ∈ inputs, v.userKey = k → v.seq < w.seq → v.entry.isTombstone = false →
        ∃ u ∈ inputs, u.userKey = k ∧ v.seq ≤ u.seq ∧ p.expires u = true

section Merge

variable {p : GcPolicy} {inputs outputs : List Version} {k : Bytes} {v : Version} {s : Nat}
  (hc : Coherent inputs) (hout : ∀ v, v ∈ outputs ↔ v ∈ inputs ∧ p.Keeps inputs v)

include hc hout

theorem newestAt_output_of_keeps (hv : newestAt inputs k s = some v) (hk : p.Keeps inputs v) :
    newestAt outputs k s = some v := by
  obtain ⟨hmem, hkey, hle, hmax⟩ := (newestAt_eq_some hc).mp hv
  have hco : Coherent outputs := hc.sublist fun w hw => ((hout w).mp hw).1
  exact (newestAt_eq_some hco).mpr ⟨(hout v).mpr ⟨hmem, hk⟩, hkey, hle,
    fun w hw hwk hws => hmax w ((hout w).mp hw).1 hwk hws⟩

theorem newestAt_output_of_expires (hv : newestAt inputs k s = some v) {u : Version}
    (hu : u ∈ inputs) (huk : u.userKey = k) (hle : v.seq ≤ u.seq) (hexp : p.expires u = true) :
    newestAt outputs k s = none := by
  obtain ⟨-, -, -, hmax⟩ := (newestAt_eq_some hc).mp hv
  rw [newestAt_eq_none]
  intro w hw hwk
  obtain ⟨hwin, hkeeps, -⟩ := (hout w).mp hw
  by_contra hws
  have hwv := hmax w hwin hwk (not_lt.mp hws)
  have hfalse := hkeeps u hu (huk.trans hwk.symm) (hwv.trans hle)
  exact absurd (hexp.symm.trans hfalse) (by decide)

omit hout in
theorem keeps_of_shown (hs : p.gcWatermark ≤ s) (hv : newestAt inputs k s = some v) :
    p.Keeps inputs v ∨
      (∃ u ∈ inputs, u.userKey = k ∧ v.seq ≤ u.seq ∧ p.expires u = true) ∨
      p.dropsTombstone v = true := by
  obtain ⟨-, hkey, -, hmax⟩ := (newestAt_eq_some hc).mp hv
  by_cases hexp : ∃ u ∈ inputs, u.userKey = k ∧ v.seq ≤ u.seq ∧ p.expires u = true
  · exact Or.inr (Or.inl hexp)
  · by_cases htomb : p.dropsTombstone v = true
    · exact Or.inr (Or.inr htomb)
    · refine Or.inl ⟨fun w hw hwk hle => ?_, Or.inr (Or.inr ⟨by simpa using htomb, ?_⟩)⟩
      · by_contra hne
        exact hexp ⟨w, hw, hwk.trans hkey, hle, by simpa using hne⟩
      · -- nothing of the key lies between the version shown and the watermark
        intro w hw hwk hlt hle
        have hge := hmax w hw (hwk.trans hkey) (hle.trans hs)
        omega

section Deleted

variable (hmark : p.gcWatermark ≠ 0) (hdrop : p.dropTombstones = true)

include hmark hdrop

omit hc hout in
theorem dropsTombstone_iff_isTombstone (hle : v.seq ≤ p.gcWatermark) :
    p.dropsTombstone v = true ↔ v.entry.isTombstone = true := by
  rw [GcPolicy.dropsTombstone_iff]
  exact ⟨fun h => h.2.2.2, fun h => ⟨hmark, hle, hdrop, h⟩⟩

omit hc in
theorem isLive_of_output (hv : v ∈ outputs) (hle : v.seq ≤ p.gcWatermark) :
    v.entry.isLive p.nowMs = true := by
  obtain ⟨hin, hfresh, hmarks⟩ := (hout v).mp hv
  have htomb : v.entry.isTombstone = false := by
    rcases hmarks with h0 | hlt | ⟨hnot, -⟩
    · exact absurd h0 hmark
    · omega
    · rw [← Bool.not_eq_true, dropsTombstone_iff_isTombstone hmark hdrop hle] at hnot
      simpa using hnot
  have hexp := hfresh v hin rfl le_rfl
  simp only [GcPolicy.expires, htomb, Bool.not_false, Bool.and_true] at hexp
  simp [Entry.isLive, htomb, hexp]

omit hout in
theorem keeps_newest_value {x : Version}
    (hx : newestAt (inputs.filter fun u => !u.entry.isTombstone) k p.gcWatermark = some x)
    (hfresh : ∀ u ∈ inputs, u.userKey = k → x.seq ≤ u.seq → p.expires u = false) :
    p.Keeps inputs x := by
  have hco : Coherent (inputs.filter fun u => !u.entry.isTombstone) :=
    hc.sublist fun w hw => (List.mem_filter.mp hw).1
  obtain ⟨hmem, hkey, -, hmax⟩ := (newestAt_eq_some hco).mp hx
  obtain ⟨-, hval⟩ := List.mem_filter.mp hmem
  refine ⟨fun u hu huk hle => hfresh u hu (huk.trans hkey) hle, Or.inr (Or.inr ⟨?_, ?_⟩)⟩
  · exact GcPolicy.dropsTombstone_eq_false (by simpa using hval)
  · intro u hu huk hlt hle
    rw [dropsTombstone_iff_isTombstone hmark hdrop hle]
    by_contra hut
    have hge := hmax u (List.mem_filter.mpr ⟨hu, by simpa using hut⟩) (huk.trans hkey) hle
    omega

/-- Nothing is read at the watermark exactly when an expired version covers each value. -/
theorem outcome_output_eq_none_iff :
    outcome (newestAt outputs k p.gcWatermark) p.nowMs = none ↔
      ∀ w ∈ inputs, w.userKey = k → w.seq ≤ p.gcWatermark → w.entry.isTombstone = false →
        ∃ u ∈ inputs, u.userKey = k ∧ w.seq ≤ u.seq ∧ p.expires u = true := by
  have hco : Coherent outputs := hc.sublist fun w hw => ((hout w).mp hw).1
  have hcv : Coherent (inputs.filter fun u => !u.entry.isTombstone) :=
    hc.sublist fun w hw => (List.mem_filter.mp hw).1
  constructor
  · intro hnone w hw hwk hle hval
    by_contra hfree
    -- the newest value is kept, so the output shows it or one above it
    obtain ⟨x, hx⟩ : ∃ x, newestAt (inputs.filter fun u => !u.entry.isTombstone) k p.gcWatermark =
        some x := by
      refine Option.ne_none_iff_exists'.mp fun hn => ?_
      have habove := newestAt_eq_none.mp hn w (List.mem_filter.mpr ⟨hw, by simpa using hval⟩) hwk
      omega
    obtain ⟨hxmem, hxk, hxle, hxmax⟩ := (newestAt_eq_some hcv).mp hx
    have hwx := hxmax w (List.mem_filter.mpr ⟨hw, by simpa using hval⟩) hwk hle
    have hkeeps : p.Keeps inputs x := by
      refine keeps_newest_value hc hmark hdrop hx fun u hu huk hxu => ?_
      by_contra hne
      exact hfree ⟨u, hu, huk, hwx.trans hxu, by simpa using hne⟩
    have hxout : x ∈ outputs := (hout x).mpr ⟨(List.mem_filter.mp hxmem).1, hkeeps⟩
    cases hn : newestAt outputs k p.gcWatermark with
    | none =>
      have habove := newestAt_eq_none.mp hn x hxout hxk
      omega
    | some y =>
      obtain ⟨hyout, -, hyle, -⟩ := (newestAt_eq_some hco).mp hn
      have hlive := isLive_of_output hout hmark hdrop hyout hyle
      have hdead := outcome_eq_none.mp (hn ▸ hnone) y rfl
      exact absurd (hlive.symm.trans hdead) (by decide)
  · intro hall
    rw [outcome_eq_none]
    intro y hy
    obtain ⟨hyout, hyk, hyle, -⟩ := (newestAt_eq_some hco).mp hy
    obtain ⟨hyin, hfresh, -⟩ := (hout y).mp hyout
    by_contra hlive
    have hval : y.entry.isTombstone = false := by
      simp only [Entry.isLive, Bool.not_eq_false, Bool.and_eq_true, Bool.not_eq_true'] at hlive
      exact hlive.1
    obtain ⟨u, hu, huk, hle, hexp⟩ := hall y hyin hyk hyle hval
    have hnot := hfresh u hu (huk.trans hyk.symm) hle
    exact absurd (hexp.symm.trans hnot) (by decide)

end Deleted

theorem newestAt_output_of_tombstone (hs : p.gcWatermark ≤ s) (hv : newestAt inputs k s = some v)
    (hle : v.seq ≤ p.gcWatermark) : newestAt outputs k s = newestAt outputs k p.gcWatermark := by
  have hco : Coherent outputs := hc.sublist fun w hw => ((hout w).mp hw).1
  obtain ⟨-, -, -, hmax⟩ := (newestAt_eq_some hc).mp hv
  cases hn : newestAt outputs k s with
  | none =>
    rw [newestAt_eq_none] at hn
    exact (newestAt_eq_none.mpr fun w hw hwk => hs.trans_lt (hn w hw hwk)).symm
  | some y =>
    obtain ⟨hy, hyk, hys, hymax⟩ := (newestAt_eq_some hco).mp hn
    have hyv := hmax y ((hout y).mp hy).1 hyk hys
    exact ((newestAt_eq_some hco).mpr ⟨hy, hyk, hyv.trans hle,
      fun w hw hwk hws => hymax w hw hwk (hws.trans hs)⟩).symm

theorem sameOutcomes_of_transparent (h : p.Transparent inputs k) :
    p.SameOutcomes inputs outputs k := by
  intro s t hs ht
  cases hv : newestAt inputs k s with
  | none =>
    rw [newestAt_eq_none] at hv
    have hn : newestAt outputs k s = none := newestAt_eq_none.mpr fun w hw => hv w ((hout w).mp hw).1
    rw [hn]
  | some v =>
    obtain ⟨hvin, hkey, -, hmax⟩ := (newestAt_eq_some hc).mp hv
    rcases keeps_of_shown hc hs hv with hkeeps | ⟨u, hu, huk, hle, hexp⟩ | htomb
    · rw [newestAt_output_of_keeps hc hout hv hkeeps]
    · have hdead : v.entry.isLive p.nowMs = false := by
        by_contra hlive
        have hnot := h.shown s v hs hv (by simpa using hlive) u hu huk hle
        exact absurd (hexp.symm.trans hnot) (by decide)
      rw [newestAt_output_of_expires hc hout hv hu huk hle hexp]
      refine (outcome_eq_none.mpr fun w hw => ?_).symm
      cases Option.mem_some_iff.mp hw
      exact Entry.isLive_antitone ht hdead
    · obtain ⟨hmark, hle, hdrop, hv'⟩ := GcPolicy.dropsTombstone_iff.mp htomb
      have hatMark : newestAt inputs k p.gcWatermark = some v :=
        (newestAt_eq_some hc).mpr ⟨hvin, hkey, hle, fun w hw hwk hws => hmax w hw hwk (hws.trans hs)⟩
      have hnone : outcome (newestAt outputs k p.gcWatermark) p.nowMs = none := by
        refine (outcome_output_eq_none_iff hc hout hmark hdrop).mpr fun w hw hwk hwle hval => ?_
        have hwv := hmax w hw hwk (hwle.trans hs)
        have hne : w.seq ≠ v.seq := fun heq => by
          rw [hc w hw v hvin (hwk.trans hkey.symm) heq] at hval
          exact absurd (hv'.symm.trans hval) (by decide)
        exact h.deleted v hatMark hmark hdrop hv' w hw hwk (by omega) hval
      rw [newestAt_output_of_tombstone hc hout hs hv hle]
      have hlater : outcome (newestAt outputs k p.gcWatermark) t = none :=
        outcome_eq_none.mpr fun w hw => Entry.isLive_antitone ht (outcome_eq_none.mp hnone w hw)
      have hinput : outcome (some v) t = none := by
        refine outcome_eq_none.mpr fun w hw => ?_
        cases Option.mem_some_iff.mp hw
        simp [Entry.isLive, hv']
      rw [hlater, hinput]

theorem transparent_of_sameOutcomes (h : p.SameOutcomes inputs outputs k) :
    p.Transparent inputs k := by
  constructor
  · intro s v hs hv hlive u hu huk hle
    by_contra hexp
    have hsame := h s p.nowMs hs le_rfl
    rw [newestAt_output_of_expires hc hout hv hu huk hle (by simpa using hexp), hv] at hsame
    have hdead := outcome_eq_none.mp hsame.symm v rfl
    exact absurd (hlive.symm.trans hdead) (by decide)
  · intro w hw hmark hdrop htomb v hv hvk hlt hval
    have hsame := h p.gcWatermark p.nowMs le_rfl le_rfl
    have hinput : outcome (newestAt inputs k p.gcWatermark) p.nowMs = none := by
      rw [hw]
      refine outcome_eq_none.mpr fun x hx => ?_
      cases Option.mem_some_iff.mp hx
      simp [Entry.isLive, htomb]
    obtain ⟨-, -, hle, -⟩ := (newestAt_eq_some hc).mp hw
    exact (outcome_output_eq_none_iff hc hout hmark hdrop).mp (hsame.trans hinput) v hv hvk
      (by omega) hval

end Merge

/-- A compaction whose tables hold all versions of a key shows readers the same of it exactly when no
version they are shown lies under an expired one and no value lies under a tombstone it drops. -/
theorem merge_preserves_visibility (p : GcPolicy) (targetFileBytes : Nat)
    (tables : List (List Version)) (sorted : ∀ t ∈ tables, t.Pairwise Version.le)
    (coherent : Coherent tables.flatten) (k : Bytes) :
    p.SameOutcomes tables.flatten (compactionRuns p targetFileBytes tables).flatten k ↔
      p.Transparent tables.flatten k := by
  have hout : ∀ v, v ∈ (compactionRuns p targetFileBytes tables).flatten ↔
      v ∈ tables.flatten ∧ p.Keeps tables.flatten v := fun v => mem_compactionRuns sorted coherent
  exact ⟨transparent_of_sameOutcomes coherent hout, sameOutcomes_of_transparent coherent hout⟩

def deletedKeyTables : List (List Version) :=
  [[⟨[1], 2, .tombstone⟩], [⟨[1], 1, .value [7] none⟩]]

/-- A tombstone that may not be dropped is carried into the output. -/
theorem deletedKey_carried_on : GcPolicy.Transparent ⟨2, false, 10⟩ deletedKeyTables.flatten [1] ∧
    GcPolicy.SameOutcomes ⟨2, false, 10⟩ deletedKeyTables.flatten
      (compactionRuns ⟨2, false, 10⟩ 64 deletedKeyTables).flatten [1] := by
  have hfresh : ∀ w ∈ deletedKeyTables.flatten, GcPolicy.expires ⟨2, false, 10⟩ w = false := by decide
  have hopen : GcPolicy.Transparent ⟨2, false, 10⟩ deletedKeyTables.flatten [1] :=
    ⟨fun _ _ _ _ _ w hw _ _ => hfresh w hw, fun _ _ _ h => absurd h (by decide)⟩
  exact ⟨hopen, (merge_preserves_visibility ⟨2, false, 10⟩ 64 deletedKeyTables (by decide)
    (by unfold Coherent Lib.Coherent; decide) [1]).mpr hopen⟩

/-- Compacted into the last level with no snapshot open, the key reads back as the value it had. -/
theorem dropped_tombstone_reveals_value :
    ¬ GcPolicy.SameOutcomes ⟨2, true, 10⟩ deletedKeyTables.flatten
      (compactionRuns ⟨2, true, 10⟩ 64 deletedKeyTables).flatten [1] := by
  intro h
  exact absurd (h 2 10 le_rfl le_rfl) (by decide +kernel)

end ZydecoDb
