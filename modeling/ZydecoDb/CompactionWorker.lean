import ZydecoDb.CompactionPlanner
import ZydecoDb.Merge

namespace ZydecoDb

structure GcPolicy where
  gcWatermark : Nat
  dropTombstones : Bool
  nowMs : Nat
deriving DecidableEq, Repr

structure KeyFlags where
  keptAtOrBelowWatermark : Bool
  dropRestOfKey : Bool
deriving DecidableEq, Repr

def KeyFlags.fresh : KeyFlags := ⟨false, false⟩

/-- Whether a version goes, and the flag it leaves. A dropped tombstone leaves the flag as it was. -/
def shouldDropAtCompaction (v : Version) (gcWatermark : Nat) (keptAtOrBelow : Bool)
    (dropTombstones : Bool) : Bool × Bool :=
  if gcWatermark = 0 then (false, keptAtOrBelow)
  else if v.seq > gcWatermark then (false, keptAtOrBelow)
  else if dropTombstones && v.entry.isTombstone then (true, keptAtOrBelow)
  else if !keptAtOrBelow then (false, true)
  else (true, keptAtOrBelow)

def dropDecision (p : GcPolicy) (f : KeyFlags) (v : Version) : Bool × KeyFlags :=
  if f.dropRestOfKey then (true, f)
  else if v.entry.isExpired p.nowMs && !v.entry.isTombstone then
    (true, { f with dropRestOfKey := true })
  else
    let d := shouldDropAtCompaction v p.gcWatermark f.keptAtOrBelowWatermark p.dropTombstones
    (d.1, { f with keptAtOrBelowWatermark := d.2 })

structure MergeState where
  lastUserKey : Option Bytes
  flags : KeyFlags
  pending : List Version
  pendingBytes : Nat
  outputs : List (List Version)

def MergeState.init : MergeState := ⟨none, .fresh, [], 0, []⟩

def flagsAt (last : Option Bytes) (f : KeyFlags) (v : Version) : KeyFlags :=
  if last = some v.userKey then f else .fresh

def MergeState.cut (s : MergeState) (targetFileBytes : Nat) (v : Version) : MergeState :=
  if s.lastUserKey ≠ some v.userKey ∧ targetFileBytes ≤ s.pendingBytes ∧ s.pending ≠ [] then
    { s with pending := [], pendingBytes := 0, outputs := s.outputs ++ [s.pending] }
  else s

def MergeState.step (p : GcPolicy) (targetFileBytes : Nat) (s : MergeState) (v : Version) :
    MergeState :=
  let d := dropDecision p (flagsAt s.lastUserKey s.flags v) v
  let s := s.cut targetFileBytes v
  if d.1 then { s with lastUserKey := some v.userKey, flags := d.2 }
  else
    { s with
      lastUserKey := some v.userKey
      flags := d.2
      pendingBytes := s.pendingBytes + (32 + v.entry.valueLen + v.userKey.length)
      pending := s.pending ++ [v] }

def MergeState.runs (s : MergeState) : List (List Version) :=
  if s.pending = [] then s.outputs else s.outputs ++ [s.pending]

def compactionRuns (p : GcPolicy) (targetFileBytes : Nat) (sources : List (List Version)) :
    List (List Version) :=
  ((mergeRaw sources).foldl (MergeState.step p targetFileBytes) .init).runs

def survivors (p : GcPolicy) : Option Bytes → KeyFlags → List Version → List Version
  | _, _, [] => []
  | last, f, v :: vs =>
    let d := dropDecision p (flagsAt last f v) v
    if d.1 then survivors p (some v.userKey) d.2 vs
    else v :: survivors p (some v.userKey) d.2 vs

theorem MergeState.runs_flatten (s : MergeState) :
    s.runs.flatten = s.outputs.flatten ++ s.pending := by
  unfold runs
  split
  next h => simp [h]
  next => simp

theorem MergeState.cut_runs (s : MergeState) (n : Nat) (v : Version) :
    (s.cut n v).runs = s.runs := by
  unfold cut
  split
  next h => simp [runs, h.2.2]
  next => rfl

theorem foldl_step_flatten {p : GcPolicy} {n : Nat} (l : List Version) (s : MergeState) :
    (l.foldl (MergeState.step p n) s).runs.flatten =
      s.runs.flatten ++ survivors p s.lastUserKey s.flags l := by
  induction l generalizing s with
  | nil => simp [survivors]
  | cons v vs ih =>
    rw [List.foldl_cons, ih, survivors]
    have hcut := congrArg List.flatten (s.cut_runs n v)
    rw [MergeState.runs_flatten] at hcut
    rw [← hcut]
    simp only [MergeState.step]
    split <;> simp [MergeState.runs_flatten]

theorem compactionRuns_flatten (p : GcPolicy) (n : Nat) (sources : List (List Version)) :
    (compactionRuns p n sources).flatten = survivors p none .fresh (mergeRaw sources) := by
  rw [compactionRuns, foldl_step_flatten]
  rfl

theorem survivors_sublist (p : GcPolicy) (l : List Version) (last : Option Bytes) (f : KeyFlags) :
    (survivors p last f l).Sublist l := by
  induction l generalizing last f with
  | nil => exact List.Sublist.slnil
  | cons v vs ih =>
    rw [survivors]
    split
    next => exact (ih _ _).cons v
    next => exact (ih _ _).cons_cons v

theorem dropDecision_fresh {p : GcPolicy} {v : Version} (h : (dropDecision p .fresh v).1 = true) :
    v.entry.isLive p.nowMs = false := by
  unfold dropDecision at h
  simp only [KeyFlags.fresh, Bool.false_eq_true, ite_false] at h
  split at h
  next he =>
    simp only [Bool.and_eq_true] at he
    simp [Entry.isLive, he.1]
  next =>
    simp only [shouldDropAtCompaction] at h
    split at h
    next => simp at h
    next =>
      split at h
      next => simp at h
      next =>
        split at h
        next ht =>
          simp only [Bool.and_eq_true] at ht
          simp [Entry.isLive, ht.2]
        next => simp at h

/-- A newest version that the merge drops was a tombstone or expired. -/
theorem not_live_of_dropped {p : GcPolicy} {l : List Version} {v : Version} {last : Option Bytes}
    {f : KeyFlags} (hl : l.Pairwise fun a b => a.userKey ≤ b.userKey)
    (hlast : ∀ b ∈ last, ∀ w ∈ l, b ≤ w.userKey) (hne : last ≠ some v.userKey)
    (hv : l.find? (fun w => w.userKey = v.userKey) = some v) (hd : v ∉ survivors p last f l) :
    v.entry.isLive p.nowMs = false := by
  induction l generalizing last f with
  | nil => simp at hv
  | cons a l ih =>
    obtain ⟨ha, hl⟩ := List.pairwise_cons.mp hl
    rw [survivors] at hd
    by_cases hk : a.userKey = v.userKey
    · rw [List.find?_cons_of_pos (by simpa using hk)] at hv
      cases Option.some.inj hv
      split at hd
      next hdrop =>
        rw [flagsAt, if_neg hne] at hdrop
        exact dropDecision_fresh hdrop
      next => exact absurd List.mem_cons_self hd
    · rw [List.find?_cons_of_neg (by simpa using hk)] at hv
      have hlow : ∀ b ∈ some a.userKey, ∀ w ∈ l, b ≤ w.userKey := by
        intro b hb w hw
        cases Option.mem_some_iff.mp hb
        exact ha w hw
      refine ih hl hlow (by simpa using hk) hv (fun hm => hd ?_) (f :=
        (dropDecision p (flagsAt last f a) a).2)
      split
      next => exact hm
      next => exact List.mem_cons_of_mem _ hm

end ZydecoDb
