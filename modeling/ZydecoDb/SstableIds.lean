import ZydecoDb.Lib.Run

namespace ZydecoDb

open Lib

inductive TableWriter
  | flush
  | compaction
deriving DecidableEq, Repr

/-- The shared id counter, the owner's copy of it, and the window of a catalog publish between its
load of the counter and its store. `written` lists the ids handed to table files, latest first. -/
structure IdState where
  nextSstableIdAtomic : Nat
  nextSstableId : Nat
  publishing : Bool
  written : List Nat
deriving DecidableEq, Repr

def IdState.opened (live : List Nat) : IdState where
  nextSstableIdAtomic := live.foldl max 0 + 1
  nextSstableId := live.foldl max 0 + 1
  publishing := false
  written := []

inductive IdAction
  | fetchAdd (writer : TableWriter)
  | publishLoad (addMetas : List Nat)
  | publishStore
deriving DecidableEq, Repr

/-- One atomic access to the counter. The publish step takes two of them: the load, which the owner
folds into its own copy with the ids it publishes, and the store of that copy. -/
def IdState.step (s : IdState) : IdAction → Option IdState
  | .fetchAdd _ =>
    some { s with nextSstableIdAtomic := s.nextSstableIdAtomic + 1
                  written := s.nextSstableIdAtomic :: s.written }
  | .publishLoad addMetas =>
    if !s.publishing && addMetas.all (s.written.contains ·) then
      some { s with nextSstableId :=
                      addMetas.foldl (fun next id => max next (id + 1))
                        (max s.nextSstableId s.nextSstableIdAtomic)
                    publishing := true }
    else none
  | .publishStore =>
    if s.publishing then
      some { s with nextSstableIdAtomic := s.nextSstableId, publishing := false }
    else none

def OutsidePublish (s : IdState) : IdAction → Prop
  | .fetchAdd _ => s.publishing = false
  | _ => True

instance (s : IdState) : (a : IdAction) → Decidable (OutsidePublish s a)
  | .fetchAdd _ => inferInstanceAs (Decidable (s.publishing = false))
  | .publishLoad _ => isTrue trivial
  | .publishStore => isTrue trivial

structure IdState.Fresh (live : List Nat) (s : IdState) : Prop where
  nodup : s.written.Nodup
  below : ∀ id ∈ s.written, id < s.nextSstableIdAtomic
  above_live : ∀ id ∈ s.written, ∀ l ∈ live, l < id
  live_below : ∀ l ∈ live, l < s.nextSstableIdAtomic
  loaded : s.publishing = true → s.nextSstableIdAtomic ≤ s.nextSstableId

theorem le_foldl_max {l : List Nat} {n id : Nat} (h : id ≤ n ∨ id ∈ l) : id ≤ l.foldl max n := by
  induction l generalizing n with
  | nil => simpa using h
  | cons a l ih =>
    apply ih
    rcases h with h | h
    · exact Or.inl (le_trans h (le_max_left _ _))
    · rcases List.mem_cons.mp h with rfl | h
      · exact Or.inl (le_max_right _ _)
      · exact Or.inr h

theorem le_foldl_succ_max {l : List Nat} {n : Nat} :
    n ≤ l.foldl (fun next id => max next (id + 1)) n := by
  induction l generalizing n with
  | nil => exact le_rfl
  | cons a l ih => exact le_trans (le_max_left _ _) ih

theorem IdState.fresh_opened (live : List Nat) : (IdState.opened live).Fresh live where
  nodup := List.nodup_nil
  below := by simp [IdState.opened]
  above_live := by simp [IdState.opened]
  live_below := fun _ hl => Nat.lt_succ_of_le (le_foldl_max (Or.inr hl))
  loaded := by simp [IdState.opened]

/-- Numbers drawn outside a publish are new. -/
theorem IdState.fresh_step {live : List Nat} {s s' : IdState} {a : IdAction}
    (hs : s.Fresh live) (hc : OutsidePublish s a) (h : s.step a = some s') : s'.Fresh live := by
  cases a with
  | fetchAdd writer =>
    cases Option.some.inj h
    refine ⟨List.nodup_cons.mpr ⟨fun hm => absurd (hs.below _ hm) (lt_irrefl _), hs.nodup⟩,
      ?_, ?_, fun l hl => Nat.lt_succ_of_lt (hs.live_below l hl), ?_⟩
    · intro id hid
      rcases List.mem_cons.mp hid with rfl | hid
      · exact Nat.lt_succ_self _
      · exact Nat.lt_succ_of_lt (hs.below id hid)
    · intro id hid l hl
      rcases List.mem_cons.mp hid with rfl | hid
      · exact hs.live_below l hl
      · exact hs.above_live id hid l hl
    · intro hp
      simp [OutsidePublish] at hc
      simp [hc] at hp
  | publishLoad addMetas =>
    simp only [IdState.step] at h
    obtain ⟨-, ⟨⟩⟩ := Option.ite_none_right_eq_some.mp h
    exact ⟨hs.nodup, hs.below, hs.above_live, hs.live_below,
      fun _ => le_trans (le_max_right _ _) le_foldl_succ_max⟩
  | publishStore =>
    simp only [IdState.step] at h
    obtain ⟨hp, ⟨⟩⟩ := Option.ite_none_right_eq_some.mp h
    have hle := hs.loaded hp
    exact ⟨hs.nodup, fun id hid => lt_of_lt_of_le (hs.below id hid) hle, hs.above_live,
      fun l hl => lt_of_lt_of_le (hs.live_below l hl) hle, by simp⟩

/-- While no worker takes an id inside a publish, every table file of the instance gets an id of its
own, above the ids of the tables that were live when it opened. -/
theorem sstableIds_unique (live : List Nat) (actions : List IdAction) (s : IdState)
    (hc : MeetsAlong IdState.step OutsidePublish (IdState.opened live) actions)
    (hr : runFrom IdState.step (IdState.opened live) actions = some s) :
    s.written.Nodup ∧ ∀ id ∈ s.written, id ∉ live := by
  have hs : s.Fresh live :=
    runFrom_invariant (fun _ _ _ => IdState.fresh_step) (IdState.fresh_opened live) hc hr
  exact ⟨hs.nodup, fun id hid hl => lt_irrefl id (hs.above_live id hid id hl)⟩

/-- A flush and a compaction draw numbers outside the publish of the other. -/
theorem sstableIds_unique_two_writers :
    ∃ s, runFrom IdState.step (IdState.opened [3])
        [.fetchAdd .flush, .fetchAdd .compaction, .publishLoad [4], .publishStore,
          .fetchAdd .flush] = some s ∧ s.written = [6, 5, 4] ∧ s.written.Nodup :=
  ⟨_, rfl, rfl, (sstableIds_unique [3]
    [.fetchAdd .flush, .fetchAdd .compaction, .publishLoad [4], .publishStore, .fetchAdd .flush] _
    (by decide) rfl).1⟩

/-- Four tables are live. The compaction worker takes id 6 after the publish of table 5 has loaded the
counter; the store sets the counter back to 6, and the flush worker writes its next table over that
file. -/
theorem sstableIds_repeated_across_publish :
    ∃ s, runFrom IdState.step (IdState.opened [1, 2, 3, 4])
        [.fetchAdd .flush, .publishLoad [5], .fetchAdd .compaction, .publishStore,
          .fetchAdd .flush] = some s ∧ s.written = [6, 6, 5] ∧ ¬ s.written.Nodup :=
  ⟨_, rfl, rfl, by decide⟩

end ZydecoDb
