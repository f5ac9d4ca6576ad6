import ZydecoDb.Keys
import Mathlib.Data.List.AList

namespace ZydecoDb

structure Slot where
  value : Bytes
  lastAccess : Nat
deriving DecidableEq

structure ResultCache where
  map : AList fun _ : Bytes => Slot
  bytesUsed : Nat
  capacity : Nat
  accessCounter : Nat

namespace ResultCache

def new (capacityBytes : Nat) : ResultCache := ⟨∅, 0, capacityBytes, 0⟩

def nextAccess (c : ResultCache) : Nat := (c.accessCounter + 1) % 2 ^ 64

def peek (c : ResultCache) (key : Bytes) : Option Bytes := (c.map.lookup key).map Slot.value

def get (c : ResultCache) (key : Bytes) : Option Bytes × ResultCache :=
  match c.map.lookup key with
  | some slot => (some slot.value, { c with
      map := c.map.insert key { slot with lastAccess := c.nextAccess }
      accessCounter := c.nextAccess })
  | none => (none, { c with accessCounter := c.nextAccess })

/-- The eviction loop: the entry with the oldest stamp goes, the last one never. A turn removes one
entry, so as many turns as entries are enough. -/
def evict : Nat → ResultCache → ResultCache
  | 0, c => c
  | n + 1, c =>
    if c.capacity < c.bytesUsed ∧ 1 < c.map.entries.length then
      match c.map.entries.argmin fun e => e.2.lastAccess with
      | some victim => evict n { c with
          map := c.map.erase victim.1
          bytesUsed := c.bytesUsed - (victim.1.length + victim.2.value.length) }
      | none => c
    else c

def insert (c : ResultCache) (key value : Bytes) : ResultCache :=
  let freed := match c.map.lookup key with
    | some prev => c.bytesUsed - (key.length + prev.value.length)
    | none => c.bytesUsed
  let map := c.map.insert key ⟨value, c.nextAccess⟩
  evict map.entries.length { c with
    map := map
    bytesUsed := min (freed + (key.length + value.length)) (2 ^ 64 - 1)
    accessCounter := c.nextAccess }

def invalidate (c : ResultCache) (key : Bytes) : ResultCache :=
  match c.map.lookup key with
  | some slot => { c with
      map := c.map.erase key
      bytesUsed := c.bytesUsed - (key.length + slot.value.length) }
  | none => c

variable {c : ResultCache} {key k value b : Bytes}

@[simp] theorem peek_new (capacityBytes : Nat) : (new capacityBytes).peek key = none := rfl

theorem get_fst : (c.get key).1 = c.peek key := by
  unfold get peek
  cases c.map.lookup key <;> rfl

theorem peek_get : (c.get key).2.peek k = c.peek k := by
  unfold get
  cases h : c.map.lookup key with
  | none => rfl
  | some slot =>
    by_cases hk : k = key
    · subst hk
      simp [peek, AList.lookup_insert, h]
    · simp [peek, AList.lookup_insert_ne hk]

theorem peek_of_evict {n : Nat} (h : (evict n c).peek k = some b) : c.peek k = some b := by
  induction n generalizing c with
  | zero => exact h
  | succ n ih =>
    rw [evict] at h
    split at h
    next =>
      split at h
      next victim hv =>
        have hrest := ih h
        by_cases hk : k = victim.1
        · subst hk
          simp [peek, AList.lookup_erase] at hrest
        · simpa [peek, AList.lookup_erase_ne hk] using hrest
      next => exact h
    next => exact h

theorem peek_of_insert (h : (c.insert key value).peek k = some b) :
    k = key ∧ b = value ∨ k ≠ key ∧ c.peek k = some b := by
  have hmap := peek_of_evict h
  by_cases hk : k = key
  · subst hk
    refine Or.inl ⟨rfl, ?_⟩
    simpa [peek, AList.lookup_insert, eq_comm] using hmap
  · refine Or.inr ⟨hk, ?_⟩
    simpa [peek, AList.lookup_insert_ne hk] using hmap

theorem peek_of_invalidate (h : (c.invalidate key).peek k = some b) :
    k ≠ key ∧ c.peek k = some b := by
  unfold invalidate at h
  split at h
  next slot hs =>
    by_cases hk : k = key
    · subst hk
      simp [peek, AList.lookup_erase] at h
    · exact ⟨hk, by simpa [peek, AList.lookup_erase_ne hk] using h⟩
  next hn =>
    refine ⟨?_, h⟩
    rintro rfl
    simp [peek, hn] at h

end ResultCache

end ZydecoDb
