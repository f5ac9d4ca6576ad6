import ZydecoDb.Keys

namespace ZydecoDb

structure Memtable where
  entries : List Version
  sorted : entries.Pairwise Version.le

namespace Memtable

def empty : Memtable := ⟨[], List.Pairwise.nil⟩

def isEmpty (mt : Memtable) : Bool := mt.entries.isEmpty

def insertEntry (v : Version) : List Version → List Version
  | [] => [v]
  | w :: ws =>
    if v.internalKey = w.internalKey then v :: ws
    else if v.le w then v :: w :: ws
    else w :: insertEntry v ws

theorem mem_insertEntry {v x : Version} {l : List Version} (h : x ∈ insertEntry v l) :
    x = v ∨ x ∈ l := by
  induction l with
  | nil => exact Or.inl (by simpa [insertEntry] using h)
  | cons w ws ih =>
    simp only [insertEntry] at h
    split at h
    next => exact (List.mem_cons.mp h).imp_right (List.mem_cons_of_mem _)
    next =>
      split at h
      next => exact List.mem_cons.mp h
      next =>
        rcases List.mem_cons.mp h with rfl | h
        · exact Or.inr List.mem_cons_self
        · exact (ih h).imp_right (List.mem_cons_of_mem _)

theorem mem_insertEntry_self (v : Version) (l : List Version) : v ∈ insertEntry v l := by
  induction l with
  | nil => simp [insertEntry]
  | cons w ws ih =>
    simp only [insertEntry]
    split
    next => exact List.mem_cons_self
    next =>
      split
      next => exact List.mem_cons_self
      next => exact List.mem_cons_of_mem _ ih

theorem mem_insertEntry_of_ne {v x : Version} {l : List Version} (hx : x ∈ l)
    (hne : v.internalKey ≠ x.internalKey) : x ∈ insertEntry v l := by
  induction l with
  | nil => simp at hx
  | cons w ws ih =>
    simp only [insertEntry]
    split
    next he =>
      rcases List.mem_cons.mp hx with rfl | hx
      · exact absurd he hne
      · exact List.mem_cons_of_mem _ hx
    next =>
      split
      next => exact List.mem_cons_of_mem _ hx
      next =>
        rcases List.mem_cons.mp hx with rfl | hx
        · exact List.mem_cons_self
        · exact List.mem_cons_of_mem _ (ih hx)

theorem insertEntry_sorted {v : Version} {l : List Version} (h : l.Pairwise Version.le) :
    (insertEntry v l).Pairwise Version.le := by
  induction l with
  | nil => exact List.pairwise_singleton _ _
  | cons w ws ih =>
    obtain ⟨hw, hws⟩ := List.pairwise_cons.mp h
    simp only [insertEntry]
    split
    next he =>
      refine List.pairwise_cons.mpr ⟨fun x hx => ?_, hws⟩
      have hwx := hw x hx
      unfold Version.le at hwx ⊢
      rwa [he]
    next =>
      split
      next hvw =>
        refine List.pairwise_cons.mpr ⟨fun x hx => ?_, h⟩
        rcases List.mem_cons.mp hx with rfl | hx
        · exact hvw
        · exact IsTrans.trans _ _ _ hvw (hw x hx)
      next hvw =>
        refine List.pairwise_cons.mpr ⟨fun x hx => ?_, ih hws⟩
        rcases mem_insertEntry hx with rfl | hx
        · exact (Std.Total.total w x).resolve_right hvw
        · exact hw x hx

def insert (mt : Memtable) (v : Version) : Memtable :=
  ⟨insertEntry v mt.entries, insertEntry_sorted mt.sorted⟩

def entryFootprintLen (v : Version) : Nat := v.userKey.length + v.entry.valueLen + 8 + 1 + 8 + 48

def sizeBytes (mt : Memtable) : Nat := (mt.entries.map entryFootprintLen).sum

/-- The seek to `(user_key, u64::MAX, Value)`: no sequence number is above `u64::MAX`, so it stops at
the first pair whose user key is not below. -/
def seek (mt : Memtable) (userKey : Bytes) : List Version :=
  mt.entries.dropWhile fun v => v.userKey < userKey

def getLatest (mt : Memtable) (userKey : Bytes) : Option Version :=
  (mt.seek userKey).head?.filter fun v => v.userKey = userKey

def firstVisible (mt : Memtable) (userKey : Bytes) (seqUpper : Nat) : Option Version :=
  if seqUpper = u64Max then mt.getLatest userKey
  else ((mt.seek userKey).takeWhile fun v => v.userKey = userKey).find? fun v => v.seq ≤ seqUpper

/-- The pairs of `[lo, hi)`. The map refuses an inverted range unless it is empty: `none` stands for
that panic. -/
def rangeInternal (mt : Memtable) (lo hi : Bytes) : Option (List Version) :=
  if hi < lo ∧ ¬ mt.isEmpty then none
  else some (mt.entries.filter fun v => lo ≤ v.userKey ∧ v.userKey < hi)

end Memtable

theorem newestFirst_of_sorted {l : List Version} (h : l.Pairwise Version.le) :
    l.Pairwise fun a b => a.userKey = b.userKey → b.seq ≤ a.seq :=
  h.imp Version.le_seq

theorem keyAscending_of_sorted {l : List Version} (h : l.Pairwise Version.le) :
    l.Pairwise fun a b => a.userKey ≤ b.userKey :=
  h.imp Version.le_userKey

theorem find_seek_run {l : List Version} {k : Bytes} {p : Version → Bool}
    (h : l.Pairwise fun a b => a.userKey ≤ b.userKey) :
    ((l.dropWhile fun v => v.userKey < k).takeWhile fun v => v.userKey = k).find? p =
      l.find? fun v => v.userKey = k && p v := by
  induction l with
  | nil => rfl
  | cons a l ih =>
    obtain ⟨ha, hl⟩ := List.pairwise_cons.mp h
    by_cases hlt : a.userKey < k
    · simp only [List.dropWhile_cons, hlt, decide_true, ite_true, ih hl, List.find?_cons,
        hlt.ne, decide_false, Bool.false_and]
    · have hge : k ≤ a.userKey := not_lt.mp hlt
      rw [List.dropWhile_cons_of_neg (by simpa using hlt)]
      clear ih h
      induction l generalizing a with
      | nil => by_cases hk : a.userKey = k <;> simp [List.find?_cons, hk]
      | cons b l ih =>
        by_cases hk : a.userKey = k
        · obtain ⟨hb, hl'⟩ := List.pairwise_cons.mp hl
          have hab := ha b List.mem_cons_self
          rw [List.takeWhile_cons_of_pos (by simpa using hk), List.find?_cons, List.find?_cons,
            ih b hb hl' (by rw [← hk]; exact not_lt.mpr hab) (by rw [← hk]; exact hab)]
          simp [hk]
        · have hgt : k < a.userKey := lt_of_le_of_ne hge (Ne.symm hk)
          rw [List.takeWhile_cons_of_neg (by simpa using hk), List.find?_nil, eq_comm,
            List.find?_eq_none]
          intro v hv
          have hv' : k < v.userKey := by
            rcases List.mem_cons.mp hv with rfl | hv
            · exact hgt
            · exact lt_of_lt_of_le hgt (ha v hv)
          simp [hv'.ne']

theorem find_seek_head {l : List Version} {k : Bytes}
    (h : l.Pairwise fun a b => a.userKey ≤ b.userKey) :
    (l.dropWhile fun v => v.userKey < k).head?.filter (fun v => v.userKey = k) =
      l.find? fun v => v.userKey = k := by
  have hrun := find_seek_run (k := k) (p := fun _ => true) h
  simp only [Bool.and_true] at hrun
  rw [← hrun]
  cases l.dropWhile fun v => v.userKey < k with
  | nil => rfl
  | cons a l =>
    by_cases hk : a.userKey = k <;> simp [Option.filter, hk]

theorem Memtable.firstVisible_eq_newestAt (mt : Memtable) (k : Bytes) (s : Nat)
    (hmax : ∀ v ∈ mt.entries, v.seq ≤ u64Max) :
    mt.firstVisible k s = newestAt mt.entries k s := by
  have hasc := keyAscending_of_sorted mt.sorted
  rw [newestAt, Lib.newestAt_eq_find (newestFirst_of_sorted mt.sorted)]
  unfold firstVisible
  split
  next hs =>
    rw [getLatest, seek, find_seek_head hasc]
    refine List.find?_congr fun v hv => ?_
    simp [hs, hmax v hv]
  next =>
    rw [seek, find_seek_run hasc]
    refine List.find?_congr fun v _ => ?_
    simp

end ZydecoDb
