import ZydecoDb.Memtable

namespace ZydecoDb

structure SstableMeta where
  id : Nat
  level : Nat
  minKey : Bytes
  maxKey : Bytes
  minSeq : Nat
  maxSeq : Nat
  sizeBytes : Nat
deriving DecidableEq, Repr

structure SstableReader where
  entries : List Version
  bloom : Option (Bytes → Bool)

structure LoadedSstable where
  metadata : SstableMeta
  reader : SstableReader

namespace SstableReader

def mightContain (r : SstableReader) (userKey : Bytes) : Bool :=
  match r.bloom with
  | some maybeContains => maybeContains userKey
  | none => true

def getLatest (r : SstableReader) (userKey : Bytes) : Option Version :=
  r.entries.find? fun v => v.userKey = userKey

def rangeIter (r : SstableReader) (lo hi : Bytes) : List Version :=
  r.entries.filter fun v => lo ≤ v.userKey ∧ (hi = [] ∨ v.userKey < hi)

end SstableReader

def nextUserKey (key : Bytes) : Bytes := (Lib.bump key).getD (key ++ [0x00])

theorem lt_nextUserKey (key : Bytes) : key < nextUserKey key := by
  unfold nextUserKey
  cases h : Lib.bump key with
  | none => exact Lib.lt_append_singleton key 0x00
  | some q => exact Lib.lt_bump h

def newestVisibleInSstable (r : SstableReader) (userKey : Bytes) (seqUpper : Nat) : Option Version :=
  (r.rangeIter userKey (nextUserKey userKey)).find? fun v =>
    v.userKey = userKey ∧ v.seq ≤ seqUpper

/-! Sizes of the file `build` writes. -/

def encodeEntryLen (v : Version) : Nat := 25 + v.userKey.length + v.entry.valueLen

def blockFirstKeys : Nat → List Version → List Bytes
  | _, [] => []
  | len, v :: vs =>
    let len' := len + encodeEntryLen v
    let rest := blockFirstKeys (if len' ≥ sstableBlockSize then 0 else len') vs
    if len = 0 then v.userKey :: rest else rest

def bloomLen (n : Nat) : Nat := 4 + (max (n * 10) 64 + 7) / 8

def indexLen (firstKeys : List Bytes) : Nat := 4 + (firstKeys.map fun k => 28 + k.length).sum

section

variable (entries : List Version)

def sstableLen (withBloom : Bool) : Nat :=
  let firstKeys := blockFirstKeys 0 entries
  (entries.map encodeEntryLen).sum + 4 * firstKeys.length +
    (if withBloom && !entries.isEmpty then bloomLen entries.length + 4 else 0) +
    (indexLen firstKeys + 4) + 40

def minKeyOf : Bytes :=
  entries.foldl (fun m v => if m.isEmpty || v.userKey < m then v.userKey else m) []

def maxKeyOf : Bytes :=
  entries.foldl (fun m v => if m < v.userKey then v.userKey else m) []

def minSeqOf : Nat :=
  let m := entries.foldl (fun m v => min m v.seq) u64Max
  if m = u64Max then 0 else m

def maxSeqOf : Nat :=
  entries.foldl (fun m v => max m v.seq) 0

end

def buildSstable (id level : Nat) (entries : List Version) (bloom : Option (Bytes → Bool)) :
    LoadedSstable where
  metadata :=
    { id, level
      minKey := minKeyOf entries
      maxKey := maxKeyOf entries
      minSeq := minSeqOf entries
      maxSeq := maxSeqOf entries
      sizeBytes := sstableLen entries bloom.isSome }
  reader := { entries, bloom }

/-- A table as the writers leave it: pairs in order, a filter without false negatives, and metadata
that spans the pairs and is attained by them. -/
structure LoadedSstable.WellFormed (t : LoadedSstable) : Prop where
  sorted : t.reader.entries.Pairwise Version.le
  bloom_sound : ∀ v ∈ t.reader.entries, t.reader.mightContain v.userKey = true
  minKey_le : ∀ v ∈ t.reader.entries, t.metadata.minKey ≤ v.userKey
  le_maxKey : ∀ v ∈ t.reader.entries, v.userKey ≤ t.metadata.maxKey
  minKey_mem : ∃ v ∈ t.reader.entries, v.userKey = t.metadata.minKey
  maxKey_mem : ∃ v ∈ t.reader.entries, v.userKey = t.metadata.maxKey
  le_maxSeq : ∀ v ∈ t.reader.entries, v.seq ≤ t.metadata.maxSeq
  maxSeq_mem : ∃ v ∈ t.reader.entries, v.seq = t.metadata.maxSeq

variable {l : List Version}

/-- A fold that at each pair keeps its value or takes the pair's ends in the least it has met, in an
order and among the values its steps lead to. -/
theorem foldl_select {β : Type} {r : β → β → Prop} [Std.Refl r] [IsTrans β r] {I : β → Prop}
    {g : Version → β} {f : β → Version → β} {m : β}
    (hf : ∀ m, I m → ∀ v ∈ l, I (f m v) ∧ r (f m v) m ∧ r (f m v) (g v) ∧
      (f m v = m ∨ f m v = g v)) (hm : I m) :
    (∀ v ∈ l, r (l.foldl f m) (g v)) ∧ r (l.foldl f m) m ∧
      (l.foldl f m = m ∨ ∃ v ∈ l, g v = l.foldl f m) := by
  induction l generalizing m with
  | nil => exact ⟨by simp, Std.Refl.refl m, Or.inl rfl⟩
  | cons a l ih =>
    obtain ⟨hI, hacc, hg, hone⟩ := hf m hm a List.mem_cons_self
    obtain ⟨h1, h2, h3⟩ := ih (fun m hm v hv => hf m hm v (List.mem_cons_of_mem _ hv)) hI
    refine ⟨List.forall_mem_cons.mpr ⟨IsTrans.trans _ _ _ h2 hg, h1⟩, IsTrans.trans _ _ _ h2 hacc, ?_⟩
    rcases h3 with h3 | ⟨v, hv, hvr⟩
    · rw [List.foldl_cons, h3]
      exact hone.imp_right fun hone => ⟨a, List.mem_cons_self, hone.symm⟩
    · exact Or.inr ⟨v, List.mem_cons_of_mem _ hv, hvr⟩

theorem minKeyOf_spec (hne : l ≠ []) (hk : ∀ v ∈ l, v.userKey ≠ []) :
    (∀ v ∈ l, minKeyOf l ≤ v.userKey) ∧ ∃ v ∈ l, v.userKey = minKeyOf l := by
  cases l with
  | nil => exact absurd rfl hne
  | cons a l =>
    obtain ⟨h1, h2, h3⟩ := foldl_select (r := fun a b : Bytes => a ≤ b) (I := fun m => m ≠ [])
      (g := Version.userKey) (l := l)
      (f := fun m v => if m.isEmpty || v.userKey < m then v.userKey else m) (fun m hm v hv => by
        have hemp : m.isEmpty = false := by cases m <;> simp_all
        simp only [hemp, Bool.false_or, decide_eq_true_eq]
        split
        next hlt => exact ⟨hk v (List.mem_cons_of_mem _ hv), hlt.le, le_rfl, Or.inr rfl⟩
        next hle => exact ⟨hm, le_rfl, not_lt.mp hle, Or.inl rfl⟩) (hk a List.mem_cons_self)
    simp only [minKeyOf, List.foldl_cons, List.isEmpty_nil, Bool.true_or, ite_true]
    refine ⟨List.forall_mem_cons.mpr ⟨h2, h1⟩, ?_⟩
    rcases h3 with h3 | ⟨v, hv, hvr⟩
    · exact ⟨a, List.mem_cons_self, h3.symm⟩
    · exact ⟨v, List.mem_cons_of_mem _ hv, hvr⟩

theorem foldl_greatest {β : Type} [LinearOrder β] {g : Version → β} {f : β → Version → β} {m : β}
    (hf : ∀ m v, f m v = max m (g v)) (hm : ∀ b, m ≤ b) (hne : l ≠ []) :
    (∀ v ∈ l, g v ≤ l.foldl f m) ∧ ∃ v ∈ l, g v = l.foldl f m := by
  obtain ⟨h1, -, h3⟩ := foldl_select (r := fun a b : β => b ≤ a) (I := fun _ => True) (g := g) (l := l)
    (fun m _ v _ => ⟨trivial, hf m v ▸ le_max_left _ _, hf m v ▸ le_max_right _ _,
      hf m v ▸ max_choice _ _⟩) (m := m) trivial
  refine ⟨h1, h3.elim (fun h3 => ?_) id⟩
  obtain ⟨a, l', rfl⟩ := List.exists_cons_of_ne_nil hne
  have ha := h1 a List.mem_cons_self
  rw [h3] at ha
  exact ⟨a, List.mem_cons_self, (le_antisymm ha (hm _)).trans h3.symm⟩

theorem maxKeyOf_spec (hne : l ≠ []) :
    (∀ v ∈ l, v.userKey ≤ maxKeyOf l) ∧ ∃ v ∈ l, v.userKey = maxKeyOf l :=
  foldl_greatest (fun m v => by rw [max_def_lt]; congr) Lib.nil_le hne

theorem maxSeqOf_spec (hne : l ≠ []) :
    (∀ v ∈ l, v.seq ≤ maxSeqOf l) ∧ ∃ v ∈ l, v.seq = maxSeqOf l :=
  foldl_greatest (fun _ _ => rfl) Nat.zero_le hne

theorem buildSstable_wellFormed {id level : Nat} {entries : List Version}
    {bloom : Option (Bytes → Bool)} (hs : entries.Pairwise Version.le) (hne : entries ≠ [])
    (hk : ∀ v ∈ entries, v.userKey ≠ [])
    (hb : ∀ f ∈ bloom, ∀ v ∈ entries, f v.userKey = true) :
    (buildSstable id level entries bloom).WellFormed where
  sorted := hs
  bloom_sound := by
    intro v hv
    cases bloom with
    | none => rfl
    | some f => exact hb f rfl v hv
  minKey_le := (minKeyOf_spec hne hk).1
  le_maxKey := (maxKeyOf_spec hne).1
  minKey_mem := (minKeyOf_spec hne hk).2
  maxKey_mem := (maxKeyOf_spec hne).2
  le_maxSeq := (maxSeqOf_spec hne).1
  maxSeq_mem := (maxSeqOf_spec hne).2

end ZydecoDb
