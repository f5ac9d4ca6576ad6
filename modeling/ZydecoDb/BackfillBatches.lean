import ZydecoDb.Document.Backfill

namespace ZydecoDb

open Lib

def readGroups (rowOps : Bytes × Bytes → DocResult (List BatchOp)) :
    List (DocResult (Bytes × Bytes)) → List (List BatchOp)
  | [] => []
  | item :: items =>
    match item.bind rowOps with
    | .error _ => []
    | .ok ops => ops :: readGroups rowOps items

theorem readGroups_all {rowOps : Bytes × Bytes → DocResult (List BatchOp)} {n : Nat}
    (h : ∀ row ops, rowOps row = .ok ops → ops.length ≤ n)
    (items : List (DocResult (Bytes × Bytes))) :
    ∀ g ∈ readGroups rowOps items, g.length ≤ n := by
  induction items with
  | nil => simp [readGroups]
  | cons item items ih =>
    rw [readGroups]
    cases hitem : item.bind rowOps with
    | error e => simp
    | ok ops =>
      intro g hg
      rcases List.mem_cons.mp hg with rfl | hg
      · cases item with
        | error e => cases hitem
        | ok row => exact h row g hitem
      · exact ih g hg

section Rows

variable {engine : BackfillEngine} {rowOps : Bytes × Bytes → DocResult (List BatchOp)}

theorem submitBatch_fst {α : Type} (sent : List (List BatchOp)) (ops : List BatchOp) (a : α) :
    (submitBatch engine sent ops a).1 = sent ++ [ops] := rfl

variable {sent : List (List BatchOp)} {pending : List BatchOp}
  {items : List (DocResult (Bytes × Bytes))}

theorem mem_writeRows {n : Nat} {b : List BatchOp}
    (hb : b ∈ (writeRows engine rowOps sent pending n items).1) :
    b ∈ sent ∨ b ∈ chunks maxBatchKeys pending (readGroups rowOps items) := by
  induction items generalizing sent pending n with
  | nil =>
    rw [writeRows] at hb
    rw [readGroups, chunks]
    split at hb
    next => exact Or.inl hb
    next hp =>
      rw [submitBatch_fst, List.mem_append] at hb
      rw [if_neg hp]
      exact hb
  | cons item items ih =>
    rw [writeRows] at hb
    rw [readGroups]
    cases hitem : item.bind rowOps with
    | error e =>
      rw [hitem] at hb
      exact Or.inl hb
    | ok ops =>
      rw [hitem] at hb
      dsimp only at hb ⊢
      rw [chunks]
      split at hb
      next hfull =>
        rw [if_pos hfull]
        have hsent : b ∈ sent ++ [pending ++ ops] →
            b ∈ sent ∨ b ∈ (pending ++ ops) :: chunks maxBatchKeys [] (readGroups rowOps items) := by
          intro hmem
          rcases List.mem_append.mp hmem with hold | hnew
          · exact Or.inl hold
          · exact Or.inr (List.mem_cons.mpr (Or.inl (List.mem_singleton.mp hnew)))
        unfold submitBatch at hb
        cases hw : engine.writeBatch sent (pending ++ ops) with
        | error e =>
          rw [hw] at hb
          exact hsent hb
        | ok u =>
          rw [hw] at hb
          rcases ih hb with hold | hnew
          · exact hsent hold
          · exact Or.inr (List.mem_cons_of_mem _ hnew)
      next hroom =>
        rw [if_neg hroom]
        exact ih hb

theorem mem_writeRows_of_sent {n : Nat} {b : List BatchOp} (hb : b ∈ sent) :
    b ∈ (writeRows engine rowOps sent pending n items).1 := by
  induction items generalizing sent pending n with
  | nil =>
    rw [writeRows]
    split
    next => exact hb
    next => exact List.mem_append_left _ hb
  | cons item items ih =>
    rw [writeRows]
    cases item.bind rowOps with
    | error e => exact hb
    | ok ops =>
      dsimp only
      split
      next =>
        unfold submitBatch
        cases engine.writeBatch sent (pending ++ ops) with
        | error e => exact List.mem_append_left _ hb
        | ok u => exact ih (List.mem_append_left _ hb)
      next => exact ih hb

theorem writeRows_of_mem (haccept : ∀ sent ops, engine.writeBatch sent ops = .ok ()) {n : Nat}
    (hp : pending.length < maxBatchKeys) {b : List BatchOp}
    (hb : b ∈ chunks maxBatchKeys pending (readGroups rowOps items))
    (hlong : maxBatchKeys < b.length) :
    b ∈ (writeRows engine rowOps sent pending n items).1 := by
  have hlast : ∀ pending : List BatchOp, pending.length < maxBatchKeys →
      b ∉ chunks maxBatchKeys pending [] := by
    intro pending hp hmem
    have hle := length_le_of_mem_chunks (by decide) (by simp) hp hmem
    omega
  induction items generalizing sent pending n with
  | nil => exact absurd hb (hlast pending hp)
  | cons item items ih =>
    rw [readGroups] at hb
    rw [writeRows]
    cases hitem : item.bind rowOps with
    | error e =>
      rw [hitem] at hb
      exact absurd hb (hlast pending hp)
    | ok ops =>
      rw [hitem] at hb
      dsimp only at hb ⊢
      rw [chunks] at hb
      split at hb
      next hfull =>
        rw [if_pos hfull]
        simp only [submitBatch, haccept]
        rcases List.mem_cons.mp hb with rfl | hb
        · exact mem_writeRows_of_sent (List.mem_append_right _ (List.mem_singleton.mpr rfl))
        · exact ih (by decide) hb
      next hroom =>
        rw [if_neg hroom]
        exact ih (by omega) hb

theorem writeRows_gather {ops : Bytes × Bytes → List BatchOp} {rows : List (Bytes × Bytes)}
    (hrows : ∀ row ∈ rows, rowOps row = .ok (ops row)) {more : List (DocResult (Bytes × Bytes))}
    (n : Nat) (hroom : (pending ++ rows.flatMap ops).length < maxBatchKeys) :
    ∃ n', writeRows engine rowOps sent pending n (rows.map .ok ++ more) =
      writeRows engine rowOps sent (pending ++ rows.flatMap ops) n' more := by
  induction rows generalizing pending n with
  | nil => exact ⟨n, by simp⟩
  | cons row rows ih =>
    have hrow : (Except.ok row : DocResult (Bytes × Bytes)).bind rowOps = .ok (ops row) :=
      hrows row List.mem_cons_self
    rw [List.flatMap_cons, ← List.append_assoc] at hroom ⊢
    have hshort : ¬ maxBatchKeys ≤ (pending ++ ops row).length := by
      rw [List.length_append] at hroom
      omega
    rw [List.map_cons, List.cons_append, writeRows, hrow]
    dsimp only
    rw [if_neg hshort]
    exact ih (fun r hr => hrows r (List.mem_cons_of_mem row hr)) _ hroom

end Rows

section Backfill

variable (parseJson : Bytes → Except String Value) (storagePrefix : Bytes) (collectionId : UInt32)
  (idx : IndexMeta)

variable {row : Bytes × Bytes} {ops : List BatchOp}

theorem length_stampRow (h : stampRow parseJson idx row = .ok ops) : ops.length ≤ 1 := by
  unfold stampRow at h
  cases he : backfillEntry parseJson idx row.2 with
  | error e =>
    rw [he] at h
    cases h
  | ok entry =>
    rw [he] at h
    cases entry with
    | none =>
      cases h
      simp
    | some p =>
      have hops := Except.ok.inj h
      subst hops
      dsimp only
      split <;> simp

theorem length_backfillRow (h : backfillRow parseJson storagePrefix collectionId idx row = .ok ops) :
    ops.length ≤ 2 := by
  unfold backfillRow at h
  cases he : backfillEntry parseJson idx row.2 with
  | error e =>
    rw [he] at h
    cases h
  | ok entry =>
    rw [he] at h
    cases entry with
    | none =>
      cases h
      simp
    | some p =>
      have hops := Except.ok.inj h
      subst hops
      dsimp only
      split <;> simp

theorem length_removeRow (h : removeRow row = .ok ops) : ops.length ≤ 1 := by
  cases h
  simp

def documentOps (scan : List (List BatchOp) → Bytes → Bytes → List (DocResult (Bytes × Bytes))) :
    List (List BatchOp) :=
  readGroups (backfillRow parseJson storagePrefix collectionId idx)
    (scan [] (docPrefix storagePrefix collectionId)
      (prefixUpperBound (docPrefix storagePrefix collectionId)))

def PairsFit (groups : List (List BatchOp)) : Prop :=
  ∀ i ops, groups[i]? = some ops → ops.length = 2 →
    (groups.take i).flatten.length % maxBatchKeys ≠ maxBatchKeys - 1

variable {engine : BackfillEngine}

/-- Every batch written is a chunk of the documents' operations or keeps to the limit. -/
theorem backfillIndex_batches {b : List BatchOp}
    (hb : b ∈ (backfillIndex parseJson storagePrefix collectionId idx engine).1) :
    b ∈ chunks maxBatchKeys [] (documentOps parseJson storagePrefix collectionId idx engine.scan) ∨
      b.length ≤ maxBatchKeys := by
  unfold backfillIndex at hb
  dsimp only at hb
  have hfirst : ∀ c ∈ (writeRows engine (backfillRow parseJson storagePrefix collectionId idx) [] [] 0
      (engine.scan [] (docPrefix storagePrefix collectionId)
        (prefixUpperBound (docPrefix storagePrefix collectionId)))).1,
      c ∈ chunks maxBatchKeys [] (documentOps parseJson storagePrefix collectionId idx engine.scan) :=
    fun c hc => (mem_writeRows hc).resolve_left List.not_mem_nil
  generalize hrun : writeRows engine (backfillRow parseJson storagePrefix collectionId idx) [] [] 0
      (engine.scan [] (docPrefix storagePrefix collectionId)
        (prefixUpperBound (docPrefix storagePrefix collectionId))) = run at hb hfirst
  obtain ⟨sent, outcome⟩ := run
  have hlater : ∀ (rowOps : Bytes × Bytes → DocResult (List BatchOp))
      (items : List (DocResult (Bytes × Bytes))) (run : List (List BatchOp) × DocResult Nat),
      (∀ row ops, rowOps row = .ok ops → ops.length ≤ 1) →
      writeRows engine rowOps sent [] 0 items = run → b ∈ run.1 →
      b ∈ chunks maxBatchKeys [] (documentOps parseJson storagePrefix collectionId idx engine.scan) ∨
        b.length ≤ maxBatchKeys := by
    intro rowOps items run hone hrows hmem
    rw [← hrows] at hmem
    rcases mem_writeRows hmem with hold | hnew
    · exact Or.inl (hfirst b hold)
    · exact Or.inr (length_le_of_mem_chunks (by decide) (readGroups_all hone items) (by decide) hnew)
  cases outcome with
  | error e => exact Or.inl (hfirst b hb)
  | ok entries =>
    dsimp only at hb
    split at hb
    next =>
      split at hb
      next => exact Or.inl (hfirst b hb)
      next =>
        split at hb
        next hrows => exact hlater _ _ _ (fun row ops => length_removeRow) hrows hb
        next hrows => exact hlater _ _ _ (fun row ops => length_removeRow) hrows hb
      next =>
        split at hb
        next =>
          split at hb
          next hrows => exact hlater _ _ _ (fun row ops => length_stampRow parseJson idx) hrows hb
          next hrows => exact hlater _ _ _ (fun row ops => length_stampRow parseJson idx) hrows hb
        next => exact Or.inl (hfirst b hb)
    next => exact Or.inl (hfirst b hb)

theorem mem_backfillIndex {b : List BatchOp}
    (hb : b ∈ (writeRows engine (backfillRow parseJson storagePrefix collectionId idx) [] [] 0
      (engine.scan [] (docPrefix storagePrefix collectionId)
        (prefixUpperBound (docPrefix storagePrefix collectionId)))).1) :
    b ∈ (backfillIndex parseJson storagePrefix collectionId idx engine).1 := by
  unfold backfillIndex
  dsimp only
  split
  next hrows =>
    rw [hrows] at hb
    exact hb
  next sent entries hrows =>
    rw [hrows] at hb
    have hlater : ∀ (rowOps : Bytes × Bytes → DocResult (List BatchOp))
        (items : List (DocResult (Bytes × Bytes))) (run : List (List BatchOp) × DocResult Nat),
        writeRows engine rowOps sent [] 0 items = run → b ∈ run.1 := by
      intro rowOps items run hrun
      rw [← hrun]
      exact mem_writeRows_of_sent hb
    split
    next =>
      split
      next => exact hb
      next =>
        split
        next hrun =>
          have hmem := hlater _ _ _ hrun
          exact hmem
        next hrun =>
          have hmem := hlater _ _ _ hrun
          exact hmem
      next =>
        split
        next =>
          split
          next hrun =>
            have hmem := hlater _ _ _ hrun
            exact hmem
          next hrun =>
            have hmem := hlater _ _ _ hrun
            exact hmem
        next => exact hb
    next => exact hb

theorem backfillIndex_of_error {items : List (DocResult (Bytes × Bytes))}
    {sent : List (List BatchOp)} {e : DocError}
    (hscan : engine.scan [] (docPrefix storagePrefix collectionId)
      (prefixUpperBound (docPrefix storagePrefix collectionId)) = items)
    (h : writeRows engine (backfillRow parseJson storagePrefix collectionId idx) [] [] 0 items =
      (sent, .error e)) :
    backfillIndex parseJson storagePrefix collectionId idx engine = (sent, .error e) := by
  unfold backfillIndex
  dsimp only
  rw [hscan, h]

/-- Backfilling an index submits no batch above `MAX_BATCH_KEYS`, whatever the engine answers, exactly
when no document with an entry and a stamp comes with one place of a batch left. -/
theorem backfill_batches_fit
    (scan : List (List BatchOp) → Bytes → Bytes → List (DocResult (Bytes × Bytes))) :
    (∀ writeBatch, ∀ b ∈ (backfillIndex parseJson storagePrefix collectionId idx
        ⟨scan, writeBatch⟩).1, b.length ≤ maxBatchKeys) ↔
      PairsFit (documentOps parseJson storagePrefix collectionId idx scan) := by
  have htwo : ∀ g ∈ documentOps parseJson storagePrefix collectionId idx scan, g.length ≤ 2 :=
    readGroups_all (fun row ops => length_backfillRow parseJson storagePrefix collectionId idx) _
  have hpairs := chunks_le_iff (show 0 < maxBatchKeys by decide) htwo
    (show ([] : List BatchOp).length < maxBatchKeys by decide)
  simp only [List.length_nil, Nat.zero_add] at hpairs
  rw [PairsFit, ← hpairs]
  constructor
  · intro h b hb
    by_contra hlong
    refine hlong (h (fun _ _ => .ok ()) b ?_)
    refine mem_backfillIndex parseJson storagePrefix collectionId idx ?_
    exact writeRows_of_mem (fun _ _ => rfl) (by decide) hb (by omega)
  · intro h writeBatch b hb
    rcases backfillIndex_batches parseJson storagePrefix collectionId idx hb with hmem | hle
    · exact h b hmem
    · exact hle

end Backfill

def expiryIndex : IndexMeta where
  id := 1
  name := [105]
  fields := [[0x74]]
  directions := []
  unique := false
  expireAfterSeconds := some 60

def undatedBody : Bytes := vkZdoc :: ZDocBuilder.fromValue (.object [])

def datedBody : Bytes :=
  vkZdoc :: ZDocBuilder.fromValue (.object [([0x74], .number (.float 0x3FF0000000000000))])

def datedRow (i : Nat) : Bytes × Bytes := (docKey [] 1 (toBe 2 i), datedBody)

def undatedRow : Bytes × Bytes := (docKey [] 1 [], undatedBody)

def oddCollection : List (DocResult (Bytes × Bytes)) :=
  .ok undatedRow :: (((List.range 511).map datedRow).map .ok ++ [.ok (datedRow 511)])

def datedOps (row : Bytes × Bytes) : List BatchOp :=
  let docId := row.1.drop 5
  let enc := encodeFieldsFromViewWithDirections (datedBody.drop 1) [[0x74]] [true]
  let expiresAt := deriveTtlExpiresAtView (datedBody.drop 1) expiryIndex
  [.put (indexKey [] 1 1 enc docId) docId expiresAt, .put row.1 row.2 expiresAt]

theorem backfillRow_datedRow (i : Nat) :
    backfillRow (fun _ => .error "") [] 1 expiryIndex (datedRow i) = .ok (datedOps (datedRow i)) :=
  rfl

theorem length_datedOps (rows : List (Bytes × Bytes)) :
    (rows.flatMap datedOps).length = 2 * rows.length := by
  induction rows with
  | nil => rfl
  | cons row rows ih =>
    have htwo : (datedOps row).length = 2 := rfl
    rw [List.flatMap_cons, List.length_append, ih, htwo, List.length_cons]
    omega

theorem validateBatch_long {ops : List BatchOp} (h : ops.length = 1025) :
    validateBatch ops [] =
      .error (.invalidKey "batch size 1025 exceeds MAX_BATCH_KEYS 1024") := by
  have hne : ops.isEmpty = false := by
    cases ops with
    | nil => simp at h
    | cons op ops => rfl
  unfold validateBatch
  rw [hne, Bool.false_and, if_neg (by decide), List.length_nil, Nat.add_zero, h, if_pos (by decide)]
  rfl

def oddEngine : BackfillEngine := ⟨fun _ _ _ => oddCollection, fun _ ops => validateBatch ops []⟩

theorem writeRows_odd {rows : List (Bytes × Bytes)} (hlength : rows.length = 511)
    (hdated : ∀ row ∈ rows,
      backfillRow (fun _ => .error "") [] 1 expiryIndex row = .ok (datedOps row)) :
    ∃ ops, ops.length = 1025 ∧
    writeRows oddEngine (backfillRow (fun _ => .error "") [] 1 expiryIndex) [] [] 0
        (.ok undatedRow :: (rows.map .ok ++ [.ok (datedRow 511)])) =
      ([ops], .error (.engine (.invalidKey "batch size 1025 exceeds MAX_BATCH_KEYS 1024"))) := by
  obtain ⟨first, hfirst, hone⟩ : ∃ first,
      backfillRow (fun _ => .error "") [] 1 expiryIndex undatedRow = .ok first ∧ first.length = 1 :=
    ⟨_, rfl, rfl⟩
  have hgathered : (first ++ rows.flatMap datedOps).length = 1023 := by
    rw [List.length_append, length_datedOps, hone, hlength]
  have hroom : (first ++ rows.flatMap datedOps).length < maxBatchKeys := by
    rw [hgathered]
    decide
  have hlen : (first ++ rows.flatMap datedOps ++ datedOps (datedRow 511)).length = 1025 := by
    have htwo : (datedOps (datedRow 511)).length = 2 := rfl
    rw [List.length_append, hgathered, htwo]
  have hhead : (Except.ok undatedRow : DocResult (Bytes × Bytes)).bind
      (backfillRow (fun _ => .error "") [] 1 expiryIndex) = .ok first := hfirst
  have htail : (Except.ok (datedRow 511) : DocResult (Bytes × Bytes)).bind
      (backfillRow (fun _ => .error "") [] 1 expiryIndex) =
      .ok (datedOps (datedRow 511)) := backfillRow_datedRow 511
  have hne : first ≠ [] := by
    intro hnil
    rw [hnil] at hone
    cases hone
  have hshort : ¬ maxBatchKeys ≤ ([] ++ first : List BatchOp).length := by
    rw [List.nil_append, hone]
    decide
  have hfull : maxBatchKeys ≤
      (first ++ rows.flatMap datedOps ++ datedOps (datedRow 511)).length := by
    rw [hlen]
    decide
  refine ⟨first ++ rows.flatMap datedOps ++ datedOps (datedRow 511), hlen, ?_⟩
  rw [writeRows, hhead]
  dsimp only
  rw [if_neg hne, if_neg hshort, List.nil_append]
  obtain ⟨n, hn⟩ := writeRows_gather hdated (0 + 1) hroom
  rw [hn, writeRows, htail]
  dsimp only
  rw [if_pos hfull]
  unfold submitBatch oddEngine
  dsimp only
  rw [validateBatch_long hlen]
  rfl

/-- One document without the field is one operation, the 512 behind it are two each. -/
theorem oddCollection_overfills_batch :
    (backfillIndex (fun _ => .error "") [] 1 expiryIndex oddEngine).1.map List.length = [1025] ∧
    (backfillIndex (fun _ => .error "") [] 1 expiryIndex oddEngine).2 =
      .error (.engine (.invalidKey "batch size 1025 exceeds MAX_BATCH_KEYS 1024")) := by
  have hdated : ∀ row ∈ (List.range 511).map datedRow,
      backfillRow (fun _ => .error "") [] 1 expiryIndex row = .ok (datedOps row) := by
    intro row hrow
    obtain ⟨i, -, rfl⟩ := List.mem_map.mp hrow
    exact backfillRow_datedRow i
  obtain ⟨ops, hlen, hrun⟩ := writeRows_odd (by simp) hdated
  rw [backfillIndex_of_error _ _ _ _ (rfl : oddEngine.scan _ _ _ = oddCollection) hrun]
  exact ⟨by rw [List.map_singleton, hlen], rfl⟩

end ZydecoDb
