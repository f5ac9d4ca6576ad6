import ZydecoDb.ManifestCodec

namespace ZydecoDb

open Lib

/-- The manifest file and the table files of a data directory. `recs` lists what the next open has
to recover: whole records, and those of every acknowledged apply. -/
structure ManifestDb where
  manifest : Bytes
  sstFiles : List Nat
  recs : List ManifestRecord
deriving DecidableEq, Repr

def ManifestDb.empty : ManifestDb := ⟨[], [], []⟩

inductive ManifestAction
  | tableWritten (id : Nat)
  | apply (recs : List ManifestRecord)
  | tear (whole : List ManifestRecord) (next : ManifestRecord) (bytes : Nat)
  | tableUnlinked (id : Nat)
  | reopen
deriving DecidableEq, Repr

def ManifestState.liveIds (s : ManifestState) : List Nat := s.liveSstables.map SstableMeta.id

def addedIds (recs : List ManifestRecord) : List Nat :=
  recs.filterMap fun
    | .sstableAdd m => some m.id
    | _ => none

def ManifestAction.appends : ManifestAction → Bool
  | .apply _ => true
  | .tear _ _ _ => true
  | _ => false

section Crc

variable (crc : Bytes → UInt32)

/-- `tear` is a crash or an error in the middle of an append: the record at the cut is not whole.
`reopen` replays the file and deletes every table file it does not list. -/
def ManifestDb.step (s : ManifestDb) : ManifestAction → Option ManifestDb
  | .tableWritten id => some { s with sstFiles := id :: s.sstFiles }
  | .apply recs =>
    if (∀ r ∈ recs, r.Fits) ∧ ∀ id ∈ addedIds recs, id ∈ s.sstFiles then
      some { s with
        manifest := s.manifest ++ (manifestCodec crc).encodeAll recs
        recs := s.recs ++ recs }
    else none
  | .tear whole next bytes =>
    if (∀ r ∈ whole, r.Fits) ∧ next.Fits ∧ bytes < (next.encode crc).length ∧
        ∀ id ∈ addedIds whole, id ∈ s.sstFiles then
      some { s with
        manifest := s.manifest ++ (manifestCodec crc).encodeAll whole ++
          (next.encode crc).take bytes
        recs := s.recs ++ whole }
    else none
  | .tableUnlinked id =>
    if id ∈ (ManifestState.ofRecords s.recs).liveIds then none
    else some { s with sstFiles := s.sstFiles.filter (· ≠ id) }
  | .reopen =>
    match replay crc s.manifest with
    | .ok st =>
      if ∀ id ∈ st.liveIds, id ∈ s.sstFiles then
        some { s with sstFiles := s.sstFiles.filter (· ∈ st.liveIds) }
      else none
    | .error _ => none

def ManifestDb.AppendsOnWhole (s : ManifestDb) (a : ManifestAction) : Prop :=
  a.appends = true → ((manifestCodec crc).read s.manifest).2 = .clean

instance (s : ManifestDb) (a : ManifestAction) : Decidable (s.AppendsOnWhole crc a) :=
  inferInstanceAs (Decidable (_ → _))

structure ManifestDb.Sound (s : ManifestDb) : Prop where
  fits : ∀ r ∈ s.recs, r.Fits
  bytes : ∃ r n, ManifestRecord.Fits r ∧ n < (r.encode crc).length ∧
    s.manifest = (manifestCodec crc).encodeAll s.recs ++ (r.encode crc).take n
  files : ∀ id ∈ (ManifestState.ofRecords s.recs).liveIds, id ∈ s.sstFiles

variable {crc}

variable {recs : List ManifestRecord}

theorem mem_liveIds_foldl {st : ManifestState} {id : Nat}
    (h : id ∈ (recs.foldl ManifestState.apply st).liveIds) :
    id ∈ st.liveIds ∨ id ∈ addedIds recs := by
  induction recs generalizing st with
  | nil => exact Or.inl h
  | cons r recs ih =>
    rcases ih h with h | h
    · cases r with
      | sstableAdd m =>
        simp only [ManifestState.apply, ManifestState.liveIds, List.map_append, List.map_cons,
          List.map_nil, List.mem_append, List.mem_singleton] at h
        rcases h with h | rfl
        · exact Or.inl h
        · exact Or.inr (by simp [addedIds])
      | sstableRemove id' =>
        obtain ⟨m, hm, rfl⟩ := List.mem_map.mp h
        exact Or.inl (List.mem_map_of_mem (List.mem_filter.mp hm).1)
      | seqCheckpoint seq => exact Or.inl h
      | walTruncate seg => exact Or.inl h
    · refine Or.inr ?_
      simp only [addedIds, List.mem_filterMap] at h ⊢
      obtain ⟨r', hr', he⟩ := h
      exact ⟨r', List.mem_cons_of_mem _ hr', he⟩

variable {s : ManifestDb}

theorem liveIds_append (hf : ∀ id ∈ (ManifestState.ofRecords s.recs).liveIds, id ∈ s.sstFiles)
    (ha : ∀ id ∈ addedIds recs, id ∈ s.sstFiles) :
    ∀ id ∈ (ManifestState.ofRecords (s.recs ++ recs)).liveIds, id ∈ s.sstFiles := by
  intro id hid
  rw [ManifestState.ofRecords, List.foldl_append] at hid
  exact (mem_liveIds_foldl hid).elim (hf id) (ha id)

theorem ManifestDb.Sound.replay (h : s.Sound crc) :
    ZydecoDb.replay crc s.manifest = .ok (.ofRecords s.recs) := by
  obtain ⟨r, n, hr, hn, hb⟩ := h.bytes
  rw [hb]
  exact replay_torn crc h.fits hr hn

theorem ManifestDb.Sound.whole (h : s.Sound crc)
    (hc : ((manifestCodec crc).read s.manifest).2 = .clean) :
    s.manifest = (manifestCodec crc).encodeAll s.recs := by
  obtain ⟨r, n, hr, hn, hb⟩ := h.bytes
  have hread := (manifestCodec crc).read_encodeAll_append h.fits ((r.encode crc).take n)
  rw [hb, hread] at hc
  by_cases hne : (r.encode crc).take n = []
  · rw [hb, hne, List.append_nil]
  · have hshort := (manifestCodec crc).read_of_short hne (decodeOne_short crc hr hn)
    rw [hshort] at hc
    simp at hc

theorem ManifestDb.sound_empty : ManifestDb.empty.Sound crc where
  fits := by simp [empty]
  bytes := ⟨.sstableRemove 0, 0, by decide, by simp [encode_length], by simp [empty]⟩
  files := by simp [empty, ManifestState.ofRecords, ManifestState.default, ManifestState.liveIds]

theorem ManifestDb.sound_of_whole (h : s.Sound crc)
    (hc : ((manifestCodec crc).read s.manifest).2 = .clean) (hr : ∀ r ∈ recs, r.Fits)
    (ha : ∀ id ∈ addedIds recs, id ∈ s.sstFiles) {r : ManifestRecord} (hfit : r.Fits) {n : Nat}
    (hn : n < (r.encode crc).length) :
    ManifestDb.Sound crc { s with
      manifest := s.manifest ++ (manifestCodec crc).encodeAll recs ++ (r.encode crc).take n
      recs := s.recs ++ recs } where
  fits r' hr' := (List.mem_append.mp hr').elim (h.fits r') (hr r')
  bytes := by
    refine ⟨r, n, hfit, hn, ?_⟩
    rw [h.whole hc, (manifestCodec crc).encodeAll_append]
  files := liveIds_append h.files ha

/-- A manifest appended to only when whole replays to what was recorded. -/
theorem ManifestDb.sound_step {s s' : ManifestDb} {a : ManifestAction} (h : s.Sound crc)
    (hc : s.AppendsOnWhole crc a) (hs : s.step crc a = some s') : s'.Sound crc := by
  cases a with
  | tableWritten id =>
    cases Option.some.inj hs
    exact ⟨h.fits, h.bytes, fun id hid => List.mem_cons_of_mem _ (h.files id hid)⟩
  | apply recs =>
    simp only [step] at hs
    obtain ⟨hg, ⟨⟩⟩ := Option.ite_none_right_eq_some.mp hs
    have hempty : (0 : Nat) < ((ManifestRecord.sstableRemove 0).encode crc).length := by
      simp [encode_length]
    have hnew := sound_of_whole h (hc rfl) hg.1 hg.2 (r := .sstableRemove 0) (by decide) hempty
    simpa using hnew
  | tear whole next bytes =>
    simp only [step] at hs
    obtain ⟨hg, ⟨⟩⟩ := Option.ite_none_right_eq_some.mp hs
    exact sound_of_whole h (hc rfl) hg.1 hg.2.2.2 hg.2.1 hg.2.2.1
  | tableUnlinked id =>
    simp only [step] at hs
    obtain ⟨hnot, ⟨⟩⟩ := Option.ite_none_left_eq_some.mp hs
    refine ⟨h.fits, h.bytes, fun id' hid' => List.mem_filter.mpr ⟨h.files id' hid', ?_⟩⟩
    exact decide_eq_true fun he => hnot (he ▸ hid')
  | reopen =>
    simp only [step, h.replay] at hs
    obtain ⟨-, ⟨⟩⟩ := Option.ite_none_right_eq_some.mp hs
    exact ⟨h.fits, h.bytes, fun id hid =>
      List.mem_filter.mpr ⟨h.files id hid, decide_eq_true hid⟩⟩

end Crc

theorem reopen_eq {crc : Bytes → UInt32} {s : ManifestDb} {st : ManifestState}
    (h : replay crc s.manifest = .ok st) (hf : ∀ id ∈ st.liveIds, id ∈ s.sstFiles) :
    s.step crc .reopen = some { s with sstFiles := s.sstFiles.filter (· ∈ st.liveIds) } := by
  simp only [ManifestDb.step, h]
  rw [if_pos hf]

/-- As long as nothing is appended behind a part of a record, the next open succeeds, recovers
exactly the tables of the records to recover, and keeps the file of each of them. -/
theorem reopen_recovers_acknowledged (crc : Bytes → UInt32) (actions : List ManifestAction)
    (s : ManifestDb) (hr : runFrom (ManifestDb.step crc) .empty actions = some s)
    (hc : MeetsAlong (ManifestDb.step crc) (ManifestDb.AppendsOnWhole crc) .empty actions) :
    replay crc s.manifest = .ok (.ofRecords s.recs) ∧
      ∃ s', s.step crc .reopen = some s' ∧ s'.recs = s.recs ∧
        ∀ m ∈ (ManifestState.ofRecords s.recs).liveSstables, m.id ∈ s'.sstFiles := by
  have h : s.Sound crc := runFrom_invariant (fun _ _ _ => ManifestDb.sound_step)
    ManifestDb.sound_empty hc hr
  refine ⟨h.replay, _, reopen_eq h.replay h.files, rfl, fun m hm => ?_⟩
  · have hid : m.id ∈ (ManifestState.ofRecords s.recs).liveIds := List.mem_map_of_mem hm
    exact List.mem_filter.mpr ⟨h.files _ hid, decide_eq_true hid⟩

def flushedMeta (id : Nat) : SstableMeta := ⟨id, 0, [1, 7], [1, 7], id, id, 126⟩

def flushedAdd (id : Nat) : ManifestRecord := .sstableAdd (flushedMeta id)

def tornApplyRun : List ManifestAction :=
  [.tableWritten 1, .apply [flushedAdd 1], .tableWritten 2, .tear [] (flushedAdd 2) 1]

/-- A crash cuts the second apply after its first byte; the first one is recovered. -/
theorem reopen_recovers_acknowledged_after_crash :
    ∃ s, runFrom (ManifestDb.step fun _ => 0) .empty tornApplyRun = some s ∧
      replay (fun _ => 0) s.manifest = .ok (.ofRecords [flushedAdd 1]) :=
  ⟨_, rfl, (reopen_recovers_acknowledged (fun _ => 0) tornApplyRun _ rfl (by decide +kernel)).1⟩

def hiddenApplyRun : List ManifestAction :=
  [.tableWritten 1, .apply [flushedAdd 1], .tear [] (flushedAdd 2) 1, .reopen, .tableWritten 3,
    .apply [flushedAdd 3], .reopen]

/-- The byte `0x01` of a torn append turns the next record's type and length into a length of 2^24:
nothing behind it is ever read. -/
theorem apply_hidden_behind_torn_byte (crc : Bytes → UInt32) :
    ∃ s, runFrom (ManifestDb.step crc) .empty hiddenApplyRun = some s ∧
      (ManifestState.ofRecords s.recs).liveIds = [1, 3] ∧ s.sstFiles = [1] := by
  have hone : ∀ r ∈ [flushedAdd 1], r.Fits := by decide
  have hbyte : ((flushedAdd 2).encode crc).take 1 = [0x01] := rfl
  have htorn : replay crc ((manifestCodec crc).encodeAll [flushedAdd 1] ++ [0x01]) =
      .ok (.ofRecords [flushedAdd 1]) := by
    rw [← hbyte]
    exact replay_torn crc hone (by decide) (by simp [encode_length])
  have hshort : (manifestCodec crc).decode
      (0x01 :: (manifestCodec crc).encodeAll [flushedAdd 3]) = .ok none := by
    have hlen : ((manifestCodec crc).encodeAll [flushedAdd 3]).length = 54 := by
      simp [FrameCodec.encodeAll, manifestCodec, encode_length, ManifestRecord.payload, flushedAdd,
        flushedMeta]
    have hhead : ((manifestCodec crc).encodeAll [flushedAdd 3]).take 4 =
        [0x01, 0x00, 0x00, 0x00] := rfl
    simp only [manifestCodec] at hlen hhead ⊢
    simp only [ManifestRecord.decodeOne, List.length_cons, hlen, hhead]
    rw [if_neg (by decide), if_pos (by decide)]
  have hlost : replay crc ((manifestCodec crc).encodeAll [flushedAdd 1] ++
      0x01 :: (manifestCodec crc).encodeAll [flushedAdd 3]) =
      .ok (.ofRecords [flushedAdd 1]) := by
    rw [replay, (manifestCodec crc).read_encodeAll_append hone,
      (manifestCodec crc).read_of_short (by simp) hshort]
    rfl
  have hkept : ∀ id ∈ (ManifestState.ofRecords [flushedAdd 1]).liveIds, id ∈ [1] := by decide
  have hkept' : ∀ id ∈ (ManifestState.ofRecords [flushedAdd 1]).liveIds, id ∈ [3, 1] := by decide
  refine ⟨⟨(manifestCodec crc).encodeAll [flushedAdd 1] ++
      0x01 :: (manifestCodec crc).encodeAll [flushedAdd 3], [1],
    [flushedAdd 1, flushedAdd 3]⟩, ?_, rfl, rfl⟩
  exact runFrom_cons.mpr ⟨_, rfl, runFrom_cons.mpr ⟨_, rfl, runFrom_cons.mpr ⟨_, rfl,
    runFrom_cons.mpr ⟨_, reopen_eq htorn hkept, runFrom_cons.mpr ⟨_, rfl,
      runFrom_cons.mpr ⟨_, rfl, runFrom_cons.mpr ⟨_, reopen_eq hlost hkept', rfl⟩⟩⟩⟩⟩⟩⟩

/-- A torn byte hides the record of table 3, and the next open deletes its file. -/
theorem acknowledged_table_deleted_behind_torn_byte :
    ∃ s, runFrom (ManifestDb.step fun _ => 0) .empty hiddenApplyRun = some s ∧
      (ManifestState.ofRecords s.recs).liveIds = [1, 3] ∧ s.sstFiles = [1] :=
  apply_hidden_behind_torn_byte fun _ => 0

end ZydecoDb
