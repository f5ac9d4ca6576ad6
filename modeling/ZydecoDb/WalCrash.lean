import ZydecoDb.WalFiles

namespace ZydecoDb

open Lib

variable {crc : Bytes → UInt32}

theorem readSegment_body {s : Nat} {body : Bytes} :
    readSegment crc (segmentHeader s ++ body) = .ok (replaySegmentBody crc body) := by
  have hlen : ¬ (segmentHeader s ++ body).length < segmentHeaderLen := by
    rw [List.length_append, segmentHeader_length]
    omega
  rw [readSegment, if_neg hlen, if_neg (not_not_intro (segmentHeader_version s body)),
    List.drop_left' (segmentHeader_length s)]

theorem recoverSegment_whole {f : WalFile} {act : Option Nat} {seg : Nat × Bytes} {s : Nat}
    (hb : f.bytes = segmentHeader s ++ (walCodec crc).encodeAll f.logged)
    (hd : f.bytes.length ≤ f.synced) (hf : ∀ e ∈ f.logged, e.Fits) (hl : f.Leaves seg) :
    recoverSegment crc act seg = .ok (f.id, f.logged) := by
  obtain ⟨hid, n, hn, hbytes⟩ := hl
  have hwhole : seg.2 = segmentHeader s ++ (walCodec crc).encodeAll f.logged := by
    rw [hbytes, List.take_of_length_le (hd.trans hn), hb]
  rw [recoverSegment, hwhole, readSegment_body, replaySegmentBody_encodeAll crc hf, hid]
  rfl

theorem recoverSegment_active {f : WalFile} {seg : Nat × Bytes} {s : Nat} {tail : Bytes}
    (hb : f.bytes = segmentHeader s ++ ((walCodec crc).encodeAll f.logged ++ tail))
    (ht : (walCodec crc).Torn tail) (hf : ∀ e ∈ f.logged, e.Fits) (hl : f.Leaves seg) :
    ∃ j ≤ f.logged.length, recoverSegment crc (some f.id) seg = .ok (f.id, f.logged.take j) ∧
      ∀ i ≤ f.logged.length,
        segmentHeaderLen + ((walCodec crc).encodeAll (f.logged.take i)).length ≤ f.synced → i ≤ j := by
  obtain ⟨hid, n, hn, hbytes⟩ := hl
  by_cases hshort : n < segmentHeaderLen
  · refine ⟨0, Nat.zero_le _, ?_, fun i _ hi => by omega⟩
    have hlen : seg.2.length < segmentHeaderLen := by
      rw [hbytes, List.length_take]
      omega
    rw [recoverSegment, readSegment, if_pos hlen, hid]
    rfl
  · obtain ⟨j, hj, torn, he, htorn, hmax⟩ :=
      (walCodec crc).take_encodeAll_torn hf ht (n - segmentHeaderLen)
    refine ⟨j, hj, ?_, fun i hi hs => hmax i hi (by omega)⟩
    have hwhole : seg.2 =
        segmentHeader s ++ ((walCodec crc).encodeAll (f.logged.take j) ++ torn) := by
      rw [hbytes, hb, List.take_append, segmentHeader_length,
        List.take_of_length_le (by rw [segmentHeader_length]; omega), he]
    have hfits : ∀ e ∈ f.logged.take j, e.Fits := fun e hm => hf e (List.mem_of_mem_take hm)
    rw [recoverSegment, hwhole, readSegment_body, replaySegmentBody_torn crc hfits htorn, hid]
    by_cases hnil : torn = []
    · simp [Except.bind, hnil]
    · simp [Except.bind, hnil]

theorem leaves_ids {fs : List WalFile} {segs : List (Nat × Bytes)}
    (h : List.Forall₂ WalFile.Leaves fs segs) : segs.map Prod.fst = fs.map WalFile.id := by
  induction h with
  | nil => rfl
  | cons hl _ ih => rw [List.map_cons, List.map_cons, hl.1, ih]

theorem max_ids {l : List Nat} {a : Nat} (h : ∀ b ∈ l, b < a) : (l ++ [a]).max? = some a := by
  rw [List.max?_eq_some_iff]
  refine ⟨List.mem_append_right _ (List.mem_singleton.mpr rfl), fun b hb => ?_⟩
  rcases List.mem_append.mp hb with hb | hb
  · exact (h b hb).le
  · exact (List.mem_singleton.mp hb).le

namespace Wal

variable {wal : Wal}

def survivors (wal : Wal) (j : Nat) : List (Nat × List WalEntry) :=
  wal.sealedFiles.map (fun f => (f.id, f.logged)) ++ [(wal.active.id, wal.active.logged.take j)]

theorem Sound.recoverSegments (h : wal.Sound crc) {segments : List (Nat × Bytes)}
    (hl : List.Forall₂ WalFile.Leaves wal.files segments) :
    ∃ j, ZydecoDb.recoverSegments crc (some wal.active.id) segments = .ok (wal.survivors j) ∧
      ∀ i ≤ wal.active.logged.length, segmentHeaderLen +
        ((walCodec crc).encodeAll (wal.active.logged.take i)).length ≤ wal.active.synced → i ≤ j := by
  obtain ⟨s, tail, hb, ht⟩ := h.active
  have hwhole := h.whole
  have hdurable := h.durable
  have hfits : ∀ f ∈ wal.sealedFiles, ∀ e ∈ f.logged, e.Fits := fun f hf =>
    h.fits f (mem_files.mpr (Or.inl hf))
  unfold survivors
  rw [files] at hl
  -- the sealed files from the front, the active one at the end
  generalize wal.sealedFiles = fs at hwhole hdurable hfits hl
  induction fs generalizing segments with
  | nil =>
    cases hl with
    | cons hact hnil =>
      cases hnil
      obtain ⟨j, -, hr, hmax⟩ := recoverSegment_active hb ht h.active_fits hact
      refine ⟨j, ?_, hmax⟩
      rw [ZydecoDb.recoverSegments, hr]
      rfl
  | cons f fs ih =>
    cases hl with
    | cons hf hrest =>
      obtain ⟨s', hb'⟩ := hwhole f List.mem_cons_self
      have hr : recoverSegment crc (some wal.active.id) _ = .ok (f.id, f.logged) :=
        recoverSegment_whole hb' (hdurable f List.mem_cons_self) (hfits f List.mem_cons_self) hf
      obtain ⟨j, hj, hmax⟩ := ih (fun g hg => hwhole g (List.mem_cons_of_mem _ hg))
        (fun g hg => hdurable g (List.mem_cons_of_mem _ hg))
        (fun g hg => hfits g (List.mem_cons_of_mem _ hg)) hrest
      refine ⟨j, ?_, hmax⟩
      rw [ZydecoDb.recoverSegments, hr]
      simp only [Except.bind, hj, Except.map]
      rfl

/-- Whatever a crash leaves of the segments, recovery finds all that was fsynced. -/
theorem Sound.recoverWal (h : wal.Sound crc) {dir : DataDir}
    (hl : List.Forall₂ WalFile.Leaves wal.files dir.segments) :
    ∃ j, ZydecoDb.recoverWal crc (listSegments dir) = .ok (wal.survivors j) ∧
      ∀ e, wal.Keeps crc e → e ∈ (wal.survivors j).flatMap Prod.snd := by
  have hids := leaves_ids hl
  have hsorted : listSegments dir = dir.segments := by
    refine List.Pairwise.insertionSort_eq ?_
    have hlt : (dir.segments.map Prod.fst).Pairwise (· ≤ ·) := by
      rw [hids]
      exact List.pairwise_map.mpr (h.ids.imp fun hab => hab.le)
    exact List.pairwise_map.mp hlt
  have hmax : (dir.segments.map Prod.fst).max? = some wal.active.id := by
    rw [hids, files, List.map_append]
    refine max_ids fun b hb => ?_
    obtain ⟨f, hf, rfl⟩ := List.mem_map.mp hb
    exact h.sealed_lt hf
  obtain ⟨j, hj, hdurable⟩ := h.recoverSegments hl
  refine ⟨j, by rw [ZydecoDb.recoverWal, hsorted, hmax, hj], fun e he => ?_⟩
  rw [survivors, List.flatMap_append]
  rcases he with ⟨f, hf, he⟩ | ⟨i, hi, hm, hs⟩
  · exact List.mem_append_left _ (List.mem_flatMap.mpr
      ⟨(f.id, f.logged), List.mem_map_of_mem (f := fun f : WalFile => (f.id, f.logged)) hf, he⟩)
  · refine List.mem_append_right _ ?_
    rw [List.flatMap_singleton]
    exact List.take_subset_take_left _ (hdurable i hi hs) hm

end Wal

end ZydecoDb
