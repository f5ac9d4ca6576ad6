import ZydecoDb.Open

namespace ZydecoDb

open Lib

def WalEntry.frameSize (e : WalEntry) : Nat := e.body.length + 4

structure SegmentFile where
  id : Nat
  entries : List WalEntry
deriving DecidableEq, Repr

def SegmentFile.sizeBytes (f : SegmentFile) : Nat :=
  segmentHeaderLen + (f.entries.map WalEntry.frameSize).sum

def SegmentFile.maxSeq (f : SegmentFile) : Nat := segmentMaxSeq f.entries

structure ChangeLogConfig where
  retentionSecs : Nat
  retentionBytes : Nat
deriving DecidableEq, Repr

structure ArchiveSegment where
  segmentId : Nat
  minSeq : Nat
  maxSeq : Nat
  sealedUnixMs : Nat
  sizeBytes : Nat
  fileName : String
deriving DecidableEq, Repr

def SegmentFile.listing (f : SegmentFile) (maxSeq now : Nat) : ArchiveSegment :=
  let seqs := f.entries.map WalEntry.seq
  { segmentId := f.id
    minSeq := seqs.min?.getD maxSeq
    maxSeq := max maxSeq (seqs.max?.getD maxSeq)
    sealedUnixMs := now
    sizeBytes := f.sizeBytes
    fileName := segmentFilename f.id }

structure ChangeLogManifest where
  segments : List ArchiveSegment
deriving DecidableEq, Repr

namespace ChangeLogManifest

def totalBytes (m : ChangeLogManifest) : Nat := (m.segments.map ArchiveSegment.sizeBytes).sum

def containsSegment (m : ChangeLogManifest) (segmentId : Nat) : Bool :=
  m.segments.any fun s => s.segmentId = segmentId

def archiveSegment (m : ChangeLogManifest) (walDir : List SegmentFile) (segmentId maxSeq now : Nat) :
    Except EngineError ChangeLogManifest :=
  if m.containsSegment segmentId then .ok m
  else
    match walDir.find? fun f => f.id = segmentId with
    | none => .error (.io ("change_log: WAL segment " ++ toString segmentId ++ " missing at " ++
        segmentFilename segmentId))
    | some f =>
      .ok ⟨(m.segments ++ [f.listing maxSeq now]).insertionSort fun a b => a.segmentId ≤ b.segmentId⟩

def overTime (cfg : ChangeLogConfig) (now : Nat) (s : ArchiveSegment) : Prop :=
  0 < cfg.retentionSecs ∧ min u64Max (cfg.retentionSecs * 1000) < now - s.sealedUnixMs

instance decidableOverTime (cfg : ChangeLogConfig) (now : Nat) (s : ArchiveSegment) :
    Decidable (overTime cfg now s) := inferInstanceAs (Decidable (_ ∧ _))

def overBytes (cfg : ChangeLogConfig) (segments : List ArchiveSegment) : Prop :=
  0 < cfg.retentionBytes ∧ cfg.retentionBytes < (segments.map ArchiveSegment.sizeBytes).sum

instance decidableOverBytes (cfg : ChangeLogConfig) (segments : List ArchiveSegment) :
    Decidable (overBytes cfg segments) := inferInstanceAs (Decidable (_ ∧ _))

def pruneSegments (cfg : ChangeLogConfig) (now : Nat) : List ArchiveSegment → List ArchiveSegment
  | [] => []
  | oldest :: rest =>
    if ¬ overBytes cfg (oldest :: rest) ∧ ¬ overTime cfg now oldest then oldest :: rest
    else if rest = [] ∧ ¬ overTime cfg now oldest then oldest :: rest
    else pruneSegments cfg now rest

def prune (m : ChangeLogManifest) (cfg : ChangeLogConfig) (now : Nat) : ChangeLogManifest :=
  ⟨pruneSegments cfg now m.segments⟩

def reconcileSealedWal (m : ChangeLogManifest) (walDir : List SegmentFile) (now : Nat → Nat) :
    Except EngineError ChangeLogManifest :=
  walDir.foldlM (fun m f => m.archiveSegment walDir f.id f.maxSeq (now f.id)) m

variable {m m' : ChangeLogManifest} {cfg : ChangeLogConfig} {walDir : List SegmentFile}

theorem containsSegment_iff {id : Nat} :
    m.containsSegment id = true ↔ ∃ s ∈ m.segments, s.segmentId = id := by
  simp [containsSegment]

theorem archiveSegment_cases {id maxSeq now : Nat} (hnot : m.containsSegment id = false)
    (h : m.archiveSegment walDir id maxSeq now = .ok m') :
    ∃ f ∈ walDir, f.id = id ∧ m'.segments.Perm (f.listing maxSeq now :: m.segments) ∧
      m'.segments.Pairwise fun a b => a.segmentId ≤ b.segmentId := by
  unfold archiveSegment at h
  rw [if_neg (by rw [hnot]; exact Bool.false_ne_true)] at h
  split at h
  next => cases h
  next f hf =>
    have hid := List.find?_some hf
    cases Except.ok.inj h
    refine ⟨f, List.mem_of_find?_eq_some hf, of_decide_eq_true hid, ?_, ?_⟩
    · exact (List.perm_insertionSort _ _).trans List.perm_append_comm
    · exact List.pairwise_insertionSort (fun a b : ArchiveSegment => a.segmentId ≤ b.segmentId) _

theorem archiveSegment_ok {id : Nat} (maxSeq now : Nat) (hf : ∃ f ∈ walDir, f.id = id) :
    ∃ m', m.archiveSegment walDir id maxSeq now = .ok m' := by
  unfold archiveSegment
  split
  next => exact ⟨m, rfl⟩
  next =>
    split
    next hnone =>
      obtain ⟨f, hf, hid⟩ := hf
      exact absurd (decide_eq_true hid) (List.find?_eq_none.mp hnone f hf)
    next => exact ⟨_, rfl⟩

theorem pruneSegments_sublist (cfg : ChangeLogConfig) (now : Nat) (l : List ArchiveSegment) :
    (pruneSegments cfg now l).Sublist l := by
  induction l with
  | nil => exact List.Sublist.refl _
  | cons oldest rest ih =>
    unfold pruneSegments
    split
    next => exact List.Sublist.refl _
    next =>
      split
      next => exact List.Sublist.refl _
      next => exact ih.cons oldest

/-- While the bytes fit, a young segment keeps itself and those after it. -/
theorem mem_pruneSegments {now : Nat} {l : List ArchiveSegment} {x y : ArchiveSegment}
    (hsort : l.Pairwise fun a b => a.segmentId ≤ b.segmentId) (hbytes : ¬ overBytes cfg l)
    (hx : x ∈ l) (hyoung : ¬ overTime cfg now x) (hy : y ∈ l) (hle : y = x ∨ x.segmentId < y.segmentId) :
    y ∈ pruneSegments cfg now l := by
  induction l with
  | nil => cases hx
  | cons oldest rest ih =>
    obtain ⟨hfirst, hrest⟩ := List.pairwise_cons.mp hsort
    unfold pruneSegments
    split
    next => exact hy
    next hgo =>
      split
      next => exact hy
      next =>
        have hold : overTime cfg now oldest := by
          by_contra hnot
          exact hgo ⟨hbytes, hnot⟩
        have hxrest : x ∈ rest := (List.mem_cons.mp hx).resolve_left fun he => hyoung (he ▸ hold)
        have hyrest : y ∈ rest := by
          refine (List.mem_cons.mp hy).resolve_left fun he => ?_
          rcases hle with heq | hlt
          · exact hyoung (heq ▸ he ▸ hold)
          · have hxy := hfirst x hxrest
            rw [he] at hlt
            omega
        refine ih hrest (fun hover => hbytes ⟨hover.1, ?_⟩) hxrest hyrest
        have hmore := hover.2
        rw [List.map_cons, List.sum_cons]
        omega

end ChangeLogManifest

end ZydecoDb
