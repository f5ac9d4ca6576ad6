import ZydecoDb.ChangeLog
import ZydecoDb.Db

namespace ZydecoDb

open Lib

structure ArchiveClock where
  listed : Nat
  pruned : Nat
deriving DecidableEq, Repr

structure FlushApply where
  unlinkWalUpTo : Option Nat
  flushMaxSeq : Nat
deriving DecidableEq, Repr

structure WalArchive where
  sealedFiles : List SegmentFile
  active : SegmentFile
  bufferedSeq : Nat
  sealedSegmentMaxSeq : List (Nat × Nat)
  changeLog : ChangeLogManifest
  inFlight : Option FlushApply
  -- the highest sequence number that a published table holds
  publishedSeq : Nat
deriving DecidableEq, Repr

namespace WalArchive

variable (cfg : ChangeLogConfig)

def opened : WalArchive := ⟨[], ⟨1, []⟩, 0, [], ⟨[]⟩, none, 0⟩

section

variable (s : WalArchive)

def archiveSealedSegment (segmentId maxSeq : Nat) (clock : ArchiveClock) : WalArchive :=
  match s.changeLog.archiveSegment s.sealedFiles segmentId maxSeq clock.listed with
  | .error _ => s
  | .ok m => { s with changeLog := m.prune cfg clock.pruned }

def roll (clock : ArchiveClock) : WalArchive :=
  archiveSealedSegment cfg
    { s with
      sealedFiles := s.sealedFiles ++ [s.active]
      sealedSegmentMaxSeq :=
        (s.sealedSegmentMaxSeq.filter fun p => p.1 ≠ s.active.id) ++ [(s.active.id, s.bufferedSeq)]
      active := ⟨s.active.id + 1, []⟩ }
    s.active.id s.bufferedSeq clock

def appendBytesBuffered (e : WalEntry) (clock : ArchiveClock) : WalArchive :=
  let s := if shouldRoll s.active.sizeBytes e.frameSize then s.roll cfg clock else s
  { s with active := ⟨s.active.id, s.active.entries ++ [e]⟩, bufferedSeq := e.seq }

def forceRollWal (clock : ArchiveClock) : WalArchive :=
  if s.active.sizeBytes ≤ segmentHeaderLen then s else s.roll cfg clock

def walSegmentsCovered (maxSeq : Nat) : Nat :=
  ((s.sealedSegmentMaxSeq.filter fun p => p.1 < s.active.id ∧ p.2 ≤ maxSeq).map Prod.fst).foldl max 0

def submitFlushApply (maxSeq : Nat) : WalArchive :=
  let covered := s.walSegmentsCovered maxSeq
  { s with inFlight := some ⟨if 0 < covered then some covered else none, maxSeq⟩ }

def removeFile (id : Nat) : WalArchive :=
  { s with
    sealedFiles := s.sealedFiles.filter fun f => f.id ≠ id
    sealedSegmentMaxSeq := s.sealedSegmentMaxSeq.filter fun p => p.1 ≠ id }

end

/-- One turn of the unlink loop. A segment the archive does not list is archived again first; when it is
not listed after that either, it stays. -/
def unlinkSegment (upToId : Nat) (clock : Nat → ArchiveClock) (s : WalArchive) (f : SegmentFile) :
    WalArchive :=
  if f.id ≤ upToId ∧ f.id < s.active.id then
    if s.changeLog.containsSegment f.id then s.removeFile f.id
    else
      let s := s.archiveSealedSegment cfg f.id ((s.sealedSegmentMaxSeq.lookup f.id).getD 0) (clock f.id)
      if s.changeLog.containsSegment f.id then s.removeFile f.id else s
  else s

def unlinkWalSegmentsUpTo (upToId : Nat) (clock : Nat → ArchiveClock) (s : WalArchive) : WalArchive :=
  s.sealedFiles.foldl (unlinkSegment cfg upToId clock) s

def publishFlush (s : WalArchive) (apply : FlushApply) (clock : Nat → ArchiveClock) : WalArchive :=
  let s :=
    match apply.unlinkWalUpTo with
    | none => s
    | some upToId => unlinkWalSegmentsUpTo cfg upToId clock s
  { s with inFlight := none, publishedSeq := apply.flushMaxSeq }

/-- A new process: the active segment is sealed with the records that reached the disk, a table on
its way is in the catalog if its manifest record was written, and the archive is reconciled. -/
def reopen (s : WalArchive) (kept : Nat) (applied : Bool) (listedAt : Nat → Nat) (prunedAt : Nat) :
    Option WalArchive :=
  let files := s.sealedFiles ++ [⟨s.active.id, s.active.entries.take kept⟩]
  let publishedSeq :=
    match s.inFlight with
    | some apply => if applied then apply.flushMaxSeq else s.publishedSeq
    | none => s.publishedSeq
  match s.changeLog.reconcileSealedWal files listedAt with
  | .error _ => none
  | .ok m => some
    { sealedFiles := files
      active := ⟨s.active.id + 1, []⟩
      bufferedSeq := (files.map SegmentFile.maxSeq).foldl max publishedSeq
      sealedSegmentMaxSeq := (files.filter fun f => 0 < f.maxSeq).map fun f => (f.id, f.maxSeq)
      changeLog := m.prune cfg prunedAt
      inFlight := none
      publishedSeq }

end WalArchive

inductive WalArchiveAction
  | append (e : WalEntry) (clock : ArchiveClock)
  | forceRoll (clock : ArchiveClock)
  | submitFlush (maxSeq : Nat)
  | publishFlush (clock : Nat → ArchiveClock)
  | reopen (kept : Nat) (applied : Bool) (listedAt : Nat → Nat) (prunedAt : Nat)

namespace WalArchive

/-- Sequence numbers rise from record to record. A flush holds a record that no published table holds,
and only one is in flight. -/
def step (cfg : ChangeLogConfig) (s : WalArchive) : WalArchiveAction → Option WalArchive
  | .append e clock =>
    if s.bufferedSeq < e.seq then some (s.appendBytesBuffered cfg e clock) else none
  | .forceRoll clock => some (s.forceRollWal cfg clock)
  | .submitFlush maxSeq =>
    if s.inFlight = none ∧ s.publishedSeq < maxSeq ∧ maxSeq ≤ s.bufferedSeq then
      some (s.submitFlushApply maxSeq)
    else none
  | .publishFlush clock => s.inFlight.map fun apply => s.publishFlush cfg apply clock
  | .reopen kept applied listedAt prunedAt => s.reopen cfg kept applied listedAt prunedAt

def unlistedBytes (m : ChangeLogManifest) (upToId : Nat) (files : List SegmentFile) : Nat :=
  ((files.filter fun f => f.id ≤ upToId ∧ m.containsSegment f.id = false).map
    SegmentFile.sizeBytes).sum

/-- When the table in flight is published, the archive lists each segment that the table covers, or has
room for all of those that it does not list. -/
def RoomFor (cfg : ChangeLogConfig) (s : WalArchive) (clock : Nat → ArchiveClock) : Prop :=
  ∀ apply ∈ s.inFlight, ∀ upToId ∈ apply.unlinkWalUpTo, ∀ f ∈ s.sealedFiles, f.id ≤ upToId →
    s.changeLog.containsSegment f.id = true ∨
      (cfg.retentionBytes = 0 ∨
        s.changeLog.totalBytes + unlistedBytes s.changeLog upToId s.sealedFiles ≤ cfg.retentionBytes) ∧
      (cfg.retentionSecs = 0 ∨
        (clock f.id).pruned ≤ (clock f.id).listed + min u64Max (cfg.retentionSecs * 1000))

variable {cfg : ChangeLogConfig} {s s' : WalArchive} {f g : SegmentFile}

theorem eq_of_id_eq {files : List SegmentFile} (h : files.Pairwise fun f g => f.id < g.id)
    (hf : f ∈ files) (hg : g ∈ files) (heq : f.id = g.id) : f = g := by
  have hnd : (files.map SegmentFile.id).Nodup :=
    List.pairwise_map.mpr (h.imp fun {a b} hlt => Nat.ne_of_lt hlt)
  exact List.inj_on_of_nodup_map hnd hf hg heq

theorem archiveSealedSegment_listed (maxSeq : Nat) {clock : ArchiveClock}
    (hids : s.sealedFiles.Pairwise fun f g => f.id < g.id) (hf : f ∈ s.sealedFiles)
    (hnot : s.changeLog.containsSegment f.id = false)
    (hroom : cfg.retentionBytes = 0 ∨ s.changeLog.totalBytes + f.sizeBytes ≤ cfg.retentionBytes)
    (htime : cfg.retentionSecs = 0 ∨
      clock.pruned ≤ clock.listed + min u64Max (cfg.retentionSecs * 1000)) :
    ∃ m, s.archiveSealedSegment cfg f.id maxSeq clock = { s with changeLog := m } ∧
      m.containsSegment f.id = true ∧ m.totalBytes ≤ s.changeLog.totalBytes + f.sizeBytes ∧
      ∀ id, f.id < id → m.containsSegment id = s.changeLog.containsSegment id := by
  obtain ⟨m, hm⟩ := ChangeLogManifest.archiveSegment_ok (m := s.changeLog) maxSeq clock.listed
    ⟨f, hf, rfl⟩
  obtain ⟨g, hg, hid, hperm, hsort⟩ := ChangeLogManifest.archiveSegment_cases hnot hm
  have heq : g = f := eq_of_id_eq hids hg hf hid
  subst heq
  have htotal : m.totalBytes = g.sizeBytes + s.changeLog.totalBytes := by
    have hsum := (hperm.map ArchiveSegment.sizeBytes).sum_eq
    rw [List.map_cons, List.sum_cons] at hsum
    exact hsum
  have hbytes : ¬ ChangeLogManifest.overBytes cfg m.segments := by
    rintro ⟨hpos, hover⟩
    change cfg.retentionBytes < m.totalBytes at hover
    omega
  have hyoung : ¬ ChangeLogManifest.overTime cfg clock.pruned (g.listing maxSeq clock.listed) := by
    rintro ⟨hpos, hover⟩
    change _ < clock.pruned - clock.listed at hover
    omega
  have hlisted : g.listing maxSeq clock.listed ∈ m.segments := hperm.mem_iff.mpr List.mem_cons_self
  have hsub := ChangeLogManifest.pruneSegments_sublist cfg clock.pruned m.segments
  refine ⟨m.prune cfg clock.pruned, by rw [archiveSealedSegment, hm], ?_, ?_, fun id hlt => ?_⟩
  · exact ChangeLogManifest.containsSegment_iff.mpr ⟨g.listing maxSeq clock.listed,
      ChangeLogManifest.mem_pruneSegments hsort hbytes hlisted hyoung hlisted (Or.inl rfl), rfl⟩
  · have hle := (hsub.map ArchiveSegment.sizeBytes).sum_le_sum fun _ _ => Nat.zero_le _
    change (m.prune cfg clock.pruned).totalBytes ≤ m.totalBytes at hle
    omega
  · rw [Bool.eq_iff_iff, ChangeLogManifest.containsSegment_iff, ChangeLogManifest.containsSegment_iff]
    constructor
    · rintro ⟨x, hx, rfl⟩
      rcases List.mem_cons.mp (hperm.mem_iff.mp (hsub.subset hx)) with rfl | hx
      · exact absurd hlt (Nat.lt_irrefl _)
      · exact ⟨x, hx, rfl⟩
    · rintro ⟨x, hx, rfl⟩
      exact ⟨x, ChangeLogManifest.mem_pruneSegments hsort hbytes hlisted hyoung
        (hperm.mem_iff.mpr (List.mem_cons_of_mem _ hx)) (Or.inr hlt), rfl⟩

theorem archiveSealedSegment_frame (cfg : ChangeLogConfig) (s : WalArchive) (id maxSeq : Nat) (clock : ArchiveClock) :
    ∃ m, s.archiveSealedSegment cfg id maxSeq clock = { s with changeLog := m } := by
  unfold archiveSealedSegment
  split
  next => exact ⟨s.changeLog, rfl⟩
  next m _ => exact ⟨m.prune cfg clock.pruned, rfl⟩

section Turn

variable {upToId : Nat} {clock : Nat → ArchiveClock}

theorem unlinkSegment_listed (hid : f.id ≤ upToId ∧ f.id < s.active.id)
    (h : s.changeLog.containsSegment f.id = true) :
    unlinkSegment cfg upToId clock s f = s.removeFile f.id := by
  rw [unlinkSegment, if_pos hid, if_pos h]

theorem unlinkSegment_unlisted (hid : f.id ≤ upToId ∧ f.id < s.active.id)
    (h : s.changeLog.containsSegment f.id = false)
    (harchive : s.archiveSealedSegment cfg f.id ((s.sealedSegmentMaxSeq.lookup f.id).getD 0)
      (clock f.id) = s') :
    unlinkSegment cfg upToId clock s f =
      if s'.changeLog.containsSegment f.id then s'.removeFile f.id else s' := by
  rw [unlinkSegment, if_pos hid, if_neg (by rw [h]; exact Bool.false_ne_true), harchive]

end Turn

theorem unlinkSegment_cases (cfg : ChangeLogConfig) (upToId : Nat) (clock : Nat → ArchiveClock)
    (s : WalArchive) (f : SegmentFile) :
    ∃ m, unlinkSegment cfg upToId clock s f = { s with changeLog := m } ∨
      f.id ≤ upToId ∧ unlinkSegment cfg upToId clock s f = removeFile { s with changeLog := m } f.id := by
  unfold unlinkSegment
  split
  next hid =>
    split
    next => exact ⟨s.changeLog, Or.inr ⟨hid.1, rfl⟩⟩
    next =>
      obtain ⟨m, hm⟩ := archiveSealedSegment_frame cfg s f.id
        ((s.sealedSegmentMaxSeq.lookup f.id).getD 0) (clock f.id)
      rw [hm]
      dsimp only
      split
      next => exact ⟨m, Or.inr ⟨hid.1, rfl⟩⟩
      next => exact ⟨m, Or.inl rfl⟩
  next => exact ⟨s.changeLog, Or.inl rfl⟩

theorem unlistedBytes_cons (m : ChangeLogManifest) (upToId : Nat) (f : SegmentFile)
    (files : List SegmentFile) : unlistedBytes m upToId (f :: files) =
      (if f.id ≤ upToId ∧ m.containsSegment f.id = false then f.sizeBytes else 0) +
        unlistedBytes m upToId files := by
  unfold unlistedBytes
  rw [List.filter_cons]
  by_cases h : f.id ≤ upToId ∧ m.containsSegment f.id = false
  · rw [if_pos (decide_eq_true h), if_pos h, List.map_cons, List.sum_cons]
  · rw [if_neg fun hd => h (of_decide_eq_true hd), if_neg h, Nat.zero_add]

theorem unlistedBytes_congr {m m' : ChangeLogManifest} {upToId : Nat} {files : List SegmentFile}
    (h : ∀ f ∈ files, m'.containsSegment f.id = m.containsSegment f.id) :
    unlistedBytes m' upToId files = unlistedBytes m upToId files := by
  unfold unlistedBytes
  have hfilter : (files.filter fun f => f.id ≤ upToId ∧ m'.containsSegment f.id = false) =
      files.filter fun f => f.id ≤ upToId ∧ m.containsSegment f.id = false :=
    List.filter_congr fun f hf => by rw [h f hf]
  rw [hfilter]

structure Unlinking (cfg : ChangeLogConfig) (upToId : Nat) (clock : Nat → ArchiveClock) (s : WalArchive)
    (files : List SegmentFile) : Prop where
  ordered : files.Pairwise fun f g => f.id < g.id
  ids : s.sealedFiles.Pairwise fun f g => f.id < g.id
  there : ∀ f ∈ files, f ∈ s.sealedFiles
  active : ∀ f ∈ s.sealedFiles, f.id < s.active.id
  visits : ∀ f ∈ s.sealedFiles, f.id ≤ upToId → f ∈ files
  room : ∀ f ∈ files, f.id ≤ upToId → s.changeLog.containsSegment f.id = true ∨
    (cfg.retentionBytes = 0 ∨
      s.changeLog.totalBytes + unlistedBytes s.changeLog upToId files ≤ cfg.retentionBytes) ∧
    (cfg.retentionSecs = 0 ∨
      (clock f.id).pruned ≤ (clock f.id).listed + min u64Max (cfg.retentionSecs * 1000))

section Loop

variable {upToId : Nat} {clock : Nat → ArchiveClock} {files : List SegmentFile}

theorem Unlinking.removed {m : ChangeLogManifest} (h : Unlinking cfg upToId clock s (f :: files))
    (hsame : ∀ id, f.id < id → m.containsSegment id = s.changeLog.containsSegment id)
    (hbytes : (∃ g ∈ files, g.id ≤ upToId ∧ s.changeLog.containsSegment g.id = false) →
      m.totalBytes + unlistedBytes s.changeLog upToId files ≤
        s.changeLog.totalBytes + unlistedBytes s.changeLog upToId (f :: files)) :
    Unlinking cfg upToId clock (removeFile { s with changeLog := m } f.id) files := by
  obtain ⟨hfirst, hrest⟩ := List.pairwise_cons.mp h.ordered
  refine ⟨hrest, h.ids.filter _, fun g hg => ?_, fun g hg => ?_, fun g hg hle => ?_, fun g hg hle => ?_⟩
  · have hlt := hfirst g hg
    exact List.mem_filter.mpr ⟨h.there g (List.mem_cons_of_mem f hg), decide_eq_true (by omega)⟩
  · exact h.active g (List.mem_filter.mp hg).1
  · obtain ⟨hg, hne⟩ := List.mem_filter.mp hg
    refine (List.mem_cons.mp (h.visits g hg hle)).resolve_left fun heq => ?_
    rw [heq] at hne
    exact of_decide_eq_true hne rfl
  · change m.containsSegment g.id = true ∨ (_ ∨ m.totalBytes + unlistedBytes m upToId files ≤ _) ∧ _
    rw [unlistedBytes_congr fun x hx => hsame x.id (hfirst x hx), hsame g.id (hfirst g hg)]
    rcases h.room g (List.mem_cons_of_mem f hg) hle with hlisted | ⟨hroom, htime⟩
    · exact Or.inl hlisted
    · cases hlisted : s.changeLog.containsSegment g.id with
      | true => exact Or.inl rfl
      | false =>
        have hle := hbytes ⟨g, hg, hle, hlisted⟩
        refine Or.inr ⟨?_, htime⟩
        rcases hroom with hzero | hroom
        · exact Or.inl hzero
        · exact Or.inr (by omega)

theorem Unlinking.step (h : Unlinking cfg upToId clock s (f :: files)) :
    Unlinking cfg upToId clock (unlinkSegment cfg upToId clock s f) files := by
  have hf := h.there f List.mem_cons_self
  have hcons := unlistedBytes_cons s.changeLog upToId f files
  by_cases hle : f.id ≤ upToId
  · have hid : f.id ≤ upToId ∧ f.id < s.active.id := ⟨hle, h.active f hf⟩
    cases hlisted : s.changeLog.containsSegment f.id with
    | true =>
      rw [unlinkSegment_listed hid hlisted]
      refine h.removed (m := s.changeLog) (fun _ _ => rfl) fun _ => ?_
      omega
    | false =>
      rw [if_pos ⟨hle, hlisted⟩] at hcons
      rcases h.room f List.mem_cons_self hle with hyes | ⟨hroom, htime⟩
      · rw [hlisted] at hyes
        cases hyes
      · have hfit : cfg.retentionBytes = 0 ∨
            s.changeLog.totalBytes + f.sizeBytes ≤ cfg.retentionBytes := by omega
        obtain ⟨m, hm, hin, htotal, hsame⟩ := archiveSealedSegment_listed
          ((s.sealedSegmentMaxSeq.lookup f.id).getD 0) h.ids hf hlisted hfit htime
        rw [unlinkSegment_unlisted hid hlisted hm, if_pos hin]
        refine h.removed hsame fun _ => ?_
        omega
  · rw [if_neg fun hc => hle hc.1, Nat.zero_add] at hcons
    rw [unlinkSegment, if_neg fun hid => hle hid.1]
    refine ⟨(List.pairwise_cons.mp h.ordered).2, h.ids, fun g hg => h.there g (List.mem_cons_of_mem f hg),
      h.active, fun g hg hg' => ?_, fun g hg hg' => ?_⟩
    · exact (List.mem_cons.mp (h.visits g hg hg')).resolve_left fun heq => hle (heq ▸ hg')
    · have hroom := h.room g (List.mem_cons_of_mem f hg) hg'
      rwa [hcons] at hroom

theorem Unlinking.unlinked (h : Unlinking cfg upToId clock s files) :
    ∀ g ∈ (files.foldl (unlinkSegment cfg upToId clock) s).sealedFiles, upToId < g.id := by
  induction files generalizing s with
  | nil =>
    intro g hg
    by_contra hle
    exact absurd (h.visits g hg (not_lt.mp hle)) List.not_mem_nil
  | cons f files ih => exact ih h.step

end Loop

end WalArchive

end ZydecoDb
