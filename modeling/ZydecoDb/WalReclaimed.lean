import ZydecoDb.WalArchiveSteps
import ZydecoDb.Lib.Liveness

namespace ZydecoDb

open Lib

namespace WalArchive

variable {cfg : ChangeLogConfig} {s s' : WalArchive} {f : SegmentFile}

structure Waits (f : SegmentFile) (s : WalArchive) : Prop where
  mem : f ∈ s.sealedFiles
  records : f.entries ≠ []
  covered : f.maxSeq ≤ s.publishedSeq

structure Due (f : SegmentFile) (s : WalArchive) : Prop extends Waits f s where
  flight : ∀ apply ∈ s.inFlight, ∃ upToId ∈ apply.unlinkWalUpTo, f.id ≤ upToId

def Unlinked (f : SegmentFile) (s : WalArchive) : Prop := ∀ g ∈ s.sealedFiles, g.id ≠ f.id

theorem unlink_keeps {upToId : Nat} {clock : Nat → ArchiveClock} {files : List SegmentFile}
    (h : f ∈ s.sealedFiles ∨ Unlinked f s) :
    f ∈ (files.foldl (unlinkSegment cfg upToId clock) s).sealedFiles ∨
      Unlinked f (files.foldl (unlinkSegment cfg upToId clock) s) := by
  induction files generalizing s with
  | nil => exact h
  | cons g files ih =>
    refine ih ?_
    obtain ⟨m, hm | ⟨-, hm⟩⟩ := unlinkSegment_cases cfg upToId clock s g
    · rw [hm]
      exact h
    · rw [hm]
      rcases h with hmem | hgone
      · by_cases heq : f.id = g.id
        · refine Or.inr fun x hx hid => ?_
          exact of_decide_eq_true (List.mem_filter.mp hx).2 (hid.trans heq)
        · exact Or.inl (List.mem_filter.mpr ⟨hmem, decide_eq_true heq⟩)
      · exact Or.inr fun x hx => hgone x (List.mem_filter.mp hx).1

theorem Waits.publishFlush (h : Waits f s) (hi : s.Inv) {apply : FlushApply}
    (hflight : s.inFlight = some apply) (clock : Nat → ArchiveClock) :
    Waits f (s.publishFlush cfg apply clock) ∨ Unlinked f (s.publishFlush cfg apply clock) := by
  have hlt := hi.flight apply hflight
  have hcov := h.covered
  have hle : f.maxSeq ≤ apply.flushMaxSeq := by omega
  unfold WalArchive.publishFlush
  split
  next => exact Or.inl ⟨h.mem, h.records, hle⟩
  next => exact (unlink_keeps (Or.inl h.mem)).imp (fun hmem => ⟨hmem, h.records, hle⟩) id

structure Extends (s s' : WalArchive) : Prop where
  files : ∀ g ∈ s.sealedFiles, g ∈ s'.sealedFiles
  publishedSeq : s'.publishedSeq = s.publishedSeq
  inFlight : s'.inFlight = s.inFlight

theorem extends_roll (s : WalArchive) (clock : ArchiveClock) : Extends s (s.roll cfg clock) := by
  obtain ⟨m, hm⟩ := roll_frame cfg s clock
  rw [hm]
  exact ⟨fun g hg => List.mem_append_left _ hg, rfl, rfl⟩

theorem extends_append (cfg : ChangeLogConfig) (s : WalArchive) (e : WalEntry) (clock : ArchiveClock) :
    Extends s (s.appendBytesBuffered cfg e clock) := by
  obtain ⟨t, ht, happend⟩ := append_frame cfg s e clock
  have hext : Extends s t := by
    rcases ht with rfl | rfl
    · exact ⟨fun g hg => hg, rfl, rfl⟩
    · exact extends_roll s clock
  rw [happend]
  exact ⟨hext.files, hext.publishedSeq, hext.inFlight⟩

theorem extends_forceRoll (cfg : ChangeLogConfig) (s : WalArchive) (clock : ArchiveClock) :
    Extends s (s.forceRollWal cfg clock) := by
  unfold forceRollWal
  split
  next => exact ⟨fun g hg => hg, rfl, rfl⟩
  next => exact extends_roll s clock

theorem Waits.extends (h : Waits f s) (hext : Extends s s') : Waits f s' :=
  ⟨hext.files f h.mem, h.records, hext.publishedSeq ▸ h.covered⟩

theorem reopen_keeps {kept prunedAt : Nat} {applied : Bool} {listedAt : Nat → Nat} (hi : s.Inv)
    (hs : s.reopen cfg kept applied listedAt prunedAt = some s') :
    (∀ g ∈ s.sealedFiles, g ∈ s'.sealedFiles) ∧ s.publishedSeq ≤ s'.publishedSeq ∧
      s'.inFlight = none := by
  unfold WalArchive.reopen at hs
  dsimp only at hs
  split at hs
  next => cases hs
  next =>
    cases Option.some.inj hs
    refine ⟨fun g hg => List.mem_append_left _ hg, ?_, rfl⟩
    dsimp only
    split
    next apply hflight =>
      have hlt := hi.flight apply hflight
      split <;> omega
    next => exact le_rfl

theorem Waits.step {a : WalArchiveAction} (h : Waits f s) (hi : s.Inv)
    (hs : s.step cfg a = some s') : Waits f s' ∨ Unlinked f s' := by
  rcases step_cases hs with ⟨e, clock, -, -, rfl⟩ | ⟨clock, -, rfl⟩ | ⟨maxSeq, -, -, -, rfl⟩ |
    ⟨clock, apply, -, hflight, rfl⟩ | ⟨kept, applied, listedAt, prunedAt, -, hs⟩
  · exact Or.inl (h.extends (extends_append cfg s e clock))
  · exact Or.inl (h.extends (extends_forceRoll cfg s clock))
  · exact Or.inl ⟨h.mem, h.records, h.covered⟩
  · exact h.publishFlush hi hflight clock
  · obtain ⟨hfiles, hpub, -⟩ := reopen_keeps hi hs
    exact Or.inl ⟨hfiles f h.mem, h.records, h.covered.trans hpub⟩

theorem Waits.submit (h : Waits f s) (hi : s.Inv) {maxSeq : Nat} (hmore : s.publishedSeq < maxSeq) :
    Due f (s.submitFlushApply maxSeq) := by
  refine ⟨⟨h.mem, h.records, h.covered⟩, fun apply happly => ?_⟩
  cases Option.some.inj happly
  have hpos := (hi.positive f (List.mem_append_left _ h.mem)).1
  have hcov := h.covered
  have hmem : f.id ∈ (s.sealedSegmentMaxSeq.filter fun p =>
      p.1 < s.active.id ∧ p.2 ≤ maxSeq).map Prod.fst := by
    refine List.mem_map.mpr ⟨(f.id, f.maxSeq), List.mem_filter.mpr
      ⟨hi.recorded f h.mem h.records, decide_eq_true ⟨hi.before_active h.mem, ?_⟩⟩, rfl⟩
    change f.maxSeq ≤ maxSeq
    omega
  have hle : f.id ≤ s.walSegmentsCovered maxSeq := foldl_max_ge.2 f.id hmem
  refine ⟨s.walSegmentsCovered maxSeq, ?_, hle⟩
  dsimp only
  rw [if_pos (by omega)]
  rfl

theorem Due.publish (h : Due f s) (hi : s.Inv) {apply : FlushApply} {clock : Nat → ArchiveClock}
    (hflight : s.inFlight = some apply) (hroom : RoomFor cfg s clock) :
    Unlinked f (s.publishFlush cfg apply clock) := by
  obtain ⟨upToId, hup, hle⟩ := h.flight apply hflight
  have hup' : apply.unlinkWalUpTo = some upToId := hup
  have hids := (List.pairwise_append.mp hi.ids).1
  have hloop : Unlinking cfg upToId clock s s.sealedFiles :=
    ⟨hids, hids, fun g hg => hg, fun g hg => hi.before_active hg, fun g hg _ => hg,
      hroom apply hflight upToId hup⟩
  intro g hg heq
  have hlt : upToId < g.id := by
    unfold WalArchive.publishFlush at hg
    rw [hup'] at hg
    exact hloop.unlinked g hg
  omega

/-- A segment that is due stays due or is unlinked. -/
theorem Due.step {a : WalArchiveAction} (h : Due f s) (hi : s.Inv) (hs : s.step cfg a = some s')
    (hroom : ∀ clock, a = .publishFlush clock → RoomFor cfg s clock) : Due f s' ∨ Unlinked f s' := by
  rcases step_cases hs with ⟨e, clock, -, -, rfl⟩ | ⟨clock, -, rfl⟩ | ⟨maxSeq, -, -, hmore, rfl⟩ |
    ⟨clock, apply, ha, hflight, rfl⟩ | ⟨kept, applied, listedAt, prunedAt, -, hs⟩
  · have hext := extends_append cfg s e clock
    exact Or.inl ⟨h.toWaits.extends hext, hext.inFlight ▸ h.flight⟩
  · have hext := extends_forceRoll cfg s clock
    exact Or.inl ⟨h.toWaits.extends hext, hext.inFlight ▸ h.flight⟩
  · exact Or.inl (h.toWaits.submit hi hmore)
  · exact Or.inr (h.publish hi hflight (hroom clock ha))
  · obtain ⟨hfiles, hpub, hnone⟩ := reopen_keeps hi hs
    refine Or.inl ⟨⟨hfiles f h.mem, h.records, h.covered.trans hpub⟩, fun apply happly => ?_⟩
    rw [hnone] at happly
    cases happly

structure Run (cfg : ChangeLogConfig) where
  state : Nat → WalArchive
  action : Nat → WalArchiveAction
  start : state 0 = WalArchive.opened
  steps : ∀ n, (state n).step cfg (action n) = some (state (n + 1))

namespace Run

variable (run : Run cfg)

theorem inv (n : Nat) : (run.state n).Inv := by
  induction n with
  | zero =>
    rw [run.start]
    exact Inv.opened
  | succ n ih => exact ih.step (run.steps n)

def Publishes (n : Nat) : Prop := ∃ clock, run.action n = .publishFlush clock

theorem publish_apply {n : Nat} {clock : Nat → ArchiveClock} (h : run.action n = .publishFlush clock) :
    ∃ apply, (run.state n).inFlight = some apply ∧
      run.state (n + 1) = (run.state n).publishFlush cfg apply clock := by
  have hstep := run.steps n
  rw [h] at hstep
  obtain ⟨apply, hflight, heq⟩ := Option.map_eq_some_iff.mp hstep
  exact ⟨apply, hflight, heq.symm⟩

/-- The first publication leaves nothing in flight, so the flush of the second one covers the segment. -/
theorem covered_segment_unlinked (hpublish : ∀ n, ∃ m, n ≤ m ∧ run.Publishes m)
    (hroom : ∀ n clock, run.action n = .publishFlush clock → RoomFor cfg (run.state n) clock)
    {n : Nat} (hf : f ∈ (run.state n).sealedFiles) (hrecords : f.entries ≠ [])
    (hcovered : ∀ e ∈ f.entries, e.seq ≤ (run.state n).publishedSeq) :
    ∃ m, n ≤ m ∧ Unlinked f (run.state m) := by
  have hwaits : Waits f (run.state n) := by
    refine ⟨hf, hrecords, ?_⟩
    rcases foldl_max_mem (f.entries.map WalEntry.seq) 0 with hzero | hmem
    · exact hzero.trans_le (Nat.zero_le _)
    · obtain ⟨e, he, hseq⟩ := List.mem_map.mp hmem
      exact hseq.symm.trans_le (hcovered e he)
  have hdue : LeadsTo (fun k => Waits f (run.state k))
      fun k => Due f (run.state k) ∨ Unlinked f (run.state k) := by
    refine LeadsTo.ensures run.Publishes (fun k hk => ?_) (fun k _ => hpublish k) fun k hk hpub => ?_
    · exact (hk.step (run.inv k) (run.steps k)).imp id Or.inr
    · obtain ⟨clock, hclock⟩ := hpub
      obtain ⟨apply, hflight, heq⟩ := run.publish_apply hclock
      rw [heq]
      refine (hk.publishFlush (run.inv k) hflight clock).imp (fun hw => ⟨hw, fun a ha => ?_⟩) id
      cases ha
  have hgone : LeadsTo (fun k => Due f (run.state k)) fun k => Unlinked f (run.state k) := by
    refine LeadsTo.ensures run.Publishes (fun k hk => ?_) (fun k _ => hpublish k) fun k hk hpub => ?_
    · exact hk.step (run.inv k) (run.steps k) (hroom k)
    · obtain ⟨clock, hclock⟩ := hpub
      obtain ⟨apply, hflight, heq⟩ := run.publish_apply hclock
      rw [heq]
      exact hk.publish (run.inv k) hflight (hroom k clock hclock)
  obtain ⟨m, hnm, hdue | hgone'⟩ := hdue n hwaits
  · obtain ⟨k, hmk, hk⟩ := hgone m hdue
    exact ⟨k, hnm.trans hmk, hk⟩
  · exact ⟨m, hnm, hgone'⟩

end Run

structure Turns (cfg : ChangeLogConfig) where
  length : Nat
  opening : Nat → WalArchive
  openingAction : Nat → WalArchiveAction
  turn : Nat → Nat → WalArchive
  turnAction : Nat → Nat → WalArchiveAction
  start : opening 0 = opened
  opens : ∀ n < length, (opening n).step cfg (openingAction n) = some (opening (n + 1))
  joins : opening length = turn 0 0
  turns : ∀ n, ∀ r < 4, (turn n r).step cfg (turnAction n r) =
    some (if r = 3 then turn (n + 1) 0 else turn n (r + 1))

namespace Turns

variable {cfg : ChangeLogConfig} (t : Turns cfg)

def run : Run cfg where
  state n := if n < t.length then t.opening n else t.turn ((n - t.length) / 4) ((n - t.length) % 4)
  action n := if n < t.length then t.openingAction n
    else t.turnAction ((n - t.length) / 4) ((n - t.length) % 4)
  start := by
    by_cases hk : 0 < t.length
    · rw [if_pos hk, t.start]
    · have hzero : t.length = 0 := by omega
      rw [if_neg hk, ← t.start, hzero, ← t.joins, hzero]
  steps n := by
    by_cases hlt : n < t.length
    · rw [if_pos hlt, if_pos hlt, t.opens n hlt]
      by_cases hlast : n + 1 < t.length
      · rw [if_pos hlast]
      · have hn : n + 1 = t.length := by omega
        rw [if_neg hlast, hn, t.joins, Nat.sub_self]
    · rw [if_neg hlt, if_neg hlt, if_neg (by omega), t.turns _ _ (Nat.mod_lt _ (by decide))]
      by_cases hthree : (n - t.length) % 4 = 3
      · have hdiv : (n + 1 - t.length) / 4 = (n - t.length) / 4 + 1 := by omega
        have hmod : (n + 1 - t.length) % 4 = 0 := by omega
        rw [if_pos hthree, hdiv, hmod]
      · have hdiv : (n + 1 - t.length) / 4 = (n - t.length) / 4 := by omega
        have hmod : (n + 1 - t.length) % 4 = (n - t.length) % 4 + 1 := by omega
        rw [if_neg hthree, hdiv, hmod]

theorem run_state (n : Nat) : t.run.state (t.length + n) = t.turn (n / 4) (n % 4) := by
  change (if t.length + n < t.length then _
    else t.turn ((t.length + n - t.length) / 4) ((t.length + n - t.length) % 4)) = _
  rw [if_neg (by omega), Nat.add_sub_cancel_left]

theorem run_action (n : Nat) : t.run.action (t.length + n) = t.turnAction (n / 4) (n % 4) := by
  change (if t.length + n < t.length then _
    else t.turnAction ((t.length + n - t.length) / 4) ((t.length + n - t.length) % 4)) = _
  rw [if_neg (by omega), Nat.add_sub_cancel_left]

end Turns

def smallArchive : ChangeLogConfig := ⟨0, 60⟩
def streamedFile (n : Nat) : SegmentFile := ⟨n, [.single ⟨walPut, n, 0, [1, 7], []⟩]⟩
def still : ArchiveClock := ⟨0, 0⟩

theorem archive_second {s : WalArchive} {x : ArchiveSegment} {n q : Nat}
    (hlog : s.changeLog = ⟨[x]⟩) (hx : x.sizeBytes = 40) (hne : x.segmentId ≠ n)
    (hfind : s.sealedFiles.find? (fun f => f.id = n) = some (streamedFile n)) :
    s.archiveSealedSegment smallArchive n q still =
      { s with changeLog := ⟨[if x.segmentId < n then (streamedFile n).listing q 0 else x]⟩ } := by
  have hprune : ∀ a b : ArchiveSegment, a.sizeBytes = 40 → b.sizeBytes = 40 →
      ChangeLogManifest.pruneSegments smallArchive 0 [a, b] = [b] := by
    intro a b ha hb
    simp [ChangeLogManifest.pruneSegments, ChangeLogManifest.overBytes, ChangeLogManifest.overTime,
      smallArchive, ha, hb]
  have hnot : ¬ (ChangeLogManifest.mk [x]).containsSegment n = true := by
    simp [ChangeLogManifest.containsSegment, hne]
  unfold archiveSealedSegment ChangeLogManifest.archiveSegment
  rw [hlog, if_neg hnot, hfind]
  dsimp only [ChangeLogManifest.prune, still]
  have hsort : ([x] ++ [(streamedFile n).listing q 0]).insertionSort
      (fun a b => a.segmentId ≤ b.segmentId) =
        if x.segmentId < n then [x, (streamedFile n).listing q 0]
        else [(streamedFile n).listing q 0, x] := by
    split
    next hlt => simp [streamedFile, SegmentFile.listing, hlt.le]
    next hge =>
      have hgt : ¬ x.segmentId ≤ n := by omega
      simp [streamedFile, SegmentFile.listing, hgt]
  rw [hsort]
  split
  next => rw [hprune _ _ hx rfl]
  next => rw [hprune _ _ rfl hx]

def leftBehind (n : Nat) : WalArchive where
  sealedFiles := [streamedFile 1]
  active := ⟨n + 3, []⟩
  bufferedSeq := n + 2
  sealedSegmentMaxSeq := [(1, 1)]
  changeLog := ⟨[(streamedFile (n + 2)).listing (n + 2) 0]⟩
  inFlight := none
  publishedSeq := n + 2

def nextRecord (n : Nat) : WalArchive :=
  { leftBehind n with active := streamedFile (n + 3), bufferedSeq := n + 3 }

def nextSealed (n : Nat) : WalArchive :=
  { leftBehind n with
    active := ⟨n + 4, []⟩
    bufferedSeq := n + 3
    sealedFiles := [streamedFile 1, streamedFile (n + 3)]
    sealedSegmentMaxSeq := [(1, 1), (n + 3, n + 3)]
    changeLog := ⟨[(streamedFile (n + 3)).listing (n + 3) 0]⟩ }

def nextFlush (n : Nat) : WalArchive :=
  { nextSealed n with inFlight := some ⟨some (n + 3), n + 3⟩ }

theorem step_append (n : Nat) : (leftBehind n).step smallArchive
    (.append (.single ⟨walPut, n + 3, 0, [1, 7], []⟩) still) = some (nextRecord n) := by
  have hseq : (leftBehind n).bufferedSeq < n + 3 := Nat.lt_succ_self (n + 2)
  rw [step, if_pos (show _ < WalEntry.seq _ from hseq)]
  rfl

theorem step_roll (n : Nat) :
    (nextRecord n).step smallArchive (.forceRoll still) = some (nextSealed n) := by
  have hlt : ((streamedFile (n + 2)).listing (n + 2) 0).segmentId < n + 3 := Nat.lt_succ_self (n + 2)
  have hroll : (nextRecord n).roll smallArchive still = nextSealed n := by
    have hfind : [streamedFile 1, streamedFile (n + 3)].find? (fun f => f.id = n + 3) =
        some (streamedFile (n + 3)) := by simp [streamedFile]
    refine (archive_second rfl rfl (Nat.ne_of_lt hlt) hfind).trans ?_
    rw [if_pos hlt]
    rfl
  exact congrArg some hroll

theorem step_submit (n : Nat) :
    (nextSealed n).step smallArchive (.submitFlush (n + 3)) = some (nextFlush n) := by
  have hcovered : (nextSealed n).walSegmentsCovered (n + 3) = n + 3 := by
    simp [walSegmentsCovered, nextSealed]
  rw [step, if_pos ⟨rfl, Nat.lt_succ_self (n + 2), le_rfl⟩, submitFlushApply, hcovered]
  rfl

theorem step_publish (n : Nat) :
    (nextFlush n).step smallArchive (.publishFlush fun _ => still) = some (leftBehind (n + 1)) := by
  have hlog : (nextFlush n).changeLog = ⟨[(streamedFile (n + 3)).listing (n + 3) 0]⟩ := rfl
  have hnot : (nextFlush n).changeLog.containsSegment (streamedFile 1).id = false := by
    simp [hlog, ChangeLogManifest.containsSegment, SegmentFile.listing, streamedFile]
  have hfirst : unlinkSegment smallArchive (n + 3) (fun _ => still) (nextFlush n) (streamedFile 1) =
      nextFlush n := by
    have hid : (streamedFile 1).id ≤ n + 3 ∧ (streamedFile 1).id < (nextFlush n).active.id := by
      change 1 ≤ n + 3 ∧ 1 < n + 4
      omega
    have harch : (nextFlush n).archiveSealedSegment smallArchive (streamedFile 1).id 1 still =
        nextFlush n := by
      refine (archive_second hlog rfl (by change n + 3 ≠ 1; omega) rfl).trans ?_
      rw [if_neg (by change ¬ n + 3 < 1; omega)]
      rfl
    rw [unlinkSegment_unlisted hid hnot harch, if_neg (by rw [hnot]; exact Bool.false_ne_true)]
  have hsecond : unlinkSegment smallArchive (n + 3) (fun _ => still) (nextFlush n)
      (streamedFile (n + 3)) = (nextFlush n).removeFile (n + 3) := by
    refine unlinkSegment_listed ⟨le_rfl, Nat.lt_succ_self (n + 3)⟩ ?_
    simp [hlog, ChangeLogManifest.containsSegment, SegmentFile.listing, streamedFile]
  have hfiles : (nextFlush n).sealedFiles = [streamedFile 1, streamedFile (n + 3)] := rfl
  have hloop : unlinkWalSegmentsUpTo smallArchive (n + 3) (fun _ => still) (nextFlush n) =
      (nextFlush n).removeFile (n + 3) := by
    rw [unlinkWalSegmentsUpTo, hfiles, List.foldl_cons, hfirst, List.foldl_cons, hsecond,
      List.foldl_nil]
  change some { unlinkWalSegmentsUpTo smallArchive (n + 3) (fun _ => still) (nextFlush n) with
    inFlight := none, publishedSeq := n + 3 } = some (leftBehind (n + 1))
  rw [hloop]
  simp [removeFile, nextFlush, nextSealed, leftBehind, streamedFile]

def openingAction : Nat → WalArchiveAction
  | 0 => .append (.single ⟨walPut, 1, 0, [1, 7], []⟩) still
  | 1 => .forceRoll still
  | 2 => .append (.single ⟨walPut, 2, 0, [1, 7], []⟩) still
  | 3 => .forceRoll still
  | 4 => .submitFlush 2
  | _ => .publishFlush fun _ => still

def opening : Nat → WalArchive
  | 0 => opened
  | n + 1 => ((opening n).step smallArchive (openingAction n)).getD opened

def turnState (n : Nat) : Nat → WalArchive
  | 0 => leftBehind n
  | 1 => nextRecord n
  | 2 => nextSealed n
  | _ => nextFlush n

def turnAction (n : Nat) : Nat → WalArchiveAction
  | 0 => .append (.single ⟨walPut, n + 3, 0, [1, 7], []⟩) still
  | 1 => .forceRoll still
  | 2 => .submitFlush (n + 3)
  | _ => .publishFlush fun _ => still

theorem step_turn (n : Nat) {r : Nat} (hr : r < 4) :
    (turnState n r).step smallArchive (turnAction n r) =
      some (if r = 3 then turnState (n + 1) 0 else turnState n (r + 1)) := by
  interval_cases r
  · exact step_append n
  · exact step_roll n
  · exact step_submit n
  · exact step_publish n

def leftBehindTurns : Turns smallArchive where
  length := 6
  opening := opening
  openingAction := openingAction
  turn := turnState
  turnAction := turnAction
  start := rfl
  opens n hn := by interval_cases n <;> rfl
  joins := rfl
  turns n r hr := step_turn n hr

theorem mem_turnState (n : Nat) (r : Nat) :
    streamedFile 1 ∈ (turnState n r).sealedFiles ∧ 1 ≤ (turnState n r).publishedSeq := by
  unfold turnState
  split <;> exact ⟨List.mem_cons_self, Nat.succ_le_succ (Nat.zero_le _)⟩

/-- The archive keeps sixty bytes. Every flush that is published archives the first segment again, and
every time the listing is dropped again, before the segment could be unlinked. -/
theorem first_segment_stays :
    ∃ run : Run smallArchive, (∀ n, ∃ m, n ≤ m ∧ run.Publishes m) ∧
      ∀ n, 6 ≤ n → streamedFile 1 ∈ (run.state n).sealedFiles ∧
        ∀ e ∈ (streamedFile 1).entries, e.seq ≤ (run.state n).publishedSeq := by
  refine ⟨leftBehindTurns.run, fun n => ⟨6 + (4 * n + 3), by omega, fun _ => still, ?_⟩, fun n hn => ?_⟩
  · have haction := leftBehindTurns.run_action (4 * n + 3)
    have hmod : (4 * n + 3) % 4 = 3 := by omega
    rw [hmod] at haction
    exact haction
  · obtain ⟨k, rfl⟩ := Nat.exists_eq_add_of_le hn
    have hstate : leftBehindTurns.run.state (6 + k) = turnState (k / 4) (k % 4) :=
      leftBehindTurns.run_state k
    rw [hstate]
    obtain ⟨hmem, hseq⟩ := mem_turnState (k / 4) (k % 4)
    refine ⟨hmem, fun e he => ?_⟩
    cases List.mem_singleton.mp he
    exact hseq

def flushedSealed (n : Nat) : WalArchive where
  sealedFiles := [streamedFile (n + 1)]
  active := ⟨n + 2, []⟩
  bufferedSeq := n + 1
  sealedSegmentMaxSeq := [(n + 1, n + 1)]
  changeLog := ⟨[(streamedFile (n + 1)).listing (n + 1) 0]⟩
  inFlight := none
  publishedSeq := n + 1

def flushedTurn (n : Nat) : Nat → WalArchive
  | 0 => flushedSealed n
  | 1 => { flushedSealed n with active := streamedFile (n + 2), bufferedSeq := n + 2 }
  | 2 =>
    { flushedSealed n with
      active := streamedFile (n + 2)
      bufferedSeq := n + 2
      inFlight := some ⟨some (n + 1), n + 2⟩ }
  | _ =>
    { flushedSealed n with
      active := streamedFile (n + 2)
      bufferedSeq := n + 2
      sealedFiles := []
      sealedSegmentMaxSeq := []
      publishedSeq := n + 2 }

def flushedAction (n : Nat) : Nat → WalArchiveAction
  | 0 => .append (.single ⟨walPut, n + 2, 0, [1, 7], []⟩) still
  | 1 => .submitFlush (n + 2)
  | 2 => .publishFlush fun _ => still
  | _ => .forceRoll still

theorem step_flushedTurn (n : Nat) {r : Nat} (hr : r < 4) :
    (flushedTurn n r).step smallArchive (flushedAction n r) =
      some (if r = 3 then flushedTurn (n + 1) 0 else flushedTurn n (r + 1)) := by
  interval_cases r
  · have hseq : (flushedTurn n 0).bufferedSeq < n + 2 := Nat.lt_succ_self (n + 1)
    rw [flushedAction, step, if_pos (show _ < WalEntry.seq _ from hseq)]
    rfl
  · have hcovered : (flushedTurn n 1).walSegmentsCovered (n + 2) = n + 1 := by
      simp [walSegmentsCovered, flushedTurn, flushedSealed, streamedFile]
    rw [flushedAction, step, if_pos ⟨rfl, Nat.lt_succ_self (n + 1), le_rfl⟩, submitFlushApply, hcovered]
    rfl
  · have hlisted : (flushedTurn n 2).changeLog.containsSegment (streamedFile (n + 1)).id = true := by
      simp [flushedTurn, flushedSealed, ChangeLogManifest.containsSegment, SegmentFile.listing,
        streamedFile]
    have hone : unlinkSegment smallArchive (n + 1) (fun _ => still) (flushedTurn n 2)
        (streamedFile (n + 1)) = (flushedTurn n 2).removeFile (n + 1) :=
      unlinkSegment_listed ⟨le_rfl, Nat.lt_succ_self (n + 1)⟩ hlisted
    have hfiles : (flushedTurn n 2).sealedFiles = [streamedFile (n + 1)] := rfl
    have hunlink : unlinkWalSegmentsUpTo smallArchive (n + 1) (fun _ => still) (flushedTurn n 2) =
        (flushedTurn n 2).removeFile (n + 1) := by
      rw [unlinkWalSegmentsUpTo, hfiles, List.foldl_cons, hone, List.foldl_nil]
    change some { unlinkWalSegmentsUpTo smallArchive (n + 1) (fun _ => still) (flushedTurn n 2) with
      inFlight := none, publishedSeq := n + 2 } = _
    rw [hunlink]
    simp [removeFile, flushedTurn, flushedSealed, streamedFile]
  · have hlt : ((streamedFile (n + 1)).listing (n + 1) 0).segmentId < n + 2 := Nat.lt_succ_self (n + 1)
    have hfind : [streamedFile (n + 2)].find? (fun f => f.id = n + 2) =
        some (streamedFile (n + 2)) := by simp [streamedFile]
    have hroll : (flushedTurn n 3).roll smallArchive still = flushedSealed (n + 1) := by
      refine (archive_second rfl rfl (Nat.ne_of_lt hlt) hfind).trans ?_
      rw [if_pos hlt]
      rfl
    exact congrArg some hroll

def flushedOpeningAction : Nat → WalArchiveAction
  | 0 => .append (.single ⟨walPut, 1, 0, [1, 7], []⟩) still
  | 1 => .submitFlush 1
  | 2 => .publishFlush fun _ => still
  | _ => .forceRoll still

def flushedOpening : Nat → WalArchive
  | 0 => opened
  | n + 1 => ((flushedOpening n).step smallArchive (flushedOpeningAction n)).getD opened

def flushedTurns : Turns smallArchive where
  length := 4
  opening := flushedOpening
  openingAction := flushedOpeningAction
  turn := flushedTurn
  turnAction := flushedAction
  start := rfl
  opens n hn := by interval_cases n <;> rfl
  joins := rfl
  turns n r hr := step_flushedTurn n hr

theorem roomFor_flushedTurn (n r : Nat) (clock : Nat → ArchiveClock) :
    RoomFor smallArchive (flushedTurn n r) clock := by
  intro apply happly upToId hup f hf _
  unfold flushedTurn at happly hf ⊢
  split at happly
  next => cases happly
  next => cases happly
  next =>
    cases List.mem_singleton.mp hf
    refine Or.inl ?_
    simp [flushedSealed, ChangeLogManifest.containsSegment, SegmentFile.listing, streamedFile]
  next => cases happly

theorem roomFor_flushedOpening {n : Nat} (hn : n < 4) (clock : Nat → ArchiveClock) :
    RoomFor smallArchive (flushedOpening n) clock := by
  intro apply happly upToId hup
  interval_cases n
  · cases happly
  · cases happly
  · cases Option.some.inj happly
    cases hup
  · cases happly

/-- In that run each flush unlinks the segment before it. -/
theorem flushed_segment_unlinked :
    streamedFile 1 ∈ (flushedTurns.run.state 4).sealedFiles ∧
      ∃ m, 4 ≤ m ∧ Unlinked (streamedFile 1) (flushedTurns.run.state m) := by
  have hpublish : ∀ n, ∃ m, n ≤ m ∧ flushedTurns.run.Publishes m := by
    intro n
    refine ⟨4 + (4 * n + 2), by omega, fun _ => still, ?_⟩
    have haction := flushedTurns.run_action (4 * n + 2)
    have hmod : (4 * n + 2) % 4 = 2 := by omega
    rw [hmod] at haction
    exact haction
  have hmem : streamedFile 1 ∈ (flushedTurns.run.state 4).sealedFiles := List.mem_cons_self
  refine ⟨hmem, flushedTurns.run.covered_segment_unlinked hpublish (fun n clock hn => ?_) hmem
    (List.cons_ne_nil _ _) fun e he => ?_⟩
  · by_cases hlt : n < 4
    · have hstate : flushedTurns.run.state n = flushedOpening n := if_pos hlt
      rw [hstate]
      exact roomFor_flushedOpening hlt clock
    · obtain ⟨k, rfl⟩ := Nat.exists_eq_add_of_le (not_lt.mp hlt)
      have hstate : flushedTurns.run.state (4 + k) = flushedTurn (k / 4) (k % 4) :=
        flushedTurns.run_state k
      rw [hstate]
      exact roomFor_flushedTurn (k / 4) (k % 4) clock
  · cases List.mem_singleton.mp he
    exact le_rfl

end WalArchive

end ZydecoDb
