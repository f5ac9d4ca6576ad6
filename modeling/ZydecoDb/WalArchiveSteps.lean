import ZydecoDb.WalReclaim

namespace ZydecoDb

open Lib

theorem segmentMaxSeq_concat (entries : List WalEntry) (e : WalEntry) :
    segmentMaxSeq (entries ++ [e]) = max (segmentMaxSeq entries) e.seq := by
  rw [segmentMaxSeq, List.map_append, List.foldl_append]
  rfl

theorem le_segmentMaxSeq {entries : List WalEntry} {e : WalEntry} (h : e ∈ entries) :
    e.seq ≤ segmentMaxSeq entries :=
  foldl_max_ge.2 _ (List.mem_map_of_mem h)

namespace WalArchive

variable {cfg : ChangeLogConfig} {s s' : WalArchive} {f : SegmentFile}

structure Inv (s : WalArchive) : Prop where
  ids : (s.sealedFiles ++ [s.active]).Pairwise fun f g => f.id < g.id
  positive : ∀ f ∈ s.sealedFiles ++ [s.active], 0 < f.id ∧ ∀ e ∈ f.entries, 0 < e.seq
  recorded : ∀ f ∈ s.sealedFiles, f.entries ≠ [] → (f.id, f.maxSeq) ∈ s.sealedSegmentMaxSeq
  last : s.active.entries ≠ [] → s.active.maxSeq = s.bufferedSeq
  flight : ∀ apply ∈ s.inFlight, s.publishedSeq < apply.flushMaxSeq

namespace Inv

theorem opened : WalArchive.opened.Inv := by
  refine ⟨List.pairwise_singleton _ _, ?_, ?_, ?_, ?_⟩ <;> simp [WalArchive.opened]

theorem before_active (h : s.Inv) (hf : f ∈ s.sealedFiles) : f.id < s.active.id :=
  (List.pairwise_append.mp h.ids).2.2 f hf s.active (List.mem_singleton_self _)

theorem changeLog (h : s.Inv) (m : ChangeLogManifest) : Inv { s with changeLog := m } :=
  ⟨h.ids, h.positive, h.recorded, h.last, h.flight⟩

theorem removeFile (h : s.Inv) (id : Nat) : (s.removeFile id).Inv where
  ids := h.ids.sublist (List.filter_sublist.append_right _)
  positive g hg := by
    refine h.positive g (List.mem_append.mpr ?_)
    rcases List.mem_append.mp hg with hg | hg
    · exact Or.inl (List.mem_filter.mp hg).1
    · exact Or.inr hg
  recorded g hg hne := by
    obtain ⟨hg, hid⟩ := List.mem_filter.mp hg
    exact List.mem_filter.mpr ⟨h.recorded g hg hne, hid⟩
  last := h.last
  flight := h.flight

end Inv

theorem roll_frame (cfg : ChangeLogConfig) (s : WalArchive) (clock : ArchiveClock) :
    ∃ m, s.roll cfg clock =
      { s with
        sealedFiles := s.sealedFiles ++ [s.active]
        sealedSegmentMaxSeq :=
          (s.sealedSegmentMaxSeq.filter fun p => p.1 ≠ s.active.id) ++ [(s.active.id, s.bufferedSeq)]
        active := ⟨s.active.id + 1, []⟩
        changeLog := m } :=
  archiveSealedSegment_frame cfg _ s.active.id s.bufferedSeq clock

theorem Inv.roll (h : s.Inv) (clock : ArchiveClock) : (s.roll cfg clock).Inv := by
  obtain ⟨m, hm⟩ := roll_frame cfg s clock
  rw [hm]
  refine ⟨?_, fun g hg => ?_, fun g hg hne => ?_, fun hne => absurd rfl hne, h.flight⟩
  · refine List.pairwise_append.mpr ⟨h.ids, List.pairwise_singleton _ _, fun g hg a ha => ?_⟩
    cases List.mem_singleton.mp ha
    rcases List.mem_append.mp hg with hg | hg
    · exact Nat.lt_succ_of_lt (h.before_active hg)
    · cases List.mem_singleton.mp hg
      exact Nat.lt_succ_self _
  · rcases List.mem_append.mp hg with hg | hg
    · exact h.positive g hg
    · cases List.mem_singleton.mp hg
      exact ⟨Nat.succ_pos _, fun e he => absurd he List.not_mem_nil⟩
  · rcases List.mem_append.mp hg with hg | hg
    · have hlt := h.before_active hg
      refine List.mem_append_left _ (List.mem_filter.mpr ⟨h.recorded g hg hne, decide_eq_true ?_⟩)
      exact Nat.ne_of_lt hlt
    · cases List.mem_singleton.mp hg
      rw [h.last hne]
      exact List.mem_append_right _ (List.mem_singleton_self _)

theorem Inv.append (h : s.Inv) {e : WalEntry} (hseq : s.bufferedSeq < e.seq) :
    Inv { s with active := ⟨s.active.id, s.active.entries ++ [e]⟩, bufferedSeq := e.seq } where
  ids := by
    obtain ⟨hsealed, -, hlt⟩ := List.pairwise_append.mp h.ids
    refine List.pairwise_append.mpr ⟨hsealed, List.pairwise_singleton _ _, fun g hg a ha => ?_⟩
    cases List.mem_singleton.mp ha
    exact hlt g hg s.active (List.mem_singleton_self _)
  positive g hg := by
    rcases List.mem_append.mp hg with hg | hg
    · exact h.positive g (List.mem_append_left _ hg)
    · cases List.mem_singleton.mp hg
      obtain ⟨hid, hpos⟩ := h.positive s.active (List.mem_append_right _ (List.mem_singleton_self _))
      refine ⟨hid, fun w hw => ?_⟩
      rcases List.mem_append.mp hw with hw | hw
      · exact hpos w hw
      · cases List.mem_singleton.mp hw
        omega
  recorded := h.recorded
  last _ := by
    have hle : segmentMaxSeq s.active.entries ≤ s.bufferedSeq := by
      by_cases hne : s.active.entries = []
      · rw [hne]
        exact Nat.zero_le _
      · exact (h.last hne).le
    change segmentMaxSeq (s.active.entries ++ [e]) = e.seq
    rw [segmentMaxSeq_concat]
    omega
  flight := h.flight

theorem Inv.unlinkSegment (h : s.Inv) (upToId : Nat) (clock : Nat → ArchiveClock) (f : SegmentFile) :
    (unlinkSegment cfg upToId clock s f).Inv := by
  obtain ⟨m, hm | ⟨-, hm⟩⟩ := unlinkSegment_cases cfg upToId clock s f
  · rw [hm]
    exact h.changeLog m
  · rw [hm]
    exact (h.changeLog m).removeFile f.id

theorem Inv.foldl_unlink {upToId : Nat} {clock : Nat → ArchiveClock} {files : List SegmentFile}
    (h : s.Inv) : (files.foldl (WalArchive.unlinkSegment cfg upToId clock) s).Inv := by
  induction files generalizing s with
  | nil => exact h
  | cons f files ih => exact ih (h.unlinkSegment upToId clock f)

theorem Inv.publishFlush (h : s.Inv) (apply : FlushApply) (clock : Nat → ArchiveClock) :
    (s.publishFlush cfg apply clock).Inv := by
  have hsettled : ∀ t : WalArchive, t.Inv → ∀ seq, Inv { t with inFlight := none, publishedSeq := seq } :=
    fun t ht seq => ⟨ht.ids, ht.positive, ht.recorded, ht.last, fun a ha => by cases ha⟩
  unfold WalArchive.publishFlush
  refine hsettled _ ?_ _
  split
  next => exact h
  next => exact h.foldl_unlink

theorem Inv.reopen {kept prunedAt : Nat} {applied : Bool} {listedAt : Nat → Nat} (h : s.Inv)
    (hs : s.reopen cfg kept applied listedAt prunedAt = some s') : s'.Inv := by
  unfold WalArchive.reopen at hs
  dsimp only at hs
  split at hs
  next => cases hs
  next m hm =>
    cases Option.some.inj hs
    have hfiles : ∀ g ∈ s.sealedFiles ++ [⟨s.active.id, s.active.entries.take kept⟩],
        g.id ≤ s.active.id ∧ 0 < g.id ∧ ∀ e ∈ g.entries, 0 < e.seq := by
      intro g hg
      rcases List.mem_append.mp hg with hg | hg
      · exact ⟨(h.before_active hg).le, h.positive g (List.mem_append_left _ hg)⟩
      · cases List.mem_singleton.mp hg
        obtain ⟨hid, hpos⟩ := h.positive s.active (List.mem_append_right _ (List.mem_singleton_self _))
        exact ⟨le_rfl, hid, fun e he => hpos e (List.mem_of_mem_take he)⟩
    refine ⟨?_, fun g hg => ?_, fun g hg hne => ?_, fun hne => absurd rfl hne, fun a ha => by cases ha⟩
    · obtain ⟨hsealed, -, hlt⟩ := List.pairwise_append.mp h.ids
      refine List.pairwise_append.mpr ⟨List.pairwise_append.mpr ⟨hsealed, List.pairwise_singleton _ _,
        fun g hg a ha => ?_⟩, List.pairwise_singleton _ _, fun g hg a ha => ?_⟩
      · cases List.mem_singleton.mp ha
        exact hlt g hg s.active (List.mem_singleton_self _)
      · cases List.mem_singleton.mp ha
        exact Nat.lt_succ_of_le (hfiles g hg).1
    · rcases List.mem_append.mp hg with hg | hg
      · exact (hfiles g hg).2
      · cases List.mem_singleton.mp hg
        exact ⟨Nat.succ_pos _, fun e he => absurd he List.not_mem_nil⟩
    · obtain ⟨e, he⟩ := List.exists_mem_of_ne_nil _ hne
      have hpos := (hfiles g hg).2.2 e he
      have hle : e.seq ≤ g.maxSeq := le_segmentMaxSeq he
      refine List.mem_map.mpr ⟨g, List.mem_filter.mpr ⟨hg, decide_eq_true ?_⟩, rfl⟩
      omega

theorem step_cases {a : WalArchiveAction} (hs : s.step cfg a = some s') :
    (∃ e clock, a = .append e clock ∧ s.bufferedSeq < e.seq ∧ s' = s.appendBytesBuffered cfg e clock) ∨
    (∃ clock, a = .forceRoll clock ∧ s' = s.forceRollWal cfg clock) ∨
    (∃ maxSeq, a = .submitFlush maxSeq ∧ s.inFlight = none ∧ s.publishedSeq < maxSeq ∧
      s' = s.submitFlushApply maxSeq) ∨
    (∃ clock apply, a = .publishFlush clock ∧ s.inFlight = some apply ∧
      s' = s.publishFlush cfg apply clock) ∨
    ∃ kept applied listedAt prunedAt, a = .reopen kept applied listedAt prunedAt ∧
      s.reopen cfg kept applied listedAt prunedAt = some s' := by
  cases a with
  | append e clock =>
    simp only [step] at hs
    split at hs
    next hseq => exact Or.inl ⟨e, clock, rfl, hseq, (Option.some.inj hs).symm⟩
    next => cases hs
  | forceRoll clock => exact Or.inr (Or.inl ⟨clock, rfl, (Option.some.inj hs).symm⟩)
  | submitFlush maxSeq =>
    simp only [step] at hs
    split at hs
    next hok =>
      exact Or.inr (Or.inr (Or.inl ⟨maxSeq, rfl, hok.1, hok.2.1, (Option.some.inj hs).symm⟩))
    next => cases hs
  | publishFlush clock =>
    obtain ⟨apply, hflight, rfl⟩ := Option.map_eq_some_iff.mp hs
    exact Or.inr (Or.inr (Or.inr (Or.inl ⟨clock, apply, rfl, hflight, rfl⟩)))
  | reopen kept applied listedAt prunedAt =>
    exact Or.inr (Or.inr (Or.inr (Or.inr ⟨kept, applied, listedAt, prunedAt, rfl, hs⟩)))

theorem append_frame (cfg : ChangeLogConfig) (s : WalArchive) (e : WalEntry) (clock : ArchiveClock) :
    ∃ t, (t = s ∨ t = s.roll cfg clock) ∧ s.appendBytesBuffered cfg e clock =
      { t with active := ⟨t.active.id, t.active.entries ++ [e]⟩, bufferedSeq := e.seq } := by
  unfold appendBytesBuffered
  split
  next => exact ⟨_, Or.inr rfl, rfl⟩
  next => exact ⟨_, Or.inl rfl, rfl⟩

theorem Inv.step {a : WalArchiveAction} (h : s.Inv) (hs : s.step cfg a = some s') : s'.Inv := by
  rcases step_cases hs with ⟨e, clock, -, hseq, rfl⟩ | ⟨clock, -, rfl⟩ | ⟨maxSeq, -, -, hmore, rfl⟩ |
    ⟨clock, apply, -, -, rfl⟩ | ⟨kept, applied, listedAt, prunedAt, -, hs⟩
  · obtain ⟨t, rfl | rfl, happend⟩ := append_frame cfg s e clock
    · rw [happend]
      exact h.append hseq
    · rw [happend]
      refine (h.roll clock).append ?_
      obtain ⟨m, hm⟩ := roll_frame cfg s clock
      rw [hm]
      exact hseq
  · unfold forceRollWal
    split
    next => exact h
    next => exact h.roll clock
  · refine ⟨h.ids, h.positive, h.recorded, h.last, fun a ha => ?_⟩
    cases Option.some.inj ha
    exact hmore
  · exact h.publishFlush apply clock
  · exact h.reopen hs

end WalArchive

end ZydecoDb
