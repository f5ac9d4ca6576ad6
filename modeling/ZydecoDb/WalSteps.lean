import ZydecoDb.WalInvariant

namespace ZydecoDb

open Lib

def OwnerPc.sync : OwnerPc → Option (SyncPc × AfterSync)
  | .syncing pc next => some (pc, next)
  | _ => none

def CoordinatorPc.sync : CoordinatorPc → Option SyncPc
  | .syncing pc => some pc
  | _ => none

def SyncPc.fsyncs : SyncPc → Bool
  | .fsyncing _ _ => true
  | _ => false

namespace CommitServer

variable {s s' : CommitServer}

/-- A write that syncs inline must not fail in that fsync: its record is in the segment by then, and
would never reach the memtable. And no fsync succeeds over a record that was in an fsync that failed,
unless a table has the record by then. -/
def SyncSafe (s : CommitServer) : CommitAction → Prop
  | .owner ok => ∀ x ∈ s.owner.sync,
    (ok = true → s.Fresh x.1) ∧ (ok = false → x.1.fsyncs = true → x.2.inserts = none)
  | .coordinator ok => ok = true → ∀ pc ∈ s.coordinator.sync, s.Fresh pc
  | _ => True

instance decidableSyncSafe (s : CommitServer) : (a : CommitAction) → Decidable (s.SyncSafe a)
  | .owner _ => inferInstanceAs (Decidable (∀ x ∈ s.owner.sync, _ ∧ _))
  | .coordinator _ => inferInstanceAs (Decidable (_ → ∀ pc ∈ s.coordinator.sync, _))
  | .write _ _ | .forceRoll | .syncWal | .freeze | .publishFlush | .stop => isTrue trivial

theorem SyncSafe.fresh {ok : Bool} (h : s.SyncSafe (.owner ok)) {pc : SyncPc} {next : AfterSync}
    (hs : s.owner = .syncing pc next) (hok : ok = true) : s.Fresh pc :=
  (h (pc, next) (by simp [OwnerPc.sync, hs])).1 hok

theorem SyncSafe.not_inline {target : Nat} {covers : List Nat} {next : AfterSync}
    (h : s.SyncSafe (.owner false)) (hs : s.owner = .syncing (.fsyncing target covers) next) :
    next.inserts = none :=
  (h (.fsyncing target covers, next) (by simp [OwnerPc.sync, hs])).2 rfl rfl

theorem OwnerPc.pending_syncing (pc pc' : SyncPc) (next : AfterSync) :
    OwnerPc.pending (.syncing pc next) = OwnerPc.pending (.syncing pc' next) := by
  cases next <;> rfl

theorem OwnerPc.pending_afterSync (pc : SyncPc) (next : AfterSync) :
    OwnerPc.pending (.afterSync next) = OwnerPc.pending (.syncing pc next) := by
  cases next <;> rfl

theorem OwnerPc.reserved_syncing (pc pc' : SyncPc) (next : AfterSync) :
    OwnerPc.reserved (.syncing pc next) = OwnerPc.reserved (.syncing pc' next) := by
  cases next with
  | roll append => cases append <;> rfl
  | done | insert seq => rfl

theorem OwnerPc.reserved_afterSync (pc : SyncPc) (next : AfterSync) :
    OwnerPc.reserved (.afterSync next) = OwnerPc.reserved (.syncing pc next) := by
  cases next with
  | roll append => cases append <;> rfl
  | done | insert seq => rfl

theorem syncStep_failed {w : WalSync} {ok : Bool} {pc : SyncPc}
    (h : (w.syncStep ok pc).2 = .failed) :
    ok = false ∧ ∃ target covers, pc = .fsyncing target covers := by
  cases pc with
  | start | behind target | opened target segment | fsynced target =>
    simp [WalSync.syncStep] at h
  | loaded target =>
    simp only [WalSync.syncStep] at h
    split at h <;> simp at h
  | fsyncing target covers =>
    cases ok with
    | true => simp [WalSync.syncStep] at h
    | false => exact ⟨rfl, target, covers, rfl⟩

section

variable (hi : s.Inv)
include hi

theorem Inv.ownerSync {pc : SyncPc} {next : AfterSync} {ok : Bool}
    (hs : s.owner = .syncing pc next) (hok : s.SyncSafe (.owner ok))
    (h : s.ownerStep ok = some s') : s'.Inv := by
  have hsound := hi.owner
  rw [hs] at hsound
  obtain ⟨hp, hfull, hins⟩ := hsound
  obtain ⟨hturn, hrun, hret⟩ := syncStep_spec hi hp (hok.fresh hs)
  have hi' := hi.turn hturn
  have hbuf : (s.wal.syncStep ok pc).1.bufferedSeq = s.wal.bufferedSeq := hturn.buffered
  simp only [ownerStep, hs] at h
  cases hout : (s.wal.syncStep ok pc).2 with
  | running pc' =>
    rw [hout] at h
    cases Option.some.inj h
    obtain ⟨hp', hfull'⟩ := hrun pc' hout
    refine hi'.setOwner hs (.syncing pc' next) ?_ (by simp) ?_ ?_ ⟨hp', ?_, ?_⟩
    · intro r _ hpend
      exact Or.inr (OwnerPc.pending_syncing pc pc' next ▸ hpend)
    · intro n hpend
      exact OwnerPc.pending_syncing pc' pc next ▸ hpend
    · intro n hres
      exact OwnerPc.reserved_syncing pc' pc next ▸ hres
    · exact hbuf ▸ hfull' hfull
    · exact hbuf ▸ hins
  | ok n =>
    rw [hout] at h
    cases Option.some.inj h
    have hdur := (hret n hout).2 hfull
    refine hi'.setOwner hs (.afterSync next) ?_ (by simp) ?_ ?_ ?_
    · intro r _ hpend
      exact Or.inr (OwnerPc.pending_afterSync pc next ▸ hpend)
    · intro n hpend
      exact OwnerPc.pending_afterSync pc next ▸ hpend
    · intro n hres
      exact OwnerPc.reserved_afterSync pc next ▸ hres
    · cases next with
      | done => trivial
      | roll append =>
        intro r hr
        refine hi'.watermark r hr ?_
        rcases hi'.buffered r hr with hle | ⟨i, hadv⟩
        · exact hle.trans (hbuf ▸ hdur)
        · rw [show _ = OwnerPc.syncing _ _ from hs] at hadv
          simp at hadv
      | insert seq =>
        show seq ≤ (s.wal.syncStep ok pc).1.bufferedSeq
        rw [hbuf]
        exact hins seq rfl
  | failed =>
    rw [hout] at h
    cases Option.some.inj h
    obtain ⟨rfl, target, covers, rfl⟩ := syncStep_failed hout
    refine hi'.setOwner hs .idle ?_ (by simp) (by simp [OwnerPc.pending])
      (by simp [OwnerPc.reserved]) trivial
    intro r _ hpend
    cases next with
    | insert seq => exact absurd (hok.not_inline hs) (by simp [AfterSync.inserts])
    | done | roll append => simp [OwnerPc.pending] at hpend

theorem Inv.openSegment {append : Option (Nat × Bool)} (hs : s.owner = .opening append) :
    Inv { s with wal := s.wal.setActive, owner := .afterRoll append } := by
  have hall : ∀ r ∈ s.wal.records, s.Durable r.1 := by
    have hsound := hi.owner
    rwa [hs] at hsound
  have hres : ∀ n, OwnerPc.reserved (.afterRoll append) = some n → s.owner.reserved = some n := by
    intro n hn
    rw [hs]
    cases append <;> exact hn
  have hpend : OwnerPc.pending (.afterRoll append) = none := by
    cases append <;> rfl
  refine ⟨hi.watermark, hi.synced_le, hi.coordinator_le, hi.buffered_lt, hi.record_lt, ?_,
    fun r hr _ => hall r hr, fun r hr => Or.inl (hall r hr), hi.order, hi.memtable_le,
    fun n hn => by simp [hpend] at hn, fun n hn => hi.reserved_gt n (hres n hn), ?_, ?_⟩
  · intro r hr
    rcases hi.buffered r hr with hle | ⟨i, hadv⟩
    · exact Or.inl hle
    · simp [hs] at hadv
  · cases append <;> trivial
  · intro pc hpc
    exact (hi.coordinator pc hpc).mono (le_refl _) (fun r hd => hd) fun r hr _ => hr

theorem Inv.append {seq : Nat} {inline : Bool} (hs : s.owner = .appending seq inline) :
    Inv { s with wal := s.wal.write seq, owner := .advancing seq inline } := by
  obtain ⟨hbuf, hnext, hrec⟩ := hi.reserved_gt seq (by rw [hs]; rfl)
  have hmem : ∀ r, r ∈ (s.wal.write seq).records ↔ r ∈ s.wal.records ∨ r = (seq, s.wal.active) := by
    simp [WalSync.write]
  refine ⟨?_, hi.synced_le, hi.coordinator_le, hi.buffered_lt, ?_, ?_, ?_, ?_, hi.order,
    hi.memtable_le, ?_, by simp [OwnerPc.reserved], trivial, ?_⟩
  · intro r hr hle
    rcases (hmem r).mp hr with hr | rfl
    · exact hi.watermark r hr hle
    · have hsync := hi.synced_le
      have hle' : seq ≤ s.wal.syncedSeq := hle
      omega
  · intro r hr
    rcases (hmem r).mp hr with hr | rfl
    · exact hi.record_lt r hr
    · exact hnext
  · intro r hr
    rcases (hmem r).mp hr with hr | rfl
    · refine Or.inl ?_
      rcases hi.buffered r hr with hle | ⟨i, hadv⟩
      · exact hle
      · simp [hs] at hadv
    · exact Or.inr ⟨inline, rfl⟩
  · intro r hr ha
    rcases (hmem r).mp hr with hr | rfl
    · exact hi.sealed r hr ha
    · exact absurd rfl ha
  · intro r hr
    rcases (hmem r).mp hr with hr | rfl
    · rcases hi.held r hr with hd | hf | hm | hp
      · exact Or.inl hd
      · exact Or.inr (Or.inl hf)
      · exact Or.inr (Or.inr (Or.inl hm))
      · simp [hs, OwnerPc.pending] at hp
    · exact Or.inr (Or.inr (Or.inr rfl))
  · intro n hn
    cases hn
    refine ⟨hnext, fun m hm x hx => ?_⟩
    have hle := hi.memtable_le m hm x hx
    omega
  · intro pc hpc
    refine (hi.coordinator pc hpc).mono (le_refl _) (fun r hd => hd) fun r hr hle => ?_
    rcases (hmem r).mp hr with hr | rfl
    · exact hr
    · have hle' : seq ≤ s.wal.bufferedSeq := hle
      omega

theorem Inv.advance {seq : Nat} {inline : Bool} (hs : s.owner = .advancing seq inline) :
    Inv { s with
      wal := s.wal.advanceBuffered seq
      owner := if inline then .syncing .start (.insert seq) else .inserting seq } := by
  obtain ⟨hnext, hlt⟩ := hi.pending_gt seq (by rw [hs]; rfl)
  have hpend : OwnerPc.pending (if inline then .syncing .start (.insert seq) else .inserting seq) =
      some seq := by
    cases inline <;> rfl
  have hres : OwnerPc.reserved (if inline then .syncing .start (.insert seq) else .inserting seq) =
      none := by
    cases inline <;> rfl
  have hbuf : (s.wal.advanceBuffered seq).bufferedSeq = max s.wal.bufferedSeq seq := rfl
  refine ⟨hi.watermark, hi.synced_le.trans (le_max_left _ _), hi.coordinator_le, ?_, hi.record_lt, ?_,
    hi.sealed, ?_, hi.order, ?_, ?_, by simp [hres], ?_, ?_⟩
  · have hlt := hi.buffered_lt
    show max s.wal.bufferedSeq seq < s.nextSeq
    omega
  · intro r hr
    refine Or.inl ?_
    show r.1 ≤ max s.wal.bufferedSeq seq
    rcases hi.buffered r hr with hle | ⟨i, hadv⟩
    · omega
    · rw [hs] at hadv
      cases hadv
      omega
  · intro r hr
    rcases hi.held r hr with hd | hf | hm | hp
    · exact Or.inl hd
    · exact Or.inr (Or.inl hf)
    · exact Or.inr (Or.inr (Or.inl hm))
    · rw [hs] at hp
      exact Or.inr (Or.inr (Or.inr (hpend.trans hp)))
  · intro m hm x hx
    exact (hi.memtable_le m hm x hx).trans (le_max_left _ _)
  · intro n hn
    rw [hpend] at hn
    cases hn
    exact ⟨hnext, hlt⟩
  · cases inline with
    | true => exact ⟨trivial, trivial, fun n hn => by cases hn; exact le_max_right _ _⟩
    | false => exact le_max_right _ _
  · intro pc hpc
    exact (hi.coordinator pc hpc).mono (le_max_left _ _) (fun r hd => hd) fun r hr _ => hr

theorem Inv.insert {seq : Nat} (hs : s.owner = .inserting seq) :
    Inv { s with memtable := s.memtable ++ [seq], owner := .idle } := by
  obtain ⟨hnext, hlt⟩ := hi.pending_gt seq (by rw [hs]; rfl)
  have hle : seq ≤ s.wal.bufferedSeq := by
    have hsound := hi.owner
    rwa [hs] at hsound
  obtain ⟨hfrozen, -, hcross⟩ := List.pairwise_append.mp hi.order
  refine ⟨hi.watermark, hi.synced_le, hi.coordinator_le, hi.buffered_lt, hi.record_lt, ?_, hi.sealed,
    ?_, ?_, ?_, by simp [OwnerPc.pending], by simp [OwnerPc.reserved], trivial, hi.coordinator⟩
  · intro r hr
    rcases hi.buffered r hr with hle | ⟨i, hadv⟩
    · exact Or.inl hle
    · simp [hs] at hadv
  · intro r hr
    rcases hi.held r hr with hd | hf | hm | hp
    · exact Or.inl hd
    · exact Or.inr (Or.inl hf)
    · exact Or.inr (Or.inr (Or.inl (List.mem_append_left _ hm)))
    · rw [hs] at hp
      cases hp
      exact Or.inr (Or.inr (Or.inl (by simp)))
  · refine List.pairwise_append.mpr ⟨hfrozen, List.pairwise_singleton _ _, fun m hm m' hm' x hx y hy => ?_⟩
    cases List.mem_singleton.mp hm'
    rcases List.mem_append.mp hy with hy | hy
    · exact hcross m hm s.memtable (List.mem_singleton.mpr rfl) x hx y hy
    · cases List.mem_singleton.mp hy
      exact hlt m (List.mem_append_left _ hm) x hx
  · intro m hm x hx
    rcases List.mem_append.mp hm with hm | hm
    · exact hi.memtable_le m (List.mem_append_left _ hm) x hx
    · cases List.mem_singleton.mp hm
      rcases List.mem_append.mp hx with hx | hx
      · exact hi.memtable_le s.memtable (by simp) x hx
      · cases List.mem_singleton.mp hx
        exact hle

theorem Inv.ownerStep {ok : Bool} (hok : s.SyncSafe (.owner ok))
    (h : s.ownerStep ok = some s') : s'.Inv := by
  cases hs : s.owner with
  | idle => simp [CommitServer.ownerStep, hs] at h
  | syncing pc next => exact hi.ownerSync hs hok h
  | opening append =>
    simp only [CommitServer.ownerStep, hs] at h
    split at h
    next =>
      cases Option.some.inj h
      exact hi.openSegment hs
    next =>
      cases Option.some.inj h
      exact hi.setOwner hs .idle (by simp [OwnerPc.pending]) (by simp) (by simp [OwnerPc.pending])
        (by simp [OwnerPc.reserved]) trivial
  | appending seq inline =>
    simp only [CommitServer.ownerStep, hs] at h
    split at h
    next =>
      cases Option.some.inj h
      exact hi.append hs
    next =>
      cases Option.some.inj h
      exact hi.setOwner hs .idle (by simp [OwnerPc.pending]) (by simp) (by simp [OwnerPc.pending])
        (by simp [OwnerPc.reserved]) trivial
  | advancing seq inline =>
    simp only [CommitServer.ownerStep, hs] at h
    cases Option.some.inj h
    exact hi.advance hs
  | inserting seq =>
    simp only [CommitServer.ownerStep, hs] at h
    cases Option.some.inj h
    exact hi.insert hs

theorem Inv.start {seq : Nat} (hseq : s.nextSeq ≤ seq) {pc : OwnerPc}
    (hpend : pc.pending = none) (hres : ∀ n, pc.reserved = some n → n = s.nextSeq ∧ n < seq)
    (ho : s.OwnerSound pc) (h : CommitServer.start { s with nextSeq := seq } pc = some s') :
    s'.Inv := by
  simp only [CommitServer.start] at h
  obtain ⟨hidle, ⟨⟩⟩ := Option.ite_none_right_eq_some.mp h
  have hidle : s.owner = .idle := hidle
  refine ⟨hi.watermark, hi.synced_le, hi.coordinator_le, hi.buffered_lt.trans_le hseq,
    fun r hr => (hi.record_lt r hr).trans_le hseq, ?_, hi.sealed, ?_, hi.order, hi.memtable_le,
    by simp [hpend], ?_, ?_, hi.coordinator⟩
  · intro r hr
    rcases hi.buffered r hr with hle | ⟨i, hadv⟩
    · exact Or.inl hle
    · simp [hidle] at hadv
  · intro r hr
    rcases hi.held r hr with hd | hf | hm | hp
    · exact Or.inl hd
    · exact Or.inr (Or.inl hf)
    · exact Or.inr (Or.inr (Or.inl hm))
    · simp [hidle, OwnerPc.pending] at hp
  · intro n hn
    obtain ⟨rfl, hlt⟩ := hres n hn
    exact ⟨hi.buffered_lt, hlt, hi.record_lt⟩
  · cases pc <;> exact ho

theorem Inv.freeze (hidle : s.owner = .idle) :
    Inv { s with memtable := [], frozen := s.frozen ++ [s.memtable] } := by
  refine ⟨hi.watermark, hi.synced_le, hi.coordinator_le, hi.buffered_lt, hi.record_lt, hi.buffered,
    hi.sealed, ?_, ?_, ?_, by simp [hidle, OwnerPc.pending], hi.reserved_gt, ?_, hi.coordinator⟩
  · intro r hr
    rcases hi.held r hr with hd | hf | hm | hp
    · exact Or.inl hd
    · exact Or.inr (Or.inl (by simp [List.flatten_append, hf]))
    · exact Or.inr (Or.inl (by simp [List.flatten_append, hm]))
    · exact Or.inr (Or.inr (Or.inr hp))
  · exact List.pairwise_append.mpr ⟨hi.order, List.pairwise_singleton _ _, by simp⟩
  · intro m hm x hx
    rcases List.mem_append.mp hm with hm | hm
    · exact hi.memtable_le m hm x hx
    · cases List.mem_singleton.mp hm
      simp at hx
  · show OwnerSound _ s.owner
    rw [hidle]
    trivial

theorem Inv.durable_of_le_oldest (hidle : s.owner = .idle) {mt : List Nat}
    {rest : List (List Nat)} (hf : s.frozen = mt :: rest) {r : Nat × Nat} (hr : r ∈ s.wal.records)
    (hle : r.1 ≤ mt.foldl max 0) : s.Durable r.1 ∨ r.1 ∈ mt := by
  have horder := hi.order
  rw [hf, List.cons_append, List.pairwise_cons] at horder
  have hlater : ∀ m ∈ rest ++ [s.memtable], r.1 ∈ m → s.Durable r.1 := by
    intro m hm hrm
    rcases foldl_max_mem mt 0 with hz | hmax
    · exact hi.watermark r hr (by omega)
    · have hlt := horder.1 m hm _ hmax _ hrm
      omega
  rcases hi.held r hr with hd | hfr | hm | hp
  · exact Or.inl hd
  · obtain ⟨m, hm, hrm⟩ := List.mem_flatten.mp hfr
    rw [hf] at hm
    rcases List.mem_cons.mp hm with rfl | hm
    · exact Or.inr hrm
    · exact Or.inl (hlater m (List.mem_append_left _ hm) hrm)
  · exact Or.inl (hlater s.memtable (by simp) hm)
  · simp [hidle, OwnerPc.pending] at hp

theorem Inv.publishFlush (h : s.publishFlush = some s') : s'.Inv := by
  simp only [CommitServer.publishFlush] at h
  split at h
  next mt rest hidle hf =>
    cases Option.some.inj h
    have hsub : ∀ m ∈ rest ++ [s.memtable], m ∈ s.frozen ++ [s.memtable] := by
      intro m hm
      rw [hf]
      exact List.mem_cons_of_mem _ hm
    have hbuf : max s.wal.bufferedSeq (mt.foldl max 0) = s.wal.bufferedSeq := by
      refine max_eq_left ?_
      rcases foldl_max_mem mt 0 with hz | hmax
      · omega
      · exact hi.memtable_le mt (by simp [hf]) _ hmax
    have hdur : ∀ r, s.Durable r → r ∈ s.published ++ mt ∨ r ∈ s.wal.fsynced :=
      fun r hd => hd.imp_left (List.mem_append_left _)
    refine ⟨?_, max_le_max hi.synced_le (le_refl _), hi.coordinator_le.trans (le_max_left _ _),
      ?_, hi.record_lt, ?_, fun r hr ha => hdur r.1 (hi.sealed r hr ha), ?_, ?_, ?_, ?_, ?_, ?_, ?_⟩
    · intro r hr hle
      rcases le_max_iff.mp hle with hle | hle
      · exact hdur r.1 (hi.watermark r hr hle)
      · rcases hi.durable_of_le_oldest hidle hf hr hle with hd | hm
        · exact hdur r.1 hd
        · exact Or.inl (List.mem_append_right _ hm)
    · show max s.wal.bufferedSeq (mt.foldl max 0) < s.nextSeq
      rw [hbuf]
      exact hi.buffered_lt
    · intro r hr
      exact (hi.buffered r hr).imp_left fun hle => hle.trans (le_max_left _ _)
    · intro r hr
      rcases hi.held r hr with hd | hfr | hm | hp
      · exact Or.inl (hdur r.1 hd)
      · rw [hf, List.flatten_cons] at hfr
        rcases List.mem_append.mp hfr with hm | hm
        · exact Or.inl (Or.inl (List.mem_append_right _ hm))
        · exact Or.inr (Or.inl hm)
      · exact Or.inr (Or.inr (Or.inl hm))
      · exact Or.inr (Or.inr (Or.inr hp))
    · have horder := hi.order
      rw [hf, List.cons_append, List.pairwise_cons] at horder
      exact horder.2
    · intro m hm x hx
      exact (hi.memtable_le m (hsub m hm) x hx).trans (le_max_left _ _)
    · simp [hidle, OwnerPc.pending]
    · simp [hidle, OwnerPc.reserved]
    · show OwnerSound _ s.owner
      rw [hidle]
      trivial
    · intro pc hpc
      exact (hi.coordinator pc hpc).mono (le_max_left _ _) hdur fun r hr _ => hr
  next => simp at h

theorem Inv.setCoordinator (pc : CoordinatorPc) {synced : Nat} {failed : Bool}
    (hsync : ∀ p, pc = .syncing p → s.SyncSound p) (hle : synced ≤ s.wal.syncedSeq) :
    Inv { s with coordinator := pc, coordinatorSynced := synced, failed := failed } := by
  refine ⟨hi.watermark, hi.synced_le, hle, hi.buffered_lt, hi.record_lt, hi.buffered, hi.sealed,
    hi.held, hi.order, hi.memtable_le, hi.pending_gt, hi.reserved_gt, ?_, hsync⟩
  have ho := hi.owner
  show OwnerSound _ s.owner
  cases hs : s.owner <;> rw [hs] at ho <;> exact ho

theorem Inv.coordinatorStep {ok : Bool} (hok : s.SyncSafe (.coordinator ok))
    (h : s.coordinatorStep ok = some s') : s'.Inv := by
  simp only [CommitServer.coordinatorStep] at h
  split at h
  next hc =>
    split at h
    next =>
      cases Option.some.inj h
      exact hi.setCoordinator .stopped (by simp) hi.coordinator_le
    next =>
      cases Option.some.inj h
      refine hi.setCoordinator (.syncing .start) (fun p hp => ?_) hi.coordinator_le
      cases hp
      trivial
  next pc hc =>
    have hfresh : ok = true → s.Fresh pc :=
      fun h => hok h pc (by simp [CoordinatorPc.sync, hc])
    obtain ⟨hturn, hrun, hret⟩ := syncStep_spec hi (hi.coordinator pc hc) hfresh
    have hi' := hi.turn hturn
    cases hout : (s.wal.syncStep ok pc).2 with
    | running pc' =>
      rw [hout] at h
      cases Option.some.inj h
      refine hi'.setCoordinator (.syncing pc') (fun p hp => ?_) hi'.coordinator_le
      cases hp
      exact (hrun pc' hout).1
    | ok n =>
      rw [hout] at h
      cases Option.some.inj h
      exact hi'.setCoordinator .idle (by simp) (max_le hi'.coordinator_le (hret n hout).1)
    | failed =>
      rw [hout] at h
      cases Option.some.inj h
      exact hi'.setCoordinator .stopped (by simp) hi'.coordinator_le
  next => simp at h

theorem Inv.stop : Inv { s with shutdown := true } := by
  refine ⟨hi.watermark, hi.synced_le, hi.coordinator_le, hi.buffered_lt, hi.record_lt, hi.buffered,
    hi.sealed, hi.held, hi.order, hi.memtable_le, hi.pending_gt, hi.reserved_gt, ?_, hi.coordinator⟩
  have ho := hi.owner
  show OwnerSound _ s.owner
  cases hs : s.owner <;> rw [hs] at ho <;> exact ho

theorem Inv.step {a : CommitAction} (hok : s.SyncSafe a) (h : s.step a = some s') : s'.Inv := by
  cases a with
  | write roll inline =>
    refine hi.start (Nat.le_succ s.nextSeq) ?_ ?_ ?_ h
    · cases roll <;> rfl
    · intro n hn
      cases roll <;> cases hn <;> exact ⟨rfl, Nat.lt_succ_self _⟩
    · cases roll with
      | true => exact ⟨trivial, trivial, by simp⟩
      | false => trivial
  | forceRoll =>
    have ho : s.OwnerSound (.syncing .start (.roll none)) := ⟨trivial, trivial, by simp⟩
    exact hi.start (le_refl s.nextSeq) rfl (by simp [OwnerPc.reserved]) ho h
  | syncWal =>
    have ho : s.OwnerSound (.syncing .start .done) := ⟨trivial, trivial, by simp⟩
    exact hi.start (le_refl s.nextSeq) rfl (by simp [OwnerPc.reserved]) ho h
  | owner ok => exact hi.ownerStep hok h
  | freeze =>
    simp only [CommitServer.step] at h
    obtain ⟨hcond, ⟨⟩⟩ := Option.ite_none_right_eq_some.mp h
    exact hi.freeze hcond.1
  | publishFlush => exact hi.publishFlush h
  | coordinator ok => exact hi.coordinatorStep hok h
  | stop =>
    cases Option.some.inj h
    exact hi.stop

end

end CommitServer

end ZydecoDb
