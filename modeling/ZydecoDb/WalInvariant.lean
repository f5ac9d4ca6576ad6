import ZydecoDb.WalSync

namespace ZydecoDb

open Lib

namespace CommitServer

def Durable (s : CommitServer) (r : Nat) : Prop := r ∈ s.published ∨ r ∈ s.wal.fsynced

instance decidableDurable (s : CommitServer) (r : Nat) : Decidable (s.Durable r) :=
  inferInstanceAs (Decidable (_ ∨ _))

def WatermarkSound (s : CommitServer) : Prop :=
  ∀ r ∈ s.wal.records, r.1 ≤ s.wal.syncedSeq → s.Durable r.1

/-- What a sync has secured so far: its target is buffered, and every record up to the target is
durable already or will be by the fsync it is about to make. -/
def SyncSound (s : CommitServer) : SyncPc → Prop
  | .start => True
  | .loaded target | .behind target => target ≤ s.wal.bufferedSeq
  | .opened target segment => target ≤ s.wal.bufferedSeq ∧
    ∀ r ∈ s.wal.records, r.1 ≤ target → s.Durable r.1 ∨ r.2 = segment
  | .fsyncing target covers => target ≤ s.wal.bufferedSeq ∧
    ∀ r ∈ s.wal.records, r.1 ≤ target → s.Durable r.1 ∨ r.1 ∈ covers
  | .fsynced target => target ≤ s.wal.bufferedSeq ∧
    ∀ r ∈ s.wal.records, r.1 ≤ target → s.Durable r.1

end CommitServer

def SyncPc.Full (buffered : Nat) : SyncPc → Prop
  | .start => True
  | .loaded target | .behind target | .opened target _ | .fsyncing target _ | .fsynced target =>
    target = buffered

def OwnerPc.pending : OwnerPc → Option Nat
  | .advancing seq _ | .inserting seq | .syncing _ (.insert seq) => some seq
  | _ => none

def OwnerPc.reserved : OwnerPc → Option Nat
  | .appending seq _ | .opening (some (seq, _)) | .syncing _ (.roll (some (seq, _))) => some seq
  | _ => none

namespace CommitServer

variable {s s' : CommitServer}

/-- The lock holder's place: a sync is sound and covers all that is buffered, a segment is opened only
when every record is durable, and a write goes to the memtable once it is buffered. -/
def OwnerSound (s : CommitServer) : OwnerPc → Prop
  | .syncing pc next => s.SyncSound pc ∧ pc.Full s.wal.bufferedSeq ∧
    ∀ seq, next = .insert seq → seq ≤ s.wal.bufferedSeq
  | .opening _ => ∀ r ∈ s.wal.records, s.Durable r.1
  | .inserting seq => seq ≤ s.wal.bufferedSeq
  | _ => True

structure Inv (s : CommitServer) : Prop where
  watermark : s.WatermarkSound
  synced_le : s.wal.syncedSeq ≤ s.wal.bufferedSeq
  coordinator_le : s.coordinatorSynced ≤ s.wal.syncedSeq
  buffered_lt : s.wal.bufferedSeq < s.nextSeq
  record_lt : ∀ r ∈ s.wal.records, r.1 < s.nextSeq
  buffered : ∀ r ∈ s.wal.records, r.1 ≤ s.wal.bufferedSeq ∨ ∃ i, s.owner = .advancing r.1 i
  sealed : ∀ r ∈ s.wal.records, r.2 ≠ s.wal.active → s.Durable r.1
  held : ∀ r ∈ s.wal.records, s.Durable r.1 ∨ r.1 ∈ s.frozen.flatten ∨ r.1 ∈ s.memtable ∨
    s.owner.pending = some r.1
  order : (s.frozen ++ [s.memtable]).Pairwise fun a b => ∀ x ∈ a, ∀ y ∈ b, x < y
  memtable_le : ∀ m ∈ s.frozen ++ [s.memtable], ∀ x ∈ m, x ≤ s.wal.bufferedSeq
  pending_gt : ∀ n, s.owner.pending = some n → n < s.nextSeq ∧
    ∀ m ∈ s.frozen ++ [s.memtable], ∀ x ∈ m, x < n
  reserved_gt : ∀ n, s.owner.reserved = some n → s.wal.bufferedSeq < n ∧ n < s.nextSeq ∧
    ∀ r ∈ s.wal.records, r.1 < n
  owner : s.OwnerSound s.owner
  coordinator : ∀ pc, s.coordinator = .syncing pc → s.SyncSound pc

theorem SyncSound.mono {pc : SyncPc} (h : s.SyncSound pc)
    (hb : s.wal.bufferedSeq ≤ s'.wal.bufferedSeq) (hd : ∀ r, s.Durable r → s'.Durable r)
    (hr : ∀ r ∈ s'.wal.records, r.1 ≤ s.wal.bufferedSeq → r ∈ s.wal.records) :
    s'.SyncSound pc := by
  cases pc with
  | start => trivial
  | loaded target => exact le_trans h hb
  | behind target => exact le_trans h hb
  | opened target segment =>
    refine ⟨h.1.trans hb, fun r hm hle => ?_⟩
    exact (h.2 r (hr r hm (hle.trans h.1)) hle).imp_left (hd r.1)
  | fsyncing target covers =>
    refine ⟨h.1.trans hb, fun r hm hle => ?_⟩
    exact (h.2 r (hr r hm (hle.trans h.1)) hle).imp_left (hd r.1)
  | fsynced target =>
    refine ⟨h.1.trans hb, fun r hm hle => ?_⟩
    exact hd r.1 (h.2 r (hr r hm (hle.trans h.1)) hle)

/-- What a turn of a sync may change of the WAL: more records are fsynced, and the watermark rises
no further than what is durable. -/
structure SyncTurn (s : CommitServer) (w : WalSync) : Prop where
  records : w.records = s.wal.records
  active : w.active = s.wal.active
  buffered : w.bufferedSeq = s.wal.bufferedSeq
  synced_ge : s.wal.syncedSeq ≤ w.syncedSeq
  synced_le : w.syncedSeq ≤ s.wal.bufferedSeq
  fsynced : ∀ r ∈ s.wal.fsynced, r ∈ w.fsynced
  watermark : ∀ r ∈ s.wal.records, r.1 ≤ w.syncedSeq → r.1 ∈ s.published ∨ r.1 ∈ w.fsynced

theorem SyncTurn.refl (hi : s.Inv) : SyncTurn s s.wal :=
  ⟨rfl, rfl, rfl, le_refl _, hi.synced_le, fun _ hr => hr, hi.watermark⟩

theorem SyncTurn.durable {w : WalSync} (h : SyncTurn s w) {r : Nat} (hd : s.Durable r) :
    Durable { s with wal := w } r := hd.imp_right (h.fsynced r)

theorem SyncTurn.syncSound {w : WalSync} (h : SyncTurn s w) {pc : SyncPc} (hp : s.SyncSound pc) :
    SyncSound { s with wal := w } pc := by
  refine hp.mono (le_of_eq h.buffered.symm) (fun r hd => h.durable hd) fun r hr _ => ?_
  rw [← h.records]
  exact hr

/-- What is not durable of the records an fsync is about to cover was not in an fsync that failed. -/
def Fresh (s : CommitServer) : SyncPc → Prop
  | .fsyncing _ covers => ∀ n ∈ covers, n ∈ s.wal.dropped → s.Durable n
  | _ => True

instance decidableFresh (s : CommitServer) : (pc : SyncPc) → Decidable (s.Fresh pc)
  | .fsyncing _ covers => inferInstanceAs (Decidable (∀ n ∈ covers, _ → _))
  | .start | .loaded _ | .behind _ | .opened _ _ | .fsynced _ => isTrue trivial

/-- One step of an fsync moves the watermark over fsynced records only. -/
theorem syncStep_spec (hi : s.Inv) {pc : SyncPc} (hp : s.SyncSound pc) {ok : Bool}
    (hfresh : ok = true → s.Fresh pc) :
    SyncTurn s (s.wal.syncStep ok pc).1 ∧
    (∀ pc', (s.wal.syncStep ok pc).2 = .running pc' →
      SyncSound { s with wal := (s.wal.syncStep ok pc).1 } pc' ∧
      (pc.Full s.wal.bufferedSeq → pc'.Full s.wal.bufferedSeq)) ∧
    (∀ n, (s.wal.syncStep ok pc).2 = .ok n → n ≤ (s.wal.syncStep ok pc).1.syncedSeq ∧
      (pc.Full s.wal.bufferedSeq → s.wal.bufferedSeq ≤ (s.wal.syncStep ok pc).1.syncedSeq)) := by
  have hrefl := SyncTurn.refl hi
  cases pc with
  | start =>
    refine ⟨hrefl, fun pc' h => ?_, fun n h => by simp [WalSync.syncStep] at h⟩
    cases h
    exact ⟨le_refl _, fun _ => rfl⟩
  | loaded target =>
    simp only [WalSync.syncStep]
    split
    next hle =>
      refine ⟨hrefl, fun pc' h => by simp at h, fun n h => ?_⟩
      cases h
      exact ⟨le_refl _, fun hf => (show target = s.wal.bufferedSeq from hf) ▸ hle⟩
    next =>
      refine ⟨hrefl, fun pc' h => ?_, fun n h => by simp at h⟩
      cases h
      exact ⟨hp, fun hf => hf⟩
  | behind target =>
    refine ⟨hrefl, fun pc' h => ?_, fun n h => by simp [WalSync.syncStep] at h⟩
    cases h
    refine ⟨⟨hp, fun r hr _ => ?_⟩, fun hf => hf⟩
    -- what is not in the active segment was synced before the segment was opened
    by_cases ha : r.2 = s.wal.active
    · exact Or.inr ha
    · exact Or.inl (hi.sealed r hr ha)
  | opened target segment =>
    refine ⟨hrefl, fun pc' h => ?_, fun n h => by simp [WalSync.syncStep] at h⟩
    cases h
    refine ⟨⟨hp.1, fun r hr hle => (hp.2 r hr hle).imp_right fun hseg => ?_⟩, fun hf => hf⟩
    exact List.mem_map.mpr ⟨r, List.mem_filter.mpr ⟨hr, by simpa using hseg⟩, rfl⟩
  | fsyncing target covers =>
    simp only [WalSync.syncStep]
    split
    next hok =>
      refine ⟨⟨rfl, rfl, rfl, le_refl _, hi.synced_le, fun r hr => List.mem_append_left _ hr,
        fun r hr hle => (hi.watermark r hr hle).imp_right (List.mem_append_left _)⟩,
        fun pc' h => ?_, fun n h => by simp at h⟩
      cases h
      refine ⟨⟨hp.1, fun r hr hle => ?_⟩, fun hf => hf⟩
      rcases hp.2 r hr hle with hd | hc
      · exact hd.imp_right (List.mem_append_left _)
      · by_cases hdrop : r.1 ∈ s.wal.dropped
        · exact (hfresh hok r.1 hc hdrop).imp_right (List.mem_append_left _)
        · exact Or.inr (List.mem_append_right _ (List.mem_filter.mpr ⟨hc, by simpa using hdrop⟩))
    next =>
      exact ⟨⟨rfl, rfl, rfl, le_refl _, hi.synced_le, fun _ hr => hr, hi.watermark⟩,
        fun pc' h => by simp at h, fun n h => by simp at h⟩
  | fsynced target =>
    refine ⟨⟨rfl, rfl, rfl, le_max_left _ _, max_le hi.synced_le hp.1, fun r hr => hr,
      fun r hr hle => ?_⟩, fun pc' h => by simp [WalSync.syncStep] at h, fun n h => ?_⟩
    · rcases le_max_iff.mp hle with hle | hle
      · exact hi.watermark r hr hle
      · exact hp.2 r hr hle
    · cases h
      refine ⟨le_max_right _ _, fun hf => ?_⟩
      rw [← show target = s.wal.bufferedSeq from hf]
      exact le_max_right _ _

theorem OwnerSound.turn {w : WalSync} (h : SyncTurn s w) {pc : OwnerPc} (ho : s.OwnerSound pc) :
    OwnerSound { s with wal := w } pc := by
  cases pc with
  | syncing pc next =>
    refine ⟨h.syncSound ho.1, ?_, ?_⟩
    · rw [show ({ s with wal := w } : CommitServer).wal.bufferedSeq = s.wal.bufferedSeq from h.buffered]
      exact ho.2.1
    · rw [show ({ s with wal := w } : CommitServer).wal.bufferedSeq = s.wal.bufferedSeq from h.buffered]
      exact ho.2.2
  | opening append =>
    intro r hr
    exact h.durable (ho r (h.records ▸ hr))
  | inserting seq =>
    show seq ≤ w.bufferedSeq
    rw [h.buffered]
    exact ho
  | idle | appending seq inline | advancing seq inline => trivial

theorem Inv.turn (hi : s.Inv) {w : WalSync} (h : SyncTurn s w) : Inv { s with wal := w } := by
  have hr : ({ s with wal := w } : CommitServer).wal.records = s.wal.records := h.records
  have hb : ({ s with wal := w } : CommitServer).wal.bufferedSeq = s.wal.bufferedSeq := h.buffered
  refine ⟨?_, hb ▸ h.synced_le, hi.coordinator_le.trans h.synced_ge, hb ▸ hi.buffered_lt,
    hr ▸ hi.record_lt, ?_, ?_, ?_, hi.order, hb ▸ hi.memtable_le, hi.pending_gt, ?_,
    hi.owner.turn h, fun pc hpc => h.syncSound (hi.coordinator pc hpc)⟩
  · intro r hm hle
    exact h.watermark r (hr ▸ hm) hle
  · rw [hr, hb]
    exact hi.buffered
  · intro r hm ha
    rw [hr] at hm
    refine h.durable (hi.sealed r hm fun he => ha ?_)
    rw [he]
    exact h.active.symm
  · intro r hm
    rw [hr] at hm
    exact (hi.held r hm).imp_left h.durable
  · rw [hr, hb]
    exact hi.reserved_gt

theorem Inv.setOwner (hi : s.Inv) {old : OwnerPc} (hold : s.owner = old) (pc : OwnerPc)
    (hkeep : ∀ r ∈ s.wal.records, old.pending = some r.1 → s.Durable r.1 ∨ pc.pending = some r.1)
    (hadv : ∀ n i, old ≠ .advancing n i) (hpend : ∀ n, pc.pending = some n → old.pending = some n)
    (hres : ∀ n, pc.reserved = some n → old.reserved = some n) (ho : s.OwnerSound pc) :
    Inv { s with owner := pc } := by
  subst hold
  refine ⟨hi.watermark, hi.synced_le, hi.coordinator_le, hi.buffered_lt, hi.record_lt, ?_, hi.sealed,
    ?_, hi.order, hi.memtable_le, fun n hn => hi.pending_gt n (hpend n hn),
    fun n hn => hi.reserved_gt n (hres n hn), ?_, hi.coordinator⟩
  · intro r hr
    rcases hi.buffered r hr with hle | ⟨i, hadv'⟩
    · exact Or.inl hle
    · exact absurd hadv' (hadv r.1 i)
  · intro r hr
    rcases hi.held r hr with hd | hf | hm | hp
    · exact Or.inl hd
    · exact Or.inr (Or.inl hf)
    · exact Or.inr (Or.inr (Or.inl hm))
    · exact (hkeep r hr hp).imp_right fun h => Or.inr (Or.inr h)
  · cases pc <;> exact ho

end CommitServer

end ZydecoDb
