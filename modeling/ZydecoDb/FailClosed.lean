import ZydecoDb.Watermark

namespace ZydecoDb

open Lib

namespace CommitServer

variable {s s' : CommitServer}

def FsyncFails (s : CommitServer) : CommitAction → Prop
  | .owner ok => ok = false ∧ ∃ target covers next, s.owner = .syncing (.fsyncing target covers) next
  | .coordinator ok => ok = false ∧ ∃ target covers, s.coordinator = .syncing (.fsyncing target covers)
  | _ => False

def InlineReturns (s : CommitServer) (seq : Nat) : CommitAction → Prop
  | .owner ok => ∃ pc n, s.owner = .syncing pc (.insert seq) ∧ (s.wal.syncStep ok pc).2 = .ok n
  | _ => False

/-- Only the coordinator's fsync fails, and once it has, nothing else raises the watermark: no sync
under the engine lock gets past its fsync, and no flush is published. -/
def FailsClosed (s : CommitServer) : CommitAction → Prop
  | .owner ok =>
    match s.owner with
    | .syncing (.fsyncing _ _) _ => ok = true
    | .syncing (.fsynced target) _ => s.failed = true → target ≤ s.durableSeq
    | _ => True
  | .publishFlush => s.failed = true → ∀ mt ∈ s.frozen.head?, mt.foldl max 0 ≤ s.durableSeq
  | _ => True

instance decidableFailsClosed (s : CommitServer) (a : CommitAction) : Decidable (s.FailsClosed a) := by
  unfold FailsClosed
  split
  · split <;> infer_instance
  · infer_instance
  · infer_instance

theorem FailsClosed.fsync {ok : Bool} (h : s.FailsClosed (.owner ok)) {target : Nat}
    {covers : List Nat} {next : AfterSync} (hs : s.owner = .syncing (.fsyncing target covers) next) :
    ok = true := by
  simpa only [FailsClosed, hs] using h

theorem FailsClosed.finish {ok : Bool} (h : s.FailsClosed (.owner ok)) (hf : s.failed = true)
    {target : Nat} {next : AfterSync} (hs : s.owner = .syncing (.fsynced target) next) :
    target ≤ s.durableSeq := by
  simp only [FailsClosed, hs] at h
  exact h hf

theorem syncStep_synced_eq {w : WalSync} {ok : Bool} {pc : SyncPc}
    (h : ∀ target, pc ≠ .fsynced target) : (w.syncStep ok pc).1.syncedSeq = w.syncedSeq := by
  cases pc with
  | start | behind target | opened target segment => rfl
  | loaded target =>
    simp only [WalSync.syncStep]
    split <;> rfl
  | fsyncing target covers =>
    simp only [WalSync.syncStep]
    split <;> rfl
  | fsynced target => exact absurd rfl (h target)

structure Poisoned (seq : Nat) (s : CommitServer) : Prop where
  failed : s.failed = true
  stopped : s.coordinator = .stopped
  durable : s.durableSeq = seq

theorem Poisoned.ownerStep {seq : Nat} (hp : s.Poisoned seq) {ok : Bool}
    (hok : s.FailsClosed (.owner ok)) (h : s.ownerStep ok = some s') : s'.Poisoned seq := by
  have hsync : ∀ pc next, s.owner = .syncing pc next →
      max s.coordinatorSynced (s.wal.syncStep ok pc).1.syncedSeq = seq := by
    intro pc next hs
    rw [← hp.durable, durableSeq]
    by_cases hf : ∃ target, pc = .fsynced target
    · obtain ⟨target, rfl⟩ := hf
      have hle := hok.finish hp.failed hs
      simp only [durableSeq] at hle
      show max s.coordinatorSynced (max s.wal.syncedSeq target) = _
      omega
    · rw [syncStep_synced_eq fun target ht => hf ⟨target, ht⟩]
  simp only [CommitServer.ownerStep] at h
  split at h
  next => simp at h
  next pc next hs =>
    split at h <;> cases Option.some.inj h <;> exact ⟨hp.failed, hp.stopped, hsync pc next hs⟩
  next => split at h <;> cases Option.some.inj h <;> exact ⟨hp.failed, hp.stopped, hp.durable⟩
  next => split at h <;> cases Option.some.inj h <;> exact ⟨hp.failed, hp.stopped, hp.durable⟩
  next => cases Option.some.inj h; exact ⟨hp.failed, hp.stopped, hp.durable⟩
  next => cases Option.some.inj h; exact ⟨hp.failed, hp.stopped, hp.durable⟩

/-- Once failed, the server stays failed and the watermark stands. -/
theorem Poisoned.step {seq : Nat} (hp : s.Poisoned seq) {a : CommitAction} (hok : s.FailsClosed a)
    (h : s.step a = some s') : s'.Poisoned seq := by
  cases a with
  | write roll inline | forceRoll | syncWal =>
    simp only [CommitServer.step, CommitServer.start] at h
    obtain ⟨-, ⟨⟩⟩ := Option.ite_none_right_eq_some.mp h
    exact ⟨hp.failed, hp.stopped, hp.durable⟩
  | owner ok => exact hp.ownerStep hok h
  | freeze =>
    simp only [CommitServer.step] at h
    obtain ⟨-, ⟨⟩⟩ := Option.ite_none_right_eq_some.mp h
    exact ⟨hp.failed, hp.stopped, hp.durable⟩
  | publishFlush =>
    simp only [CommitServer.step, CommitServer.publishFlush] at h
    split at h
    next mt rest hidle hf =>
      cases Option.some.inj h
      have hle := hok hp.failed mt (by simp [hf])
      refine ⟨hp.failed, hp.stopped, ?_⟩
      rw [← hp.durable]
      simp only [durableSeq, WalSync.setWatermarks] at hle ⊢
      omega
    next => simp at h
  | coordinator ok => simp [CommitServer.step, CommitServer.coordinatorStep, hp.stopped] at h
  | stop => cases Option.some.inj h; exact ⟨hp.failed, hp.stopped, hp.durable⟩

theorem poisoned_of_fsyncFails {a : CommitAction} (hok : s.FailsClosed a) (hf : s.FsyncFails a)
    (h : s.step a = some s') : s'.Poisoned s.durableSeq := by
  cases a with
  | owner ok =>
    obtain ⟨rfl, target, covers, next, hs⟩ := hf
    exact absurd (hok.fsync hs) (by simp)
  | coordinator ok =>
    obtain ⟨rfl, target, covers, hs⟩ := hf
    simp only [CommitServer.step, CommitServer.coordinatorStep, hs, WalSync.syncStep] at h
    cases Option.some.inj h
    exact ⟨rfl, rfl, rfl⟩
  | write roll inline | forceRoll | syncWal | freeze | publishFlush | stop => exact hf.elim

/-- A sync under the engine lock is for all that is buffered, its own write included. -/
def OwnerFull (s : CommitServer) : Prop :=
  ∀ pc next, s.owner = .syncing pc next →
    pc.Full s.wal.bufferedSeq ∧ ∀ seq, next = .insert seq → seq ≤ s.wal.bufferedSeq

theorem syncStep_full (w : WalSync) (ok : Bool) (pc : SyncPc) :
    (w.syncStep ok pc).1.bufferedSeq = w.bufferedSeq ∧
      ∀ pc', (w.syncStep ok pc).2 = .running pc' → pc.Full w.bufferedSeq →
        pc'.Full w.bufferedSeq := by
  cases pc with
  | start => exact ⟨rfl, fun pc' h _ => by cases h; rfl⟩
  | behind target | opened target segment => exact ⟨rfl, fun pc' h hf => by cases h; exact hf⟩
  | loaded target =>
    simp only [WalSync.syncStep]
    split
    next => exact ⟨rfl, fun pc' h => by simp at h⟩
    next => exact ⟨rfl, fun pc' h hf => by cases h; exact hf⟩
  | fsyncing target covers =>
    simp only [WalSync.syncStep]
    split
    next => exact ⟨rfl, fun pc' h hf => by cases h; exact hf⟩
    next => exact ⟨rfl, fun pc' h => by simp at h⟩
  | fsynced target => exact ⟨rfl, fun pc' h => by simp [WalSync.syncStep] at h⟩

theorem OwnerFull.ownerStep (hi : s.OwnerFull) {ok : Bool} (h : s.ownerStep ok = some s') :
    s'.OwnerFull := by
  cases hs : s.owner with
  | idle => simp [CommitServer.ownerStep, hs] at h
  | syncing pc next =>
    obtain ⟨hbuf, hfull⟩ := syncStep_full s.wal ok pc
    obtain ⟨hpc, hins⟩ := hi pc next hs
    simp only [CommitServer.ownerStep, hs] at h
    split at h
    next pc' hout =>
      cases Option.some.inj h
      intro p n hp
      cases hp
      simp only [hbuf]
      exact ⟨hfull pc' hout hpc, hins⟩
    next =>
      cases Option.some.inj h
      intro p n hp
      cases next <;> cases hp
    next =>
      cases Option.some.inj h
      intro p n hp
      cases hp
  | opening append =>
    simp only [CommitServer.ownerStep, hs] at h
    split at h <;> cases Option.some.inj h <;> intro p n hp
    · rcases append with - | ⟨seq, inline⟩ <;> cases hp
    · cases hp
  | appending seq inline =>
    simp only [CommitServer.ownerStep, hs] at h
    split at h <;> cases Option.some.inj h <;> intro p n hp <;> cases hp
  | advancing seq inline =>
    simp only [CommitServer.ownerStep, hs] at h
    cases Option.some.inj h
    intro p n hp
    cases inline with
    | false => cases hp
    | true =>
      cases hp
      exact ⟨trivial, fun m hm => by cases hm; exact le_max_right _ _⟩
  | inserting seq =>
    simp only [CommitServer.ownerStep, hs] at h
    cases Option.some.inj h
    intro p n hp
    cases hp

theorem OwnerFull.step (hi : s.OwnerFull) {a : CommitAction} (h : s.step a = some s') :
    s'.OwnerFull := by
  cases a with
  | write roll inline =>
    simp only [CommitServer.step, CommitServer.start] at h
    obtain ⟨-, ⟨⟩⟩ := Option.ite_none_right_eq_some.mp h
    intro p n hp
    cases roll <;> cases hp
    exact ⟨trivial, by simp⟩
  | forceRoll | syncWal =>
    simp only [CommitServer.step, CommitServer.start] at h
    obtain ⟨-, ⟨⟩⟩ := Option.ite_none_right_eq_some.mp h
    intro p n hp
    cases hp
    exact ⟨trivial, by simp⟩
  | owner ok => exact hi.ownerStep h
  | freeze =>
    simp only [CommitServer.step] at h
    obtain ⟨-, ⟨⟩⟩ := Option.ite_none_right_eq_some.mp h
    exact hi
  | publishFlush =>
    simp only [CommitServer.step, CommitServer.publishFlush] at h
    split at h
    next hidle _ =>
      cases Option.some.inj h
      intro p n hp
      rw [show s.owner = .idle from hidle] at hp
      cases hp
    next => simp at h
  | coordinator ok =>
    simp only [CommitServer.step, CommitServer.coordinatorStep] at h
    split at h
    next => split at h <;> cases Option.some.inj h <;> exact hi
    next pc hc =>
      have hbuf := (syncStep_full s.wal ok pc).1
      have hkeep : ∀ p n, s.owner = .syncing p n → p.Full (s.wal.syncStep ok pc).1.bufferedSeq ∧
          ∀ seq, n = .insert seq → seq ≤ (s.wal.syncStep ok pc).1.bufferedSeq := by
        rw [hbuf]
        exact hi
      split at h <;> cases Option.some.inj h <;> exact hkeep
    next => simp at h
  | stop => cases Option.some.inj h; exact hi

theorem OwnerFull.inlineReturns (hi : s.OwnerFull) {seq : Nat} {a : CommitAction}
    (h : s.InlineReturns seq a) : seq ≤ s.wal.syncedSeq ∨
      ∃ target next, s.owner = .syncing (.fsynced target) next ∧ seq ≤ target := by
  cases a with
  | owner ok =>
    obtain ⟨pc, n, hs, hout⟩ := h
    obtain ⟨hfull, hins⟩ := hi _ _ hs
    have hle := hins seq rfl
    cases pc with
    | start | behind target | opened target segment => simp [WalSync.syncStep] at hout
    | loaded target =>
      simp only [WalSync.syncStep] at hout
      split at hout
      next hsynced =>
        rw [show target = s.wal.bufferedSeq from hfull] at hsynced
        exact Or.inl (hle.trans hsynced)
      next => simp at hout
    | fsyncing target covers =>
      simp only [WalSync.syncStep] at hout
      split at hout <;> simp at hout
    | fsynced target =>
      rw [← show target = s.wal.bufferedSeq from hfull] at hle
      exact Or.inr ⟨target, _, hs, hle⟩
  | write roll inline | forceRoll | syncWal | freeze | publishFlush | coordinator ok | stop =>
    exact h.elim

/-- After an fsync error, a write that was not durable when it was returned is never acknowledged, in
any run in which only the coordinator's fsync fails and the engine raises no watermark after it. -/
theorem fail_closed {pre post : List CommitAction} {a : CommitAction} {s₀ s : CommitServer}
    (hok : MeetsAlong step FailsClosed init (pre ++ a :: post))
    (hs₀ : runFrom step init pre = some s₀) (hfail : s₀.FsyncFails a)
    (hs : runFrom step s₀ (a :: post) = some s) {seq : Nat} (hseq : s₀.durableSeq < seq) :
    s.awaitDurable seq ≠ some (.ok ()) ∧ ∀ b, s.FailsClosed b → ¬ s.InlineReturns seq b := by
  obtain ⟨-, hrest⟩ := meetsAlong_append hok hs₀
  have hi : s.OwnerFull := runFrom_invariant (P := OwnerFull) (fun s a s' hi _ h => hi.step h)
    (fun pc next hp => by cases hp) (meetsAlong_true init (pre ++ a :: post))
    (runFrom_append.mpr ⟨s₀, hs₀, hs⟩)
  obtain ⟨s₁, hs₁, hs⟩ := runFrom_cons.mp hs
  obtain ⟨ha, hpost⟩ := hrest
  rw [hs₁] at hpost
  have hp : s.Poisoned s₀.durableSeq :=
    runFrom_invariant (fun s a s' hp hok h => Poisoned.step hp hok h)
      (poisoned_of_fsyncFails ha hfail hs₁) hpost hs
  have hsynced : s.wal.syncedSeq ≤ s.durableSeq := le_max_right _ _
  have hdur := hp.durable
  refine ⟨fun h => ?_, fun b hb hret => ?_⟩
  · have hle := awaitDurable_ok.mp h
    omega
  · rcases hi.inlineReturns hret with hle | ⟨target, next, hs, hle⟩
    · omega
    · cases b with
      | owner ok =>
        have htarget := hb.finish hp.failed hs
        omega
      | write roll inline | forceRoll | syncWal | freeze | publishFlush | coordinator ok | stop =>
        exact hret.elim

def bufferedWrite : List CommitAction := [.write false false, .owner true, .owner true, .owner true]

def coordinatorFsync : List CommitAction :=
  [.coordinator true, .coordinator true, .coordinator true, .coordinator true, .coordinator true]

def rollUpToFsync : List CommitAction :=
  [.forceRoll, .owner true, .owner true, .owner true, .owner true]

/-- The coordinator's fsync fails with one write buffered; a second write comes, and a forced roll gets
as far as its fsync. The first write's waiter has its error. -/
theorem fail_closed_after_coordinator_error :
    ∃ s₀ s, runFrom step init (bufferedWrite ++ coordinatorFsync) = some s₀ ∧
      runFrom step s₀ (.coordinator false :: (bufferedWrite ++ rollUpToFsync)) = some s ∧
      s.awaitDurable 1 = some (.error .io) ∧ s.awaitDurable 1 ≠ some (.ok ()) := by
  have hok : MeetsAlong step FailsClosed init ((bufferedWrite ++ coordinatorFsync) ++
      .coordinator false :: (bufferedWrite ++ rollUpToFsync)) := by decide
  exact ⟨_, _, rfl, rfl, rfl, (fail_closed hok rfl ⟨rfl, _, _, rfl⟩ rfl (by decide)).1⟩

/-- A forced roll's fsync fails with one write buffered, and the coordinator's next fsync succeeds: the
write is acknowledged. -/
theorem acknowledged_after_failed_roll :
    ∃ s₀ s, runFrom step init (bufferedWrite ++ rollUpToFsync) = some s₀ ∧
      s₀.durableSeq = 0 ∧ s₀.wal.bufferedSeq = 1 ∧ s₀.FsyncFails (.owner false) ∧
      runFrom step s₀ (.owner false :: (coordinatorFsync ++ [.coordinator true, .coordinator true])) =
        some s ∧
      s.awaitDurable 1 = some (.ok ()) :=
  ⟨_, _, rfl, rfl, rfl, ⟨rfl, _, _, _, rfl⟩, rfl, rfl⟩

end CommitServer

end ZydecoDb
