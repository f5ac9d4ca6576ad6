import ZydecoDb.CompactionScheduler

namespace ZydecoDb

open Lib

namespace CompactionWorker

def job : CompactionWorker → Option Compacting
  | .waiting => none
  | .running c => some c
  | .finished result => result
  | .counted result => result
  | .cleared result => result

def busy : CompactionWorker → Bool
  | .running _ => true
  | .finished _ => true
  | .counted _ => true
  | _ => false

def unsent : CompactionWorker → Nat
  | .counted _ => 1
  | .cleared _ => 1
  | _ => 0

def executed : CompactionWorker → Option Compacting
  | .running _ => none
  | worker => worker.job

end CompactionWorker

namespace ApplyWorker

def applies : ApplyWorker → List CatalogApply
  | .handed apply => [apply]
  | _ => []

def uncounted : ApplyWorker → Nat
  | .waiting => 0
  | _ => 1

end ApplyWorker

namespace CompactionPc

def applies : CompactionPc → List CatalogApply
  | .drainCatalogApply rest => rest
  | .storeNextId rest => rest
  | _ => []

def once : CompactionPc → Option Compacting
  | .compactOnce c => some c
  | _ => none

def item : CompactionPc → Option Compacting
  | .trySubmitBusy item => some item.compacting
  | .trySubmitPending item => some item.compacting
  | _ => none

def storing : CompactionPc → Bool
  | .storeNextId _ => true
  | _ => false

end CompactionPc

def CatalogApply.job : CatalogApply → Option Compacting
  | .flush => none
  | .compaction c => some c

namespace CompactionSystem

variable {s s' : CompactionSystem} {cfg : CompactionConfig}

def executed (s : CompactionSystem) : List Compacting :=
  (s.pc.applies ++ (s.ready ++ (s.applyWorker.applies ++ s.applyQueue))).filterMap CatalogApply.job ++
    s.results.filterMap id

def unpublished (s : CompactionSystem) : List Compacting :=
  s.executed ++ (s.worker.job.toList ++ s.pc.once.toList)

def Seen (s : CompactionSystem) : CompactionPc → Prop
  | .readyCount => s.pendingCount = 0
  | .stagedBusy => s.pendingCount = 0 ∧ s.ready = []
  | .stagedPending => (s.pendingCount = 0 ∧ s.ready = []) ∧ s.workerBusy = false
  | .planCompactionJob => s.pendingCount = 0 ∧ s.ready = []
  | .trySubmitBusy _ => s.pendingCount = 0 ∧ s.ready = []
  | .trySubmitPending _ => (s.pendingCount = 0 ∧ s.ready = []) ∧ s.workerBusy = false
  | _ => True

structure Gates (s : CompactionSystem) : Prop where
  busy : s.workerBusy = s.worker.busy
  results : s.resultsPending = s.results.length + s.worker.unsent
  applies : s.pendingCount = s.applyQueue.length + s.applyWorker.uncounted
  staged : s.staged.isSome = true → s.workerBusy = true ∨ 0 < s.resultsPending
  seen : s.Seen s.pc
  done : ∀ c ∈ s.executed ++ s.worker.executed.toList, c.pending = []

theorem gates_init : Gates init where
  busy := rfl
  results := rfl
  applies := rfl
  staged := by simp [init]
  seen := trivial
  done := by simp [executed, init, CompactionPc.applies, ApplyWorker.applies,
    CompactionWorker.executed, CompactionWorker.job]

theorem whenIdle_cases {next : Option CompactionSystem} (h : s.whenIdle next = some s') :
    s.pc = .idle ∧ next = some s' := by
  unfold whenIdle at h
  split at h
  next hpc => exact ⟨hpc, h⟩
  next => simp at h

theorem Seen.mono {pc : CompactionPc} (h : s.Seen pc)
    (hp : s.pendingCount = 0 → s'.pendingCount = 0)
    (hr : s.pendingCount = 0 → s.ready = [] → s'.ready = [])
    (hb : s.workerBusy = false → s'.workerBusy = false) : s'.Seen pc := by
  cases pc with
  | readyCount => exact hp h
  | stagedBusy => exact ⟨hp h.1, hr h.1 h.2⟩
  | stagedPending => exact ⟨⟨hp h.1.1, hr h.1.1 h.1.2⟩, hb h.2⟩
  | planCompactionJob => exact ⟨hp h.1, hr h.1 h.2⟩
  | trySubmitBusy item => exact ⟨hp h.1, hr h.1 h.2⟩
  | trySubmitPending item => exact ⟨⟨hp h.1.1, hr h.1.1 h.1.2⟩, hb h.2⟩
  | _ => trivial

theorem Gates.queue_empty (hg : Gates s) (h : s.pendingCount = 0) :
    s.applyQueue = [] ∧ s.applyWorker = .waiting := by
  have happ := hg.applies
  rw [h] at happ
  refine ⟨List.length_eq_zero_iff.mp (by omega), ?_⟩
  cases hw : s.applyWorker with
  | waiting => rfl
  | handed apply => simp [hw, ApplyWorker.uncounted] at happ
  | appended => simp [hw, ApplyWorker.uncounted] at happ

theorem Gates.worker_waiting (hg : Gates s) (hb : s.workerBusy = false)
    (hr : s.resultsPending = 0) : s.worker = .waiting ∧ s.results = [] := by
  have hbusy := hg.busy
  have hres := hg.results
  rw [hb] at hbusy
  rw [hr] at hres
  refine ⟨?_, List.length_eq_zero_iff.mp (by omega)⟩
  cases hw : s.worker with
  | waiting => rfl
  | running c => simp [hw, CompactionWorker.busy] at hbusy
  | finished r => simp [hw, CompactionWorker.busy] at hbusy
  | counted r => simp [hw, CompactionWorker.busy] at hbusy
  | cleared r => simp [hw, CompactionWorker.unsent] at hres

theorem Gates.staged_eq_none (hg : Gates s) (hb : s.workerBusy = false) (hr : s.resultsPending = 0) :
    s.staged = none := by
  cases hst : s.staged with
  | none => rfl
  | some item =>
    rcases hg.staged (by rw [hst]; rfl) with h | h
    · rw [hb] at h
      simp at h
    · omega

theorem stageIfBusy_staged (s : CompactionSystem) (item : WorkItem) :
    ∃ staged, s.stageIfBusy item = { s with staged } := by
  unfold stageIfBusy
  split
  · split
    · exact ⟨_, rfl⟩
    · exact ⟨s.staged, rfl⟩
  · exact ⟨_, rfl⟩

theorem Gates.withPc (hg : Gates s) {pc : CompactionPc} (ha : pc.applies = s.pc.applies)
    (hs : s.Seen pc) : Gates { s with pc } where
  busy := hg.busy
  results := hg.results
  applies := hg.applies
  staged := hg.staged
  seen := hs.mono id (fun _ => id) id
  done := by
    have hdone := hg.done
    rw [executed, ← ha] at hdone
    exact hdone

theorem Gates.submitWork (hg : Gates s) (item : WorkItem) (hw : s.worker = .waiting)
    (hpc : s.pc.applies = []) :
    Gates { s.submitWork item with staged := none, pc := .idle } where
  busy := rfl
  results := by
    have hres := hg.results
    rw [hw] at hres
    exact hres
  applies := hg.applies
  staged _ := Or.inl rfl
  seen := trivial
  done := by
    have hdone := hg.done
    simp only [executed, hpc, hw] at hdone
    exact hdone

theorem Gates.publishCatalogApply (hg : Gates s) {apply : CatalogApply} {rest : List CatalogApply}
    (hpc : s.pc.applies = apply :: rest) (h : s.publishCatalogApply rest apply = some s') :
    Gates s' := by
  have hsub : ∀ c ∈ (rest ++ (s.ready ++ (s.applyWorker.applies ++ s.applyQueue))).filterMap
      CatalogApply.job ++ s.results.filterMap id ++ s.worker.executed.toList, c.pending = [] := by
    intro c hc
    refine hg.done c ?_
    rw [executed, hpc]
    exact ((((List.sublist_cons_self apply rest).append (List.Sublist.refl _)).filterMap _).append
      (List.Sublist.refl _)).append (List.Sublist.refl _) |>.subset hc
  cases apply with
  | flush =>
    obtain ⟨engine, -, rfl⟩ := Option.map_eq_some_iff.mp h
    exact ⟨hg.busy, hg.results, hg.applies, hg.staged, trivial, hsub⟩
  | compaction c =>
    cases Option.some.inj h
    exact ⟨hg.busy, hg.results, hg.applies, hg.staged, trivial, hsub⟩

/-- What a step of the owner does: it moves on, with what the gates have shown it; it plans a job,
stages the plan, hands it to the worker; or it publishes. -/
inductive OwnerStep (cfg : CompactionConfig) (nowMs : Nat) (s : CompactionSystem) :
    CompactionSystem → Prop
  | moved (pc : CompactionPc) (seen : s.Seen pc)
      (same : (pc.applies, pc.once, pc.storing) = (s.pc.applies, s.pc.once, s.pc.storing))
      (item : pc.item = none ∨ pc.item = s.pc.item) : OwnerStep cfg nowMs s { s with pc }
  | planned (item : WorkItem) (pc : s.pc = .planCompactionJob) (seen : s.Seen (.trySubmitBusy item))
      (h : s.engine.workItem cfg nowMs = some item) :
      OwnerStep cfg nowMs s { s with pc := .trySubmitBusy item }
  | staged (item : WorkItem) (staged : Option WorkItem) (pc : s.pc = .trySubmitBusy item)
      (busy : s.workerBusy = true) : OwnerStep cfg nowMs s { s with staged, pc := .idle }
  | submitted (item : WorkItem) (pc : s.pc = .trySubmitPending item) (none : s.resultsPending = 0) :
      OwnerStep cfg nowMs s { s.submitWork item with pc := .idle }
  | publish (apply : CatalogApply) (rest : List CatalogApply) {s' : CompactionSystem}
      (pc : s.pc = .drainCatalogApply (apply :: rest))
      (h : s.publishCatalogApply rest apply = some s') : OwnerStep cfg nowMs s s'
  | store (rest : List CatalogApply) (pc : s.pc = .storeNextId rest) :
      OwnerStep cfg nowMs s { s with
        engine := { s.engine with nextSstableId := s.nextSstableId }
        pc := .drainCatalogApply rest }

theorem Gates.ownerStep_cases (hg : Gates s) {nowMs : Nat} (h : s.ownerStep cfg nowMs = some s') :
    OwnerStep cfg nowMs s s' := by
  have hseen := hg.seen
  unfold CompactionSystem.ownerStep at h
  split at h
  next => simp at h
  next hpc =>
    cases Option.some.inj h
    split
    next => exact .moved _ trivial (by rw [hpc]; rfl) (Or.inl rfl)
    next hn => exact .moved _ (Nat.eq_zero_of_not_pos hn) (by rw [hpc]; rfl) (Or.inl rfl)
  next hpc =>
    rw [hpc] at hseen
    cases Option.some.inj h
    split
    next he => exact .moved _ ⟨hseen, List.isEmpty_iff.mp he⟩ (by rw [hpc]; rfl) (Or.inl rfl)
    next => exact .moved _ trivial (by rw [hpc]; rfl) (Or.inl rfl)
  next hpc =>
    rw [hpc] at hseen
    cases Option.some.inj h
    split
    next => exact .moved _ hseen (by rw [hpc]; rfl) (Or.inl rfl)
    next hb => exact .moved _ ⟨hseen, Bool.not_eq_true _ ▸ hb⟩ (by rw [hpc]; rfl) (Or.inl rfl)
  next hpc =>
    rw [hpc] at hseen
    have hplan : OwnerStep cfg nowMs s { s with pc := .planCompactionJob } :=
      .moved _ (show s.Seen .planCompactionJob from hseen.1) (by rw [hpc]; rfl) (Or.inl rfl)
    split at h
    next =>
      cases Option.some.inj h
      exact hplan
    next hr =>
      have hst := hg.staged_eq_none hseen.2 (Nat.eq_zero_of_not_pos hr)
      split at h
      next item hitem => simp [hst] at hitem
      next =>
        cases Option.some.inj h
        exact hplan
  next hpc =>
    rw [hpc] at hseen
    split at h
    next item hitem =>
      cases Option.some.inj h
      exact .planned item hpc hseen hitem
    next =>
      cases Option.some.inj h
      exact .moved _ trivial (by rw [hpc]; rfl) (Or.inl rfl)
  next item hpc =>
    rw [hpc] at hseen
    split at h
    next hb =>
      cases Option.some.inj h
      obtain ⟨staged, he⟩ := stageIfBusy_staged s item
      rw [he]
      exact .staged item staged hpc hb
    next hb =>
      cases Option.some.inj h
      exact .moved _ ⟨hseen, Bool.not_eq_true _ ▸ hb⟩ (by rw [hpc]; rfl) (Or.inr (by rw [hpc]; rfl))
  next item hpc =>
    split at h
    next =>
      cases Option.some.inj h
      exact .moved _ trivial (by rw [hpc]; rfl) (Or.inl rfl)
    next hr =>
      cases Option.some.inj h
      exact .submitted item hpc (Nat.eq_zero_of_not_pos hr)
  next => simp at h
  next hpc =>
    cases Option.some.inj h
    exact .moved _ trivial (by rw [hpc]; rfl) (Or.inl rfl)
  next apply rest hpc => exact .publish apply rest hpc h
  next rest hpc =>
    cases Option.some.inj h
    exact .store rest hpc

theorem Gates.ownerStep (hg : Gates s) {nowMs : Nat} (h : s.ownerStep cfg nowMs = some s') :
    Gates s' := by
  cases hg.ownerStep_cases h with
  | moved pc seen same _ => exact hg.withPc (Prod.mk.inj same).1 seen
  | planned item hpc seen _ => exact hg.withPc (by rw [hpc]; rfl) seen
  | staged item st hpc hb =>
    have hidle : Gates { s with pc := .idle } := hg.withPc (by rw [hpc]; rfl) trivial
    exact ⟨hidle.busy, hidle.results, hidle.applies, fun _ => Or.inl hb, trivial, hidle.done⟩
  | submitted item hpc hr =>
    have hseen := hg.seen
    rw [hpc] at hseen
    have hwork := hg.submitWork item (hg.worker_waiting hseen.2 hr).1 (by rw [hpc]; rfl)
    rw [← hg.staged_eq_none hseen.2 hr] at hwork
    exact hwork
  | publish apply rest hpc h => exact hg.publishCatalogApply (by rw [hpc]; rfl) h
  | store rest hpc =>
    have hdrain : Gates { s with pc := .drainCatalogApply rest } :=
      hg.withPc (by rw [hpc]; rfl) trivial
    exact ⟨hdrain.busy, hdrain.results, hdrain.applies, hdrain.staged, trivial, hdrain.done⟩

@[simp] theorem filterMap_job_compaction (l : List Compacting) :
    (l.map CatalogApply.compaction).filterMap CatalogApply.job = l := by
  rw [List.filterMap_map]
  exact List.filterMap_some

theorem executed_pollResults (s : CompactionSystem) : s.pollResults.executed = s.executed := by
  simp only [executed, pollResults, List.filterMap_append, filterMap_job_compaction,
    List.filterMap_nil, List.append_nil, List.append_assoc]

theorem executed_submitApply (s : CompactionSystem) (apply : CatalogApply) :
    (s.submitApply apply).executed.Perm (apply.job.toList ++ s.executed) := by
  have hjob : [apply].filterMap CatalogApply.job = apply.job.toList := by
    cases apply <;> rfl
  have hcomm : ((s.pc.applies ++ (s.ready ++ (s.applyWorker.applies ++ s.applyQueue))).filterMap
      CatalogApply.job ++ apply.job.toList).Perm (apply.job.toList ++
        (s.pc.applies ++ (s.ready ++ (s.applyWorker.applies ++ s.applyQueue))).filterMap
          CatalogApply.job) := List.perm_append_comm
  have := hcomm.append_right (s.results.filterMap id)
  simpa [executed, submitApply, hjob] using this

theorem executed_applyTake (h : s.applyTake = some s') : s'.executed = s.executed := by
  unfold applyTake at h
  split at h
  next apply rest hw hq =>
    cases Option.some.inj h
    simp [executed, hw, hq, ApplyWorker.applies]
  next => simp at h

theorem executed_applyAppend {ok : Bool} (h : s.applyAppend ok = some s') :
    s'.executed.Sublist s.executed := by
  unfold applyAppend at h
  split at h
  next apply hw =>
    cases Option.some.inj h
    cases ok with
    | true => simp [executed, hw, ApplyWorker.applies]
    | false =>
      have hsub : (s.ready ++ ([] ++ s.applyQueue)).Sublist (s.ready ++ ([apply] ++ s.applyQueue)) :=
        (List.Sublist.refl _).append ((List.nil_sublist _).append (List.Sublist.refl _))
      simp only [executed, hw]
      exact ((((List.Sublist.refl _).append hsub).filterMap _).append (List.Sublist.refl _))
  next => simp at h

theorem executed_workerReport (h : s.workerReport = some s') :
    s'.executed ++ s'.worker.job.toList = s.executed ++ s.worker.job.toList := by
  unfold workerReport at h
  split at h
  next result hw =>
    cases Option.some.inj h
    simp [executed, hw, CompactionWorker.job]
  next result hw =>
    cases Option.some.inj h
    simp [executed, hw, CompactionWorker.job]
  next result hw =>
    cases Option.some.inj h
    cases result <;> simp [executed, hw, CompactionWorker.job]
  next => simp at h

section

variable (hg : Gates s)
include hg

theorem Gates.pollResults (hpc : s.pc = .idle) : Gates s.pollResults where
  busy := hg.busy
  results := by
    have hres := hg.results
    simp only [CompactionSystem.pollResults, List.length_nil]
    omega
  applies := by
    have happ := hg.applies
    simp only [CompactionSystem.pollResults, List.length_append, List.length_map]
    omega
  staged h := by
    simp only [CompactionSystem.pollResults] at h ⊢
    cases hr : s.results with
    | nil =>
      rw [hr] at h
      exact hg.staged h
    | cons r rest => simp [hr] at h
  seen := by
    rw [show s.pollResults.pc = .idle from hpc]
    trivial
  done := by
    rw [executed_pollResults]
    exact hg.done

theorem Gates.workerReport (h : s.workerReport = some s') : Gates s' := by
  have hexe := executed_workerReport h
  have hdone := hg.done
  have hres := hg.results
  unfold CompactionSystem.workerReport at h
  split at h
  next result hw =>
    have hb := hg.busy
    rw [hw] at hres hb hdone
    cases Option.some.inj h
    refine ⟨hb, ?_, hg.applies, fun _ => Or.inr (Nat.succ_pos _), ?_, ?_⟩
    · simp only [CompactionWorker.unsent] at hres ⊢
      omega
    · exact hg.seen.mono id (fun _ => id) id
    · exact hdone
  next result hw =>
    rw [hw] at hres hdone
    cases Option.some.inj h
    refine ⟨rfl, hres, hg.applies, fun _ => Or.inr ?_, ?_, hdone⟩
    · show 0 < s.resultsPending
      simp only [CompactionWorker.unsent] at hres
      omega
    · exact hg.seen.mono id (fun _ => id) fun _ => rfl
  next result hw =>
    have hb := hg.busy
    rw [hw] at hres hb hdone
    cases Option.some.inj h
    refine ⟨hb, ?_, hg.applies, hg.staged, hg.seen.mono id (fun _ => id) id, ?_⟩
    · simp only [CompactionWorker.unsent, List.length_append, List.length_singleton] at hres ⊢
      omega
    · intro c hc
      refine hdone c ?_
      rw [hw] at hexe
      exact hexe ▸ hc
  next => simp at h

theorem Gates.workerEnd {ok : Bool} (h : s.workerEnd ok = some s') : Gates s' := by
  have hb := hg.busy
  have hres := hg.results
  have hdone := hg.done
  unfold CompactionSystem.workerEnd at h
  split at h
  next c hw =>
    rw [hw] at hb hres hdone
    split at h
    next =>
      cases Option.some.inj h
      exact ⟨hb, hres, hg.applies, hg.staged, hg.seen.mono id (fun _ => id) id, hdone⟩
    next =>
      obtain ⟨he, ⟨⟩⟩ := Option.ite_none_right_eq_some.mp h
      refine ⟨hb, hres, hg.applies, hg.staged, hg.seen.mono id (fun _ => id) id, fun c' hc => ?_⟩
      rcases List.mem_append.mp hc with hc | hc
      · exact hdone c' (List.mem_append_left _ hc)
      · cases Option.mem_toList.mp hc
        exact List.isEmpty_iff.mp he
  next => simp at h

theorem Gates.applyTake (h : s.applyTake = some s') : Gates s' := by
  have hexe := executed_applyTake h
  have happ := hg.applies
  unfold CompactionSystem.applyTake at h
  split at h
  next apply rest hw hq =>
    rw [hw, hq] at happ
    cases Option.some.inj h
    refine ⟨hg.busy, hg.results, ?_, hg.staged, hg.seen.mono id (fun _ => id) id, ?_⟩
    · simp only [ApplyWorker.uncounted, List.length_cons] at happ ⊢
      omega
    · rw [hexe]
      exact hg.done
  next => simp at h

theorem Gates.applyAppend {ok : Bool} (h : s.applyAppend ok = some s') : Gates s' := by
  have hexe := executed_applyAppend h
  have happ := hg.applies
  unfold CompactionSystem.applyAppend at h
  split at h
  next apply hw =>
    rw [hw] at happ
    cases Option.some.inj h
    refine ⟨hg.busy, hg.results, happ, hg.staged, hg.seen.mono id (fun h0 => ?_) id, fun c hc => ?_⟩
    · simp only [ApplyWorker.uncounted] at happ
      omega
    · exact hg.done c ((hexe.append (List.Sublist.refl _)).subset hc)
  next => simp at h

theorem Gates.applyCount (h : s.applyCount = some s') : Gates s' := by
  have happ := hg.applies
  have hdone := hg.done
  unfold CompactionSystem.applyCount at h
  split at h
  next hw =>
    rw [hw] at happ
    rw [executed, hw] at hdone
    cases Option.some.inj h
    refine ⟨hg.busy, hg.results, ?_, hg.staged, hg.seen.mono ?_ (fun _ => id) id, hdone⟩
    · simp only [ApplyWorker.uncounted] at happ ⊢
      omega
    · intro h0
      simp only
      omega
  next => simp at h

theorem Gates.submitApply {apply : CatalogApply} (hpc : s.pc = .idle)
    (hd : ∀ c ∈ apply.job, c.pending = []) : Gates (s.submitApply apply) where
  busy := hg.busy
  results := hg.results
  applies := by
    have happ := hg.applies
    simp only [CompactionSystem.submitApply, List.length_append, List.length_singleton]
    omega
  staged := hg.staged
  seen := by
    rw [show (s.submitApply apply).pc = .idle from hpc]
    trivial
  done c hc := by
    rcases List.mem_append.mp hc with hc | hc
    · rcases List.mem_append.mp ((executed_submitApply s apply).mem_iff.mp hc) with hc | hc
      · exact hd c (Option.mem_toList.mp hc)
      · exact hg.done c (List.mem_append_left _ hc)
    · exact hg.done c (List.mem_append_right _ hc)

theorem Gates.compactOnceEnd {ok : Bool} (h : s.compactOnceEnd ok = some s') : Gates s' := by
  unfold CompactionSystem.compactOnceEnd at h
  split at h
  next c hpc =>
    have hidle : Gates { s with pc := .idle } := hg.withPc (by rw [hpc]; rfl) trivial
    split at h
    next =>
      cases Option.some.inj h
      exact hidle
    next =>
      obtain ⟨he, ⟨⟩⟩ := Option.ite_none_right_eq_some.mp h
      exact hidle.submitApply rfl fun c' hc => by
        cases Option.mem_some_iff.mp hc
        exact List.isEmpty_iff.mp he
  next => simp at h

theorem Gates.withEngine (engine : EngineState) : Gates { s with engine } :=
  ⟨hg.busy, hg.results, hg.applies, hg.staged, hg.seen.mono id (fun _ => id) id, hg.done⟩

theorem Gates.engineStep {action : EngineAction}
    (h : s.engineStep cfg action = some s') : Gates s' := by
  obtain ⟨engine, -, rfl⟩ := Option.map_eq_some_iff.mp h
  exact hg.withEngine engine

theorem Gates.compactOnce (hpc : s.pc = .idle) (nowMs : Nat) : Gates (s.compactOnce cfg nowMs) := by
  unfold CompactionSystem.compactOnce
  split
  next => exact hg
  next =>
    split
    next => exact hg.withPc (by rw [hpc]; rfl) trivial
    next => exact hg

theorem gates_step {action : SchedulerAction} (h : s.step cfg action = some s') : Gates s' := by
  cases action with
  | engine action =>
    simp only [step] at h
    split at h
    next => exact hg.engineStep h
    next =>
      split at h
      next => simp at h
      next => exact hg.engineStep (whenIdle_cases h).2
  | pollFlush ok =>
    obtain ⟨hpc, h⟩ := whenIdle_cases h
    simp only [pollFlush] at h
    obtain ⟨-, h⟩ := Option.ite_none_left_eq_some.mp h
    split at h
    next =>
      cases Option.some.inj h
      have hsub : Gates (s.submitApply .flush) := hg.submitApply hpc (by simp [CatalogApply.job])
      exact ⟨hsub.busy, hsub.results, hsub.applies, hsub.staged,
        hsub.seen.mono id (fun _ => id) id, hsub.done⟩
    next =>
      cases Option.some.inj h
      exact hg.withEngine _
  | pollResults =>
    obtain ⟨hpc, h⟩ := whenIdle_cases h
    cases Option.some.inj h
    exact hg.pollResults hpc
  | drainCatalogApply =>
    obtain ⟨hpc, h⟩ := whenIdle_cases h
    cases Option.some.inj h
    have hdone := hg.done
    rw [executed, hpc] at hdone
    exact ⟨hg.busy, hg.results, hg.applies, hg.staged, trivial, hdone⟩
  | maybeSubmitCompaction =>
    obtain ⟨hpc, h⟩ := whenIdle_cases h
    cases Option.some.inj h
    split
    next => exact hg.withPc (by rw [hpc]) trivial
    next => exact hg.withPc (by rw [hpc]; rfl) trivial
  | compactOnce nowMs =>
    obtain ⟨hpc, h⟩ := whenIdle_cases h
    cases Option.some.inj h
    exact hg.compactOnce hpc nowMs
  | owner nowMs => exact hg.ownerStep h
  | compactOnceWrite bloom =>
    simp only [step, compactOnceWrite] at h
    split at h
    next c hpc =>
      obtain ⟨p, -, rfl⟩ := Option.map_eq_some_iff.mp h
      exact (hg.withEngine p.1).withPc (by rw [hpc]; rfl) trivial
    next => simp at h
  | compactOnceEnd ok => exact hg.compactOnceEnd h
  | workerWrite bloom =>
    simp only [step, workerWrite] at h
    split at h
    next c hw =>
      obtain ⟨p, -, rfl⟩ := Option.map_eq_some_iff.mp h
      have hb := hg.busy
      have hres := hg.results
      have hdone := hg.done
      rw [hw] at hb hres hdone
      exact ⟨hb, hres, hg.applies, hg.staged, hg.seen.mono id (fun _ => id) id, hdone⟩
    next => simp at h
  | workerEnd ok => exact hg.workerEnd h
  | workerReport => exact hg.workerReport h
  | applyTake => exact hg.applyTake h
  | applyAppend ok => exact hg.applyAppend h
  | applyCount => exact hg.applyCount h

end

end CompactionSystem

end ZydecoDb
