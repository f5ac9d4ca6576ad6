import ZydecoDb.FlushedJobs
import ZydecoDb.PointLookup
import ZydecoDb.VersionStore

namespace ZydecoDb

open Lib

namespace EngineState

variable {st : EngineState} {clock : Nat} {accepted : List WalEntry}

theorem Backed.accepted_of_view (h : st.Backed clock accepted) {v : Version}
    (hv : v ∈ st.view.versions) : v ∈ acceptedVersions accepted := by
  rcases mem_view_versions.mp hv with hm | ht
  · exact ((h.mems v).mp hm).1
  · exact (mem_flushedVersions.mp (h.answers.subset v (mem_tableVersions.mpr ht))).1

/-- From the clock of its jobs on, what the engine holds of a key reads as all that was accepted. -/
theorem Backed.outcome_eq (h : st.Backed clock accepted) {t : Nat} (ht : clock ≤ t) (k : Bytes) :
    outcome (newest st.view.versions k) t = outcome (newest (acceptedVersions accepted) k) t := by
  cases hn : newest (acceptedVersions accepted) k with
  | none =>
    have hnone : newest st.view.versions k = none :=
      newest_eq_none.mpr fun v hv => newest_eq_none.mp hn v (h.accepted_of_view hv)
    rw [hnone]
  | some v =>
    obtain ⟨hv, hk, hmax⟩ := (newest_eq_some h.coherent).mp hn
    have hheld : v ∈ st.view.versions → newest st.view.versions k = some v := fun hm =>
      (newest_eq_some (h.coherent.sublist fun _ hw => h.accepted_of_view hw)).mpr
        ⟨hm, hk, fun w hw => hmax w (h.accepted_of_view hw)⟩
    by_cases hseq : v.seq ≤ sstableMaxSeq st.sstables
    · have hflushed : newest (flushedVersions accepted st.sstables) k = some v :=
        (newest_eq_some (h.coherent.sublist fun _ hw => (mem_flushedVersions.mp hw).1)).mpr
          ⟨mem_flushedVersions.mpr ⟨hv, hseq⟩, hk, fun w hw => hmax w (mem_flushedVersions.mp hw).1⟩
      rcases h.answers.top k v hflushed with htop | ⟨hdead, hall⟩
      · rw [hheld (mem_view_versions.mpr (Or.inr (mem_tableVersions.mp (topVersion_mem htop).1)))]
      · -- the newest version is dead, and so is what the tables have kept of the key
        have hnone : outcome (some v) t = none := outcome_eq_none.mpr fun w hw => by
          cases Option.mem_some_iff.mp hw
          exact Entry.isLive_antitone ht hdead
        rw [hnone]
        refine outcome_eq_none.mpr fun w hw => Entry.isLive_antitone ht ?_
        obtain ⟨hwm, hwk⟩ := newest_mem (Option.mem_def.mp hw)
        rcases mem_view_versions.mp hwm with hm | hm
        · obtain ⟨hwa, hlt⟩ := (h.mems w).mp hm
          have hle := hmax w hwa hwk
          omega
        · exact hall w (mem_tableVersions.mpr hm) hwk
    · rw [hheld (mem_view_versions.mpr (Or.inl ((h.mems v).mpr ⟨hv, by omega⟩)))]

/-- What keeps the reads right while the engine works on its tables at a clock: an output is the
newest table of its keys, a job keeps what is read, and none is planned at a later clock. -/
def Maintains (cfg : CompactionConfig) (now : Nat) (st : EngineState) (a : EngineAction) : Prop :=
  a.walEntry st.nextSeq = none ∧ st.OutputNewest a ∧ st.JobKeeps cfg a ∧ clockAfter now a = now

instance decidableMaintains (cfg : CompactionConfig) (now : Nat) (st : EngineState)
    (a : EngineAction) : Decidable (st.Maintains cfg now a) :=
  inferInstanceAs (Decidable (_ ∧ _))

variable {cfg : CompactionConfig} {now : Nat}

theorem maintains_framed : (jobs cfg).Framed (Maintains cfg now) :=
  jobs_framed fun _ _ _ hj hm =>
    ⟨hm.1, outputNewest_of_not_onJob hj, jobKeeps_of_not_onJob hj, hm.2.2.2⟩

end EngineState

open EngineState

/-- The engine, with the jobs it has finished and not published, has kept all accepted writes: its
reads from now on are those of the whole history. -/
structure Serves (cfg : CompactionConfig) (q : Queued EngineState Compacting) (now : Nat)
    (accepted : List WalEntry) : Prop where
  oneJob : (jobs cfg).OneJob q
  backed : ∃ clock ≤ now, ((jobs cfg).current q).Backed clock accepted

namespace Serves

variable {cfg : CompactionConfig} {q q' : Queued EngineState Compacting} {now : Nat}
  {accepted : List WalEntry}

theorem init : Serves cfg ⟨.init, []⟩ 0 [] := ⟨Or.inl rfl, 0, le_rfl, backed_init⟩

theorem later (h : Serves cfg q now accepted) {later : Nat} (hle : now ≤ later) :
    Serves cfg q later accepted := by
  obtain ⟨clock, hclock, hb⟩ := h.backed
  exact ⟨h.oneJob, clock, hclock.trans hle, hb⟩

theorem nextSeq_current : ((jobs cfg).current q).nextSeq = q.state.nextSeq := by
  unfold JobSystem.current
  split <;> rfl

section

variable (h : Serves cfg q now accepted)
include h

theorem maintain {a : QueuedAction EngineAction}
    (hc : (jobs cfg).OneAtATime (Maintains cfg now) q a)
    (hs : (jobs cfg).queuedStep q a = some q') : Serves cfg q' now accepted := by
  obtain ⟨hone, hb⟩ := maintains_framed.step
    (P := fun st => ∃ clock ≤ now, st.Backed clock accepted) (fun st a st' hp hm hs => by
      obtain ⟨clock, hle, hb⟩ := hp
      obtain ⟨hw, hn, hk, hclock⟩ := hm
      refine ⟨clockAfter clock a, ?_, backed_step hb hw hn hk hs⟩
      cases a <;> simp only [clockAfter, max_eq_left_iff, max_le_iff] at hclock ⊢
      case submitCompaction nowMs => exact ⟨hle, hclock⟩
      all_goals exact hle) h.oneJob h.backed hc hs
  exact ⟨hone, hb⟩

/-- A write that the engine takes is served from then on. -/
theorem write {a : EngineAction} {e : WalEntry}
    (he : a.walEntry q.state.nextSeq = some e) (hs : (jobs cfg).queuedStep q (.base a) = some q') :
    Serves cfg q' now (accepted ++ [e]) ∧ q'.state.nextSeq = q.state.nextSeq + 1 := by
  obtain ⟨clock, hle, hb⟩ := h.backed
  have hnext : ((jobs cfg).current q).nextSeq = q.state.nextSeq := nextSeq_current
  obtain ⟨st, waiting⟩ := q
  simp only [JobSystem.queuedStep, jobs, List.all_eq_true, implies_true, if_true] at hs
  obtain ⟨st', hst, rfl⟩ := Option.map_eq_some_iff.mp hs
  refine ⟨?_, by rw [(commit_cases (step_write_cases he hst).2).2]⟩
  rcases h.oneJob with rfl | ⟨c, rfl, hd, hn⟩
  · exact ⟨Or.inl rfl, clock, hle, hb.write (hnext ▸ he) hst⟩
  · have ha : a.submits = false := by
      cases a <;> simp [EngineAction.walEntry, EngineAction.submits] at he ⊢
    obtain ⟨hnone, ⟨rfl, -⟩ | ⟨-, hjob⟩⟩ := step_besideJob c hn ha hst
    · simp [EngineAction.walEntry] at he
    · exact ⟨Or.inr ⟨c, rfl, hd, hnone⟩, clock, hle, hb.write (hnext ▸ he) hjob⟩

theorem skipSeq (hlt : q.state.nextSeq < u64Max) :
    Serves cfg { q with state := { q.state with nextSeq := q.state.nextSeq + 1 } } now accepted := by
  obtain ⟨clock, hle, hb⟩ := h.backed
  have hb' := hb.skipSeq (nextSeq_current ▸ hlt)
  obtain ⟨st, waiting⟩ := q
  cases waiting with
  | nil => exact ⟨h.oneJob, clock, hle, hb'⟩
  | cons c waiting => exact ⟨h.oneJob, clock, hle, hb'⟩

theorem ordered : q.state.view.Ordered := by
  obtain ⟨clock, -, hb⟩ := h.backed
  have hv := view_ordered hb.inv hb.idsByAge
  rwa [view_current] at hv

theorem seq_lt : ∀ v ∈ acceptedVersions accepted, v.seq < q.state.nextSeq := by
  obtain ⟨clock, -, hb⟩ := h.backed
  exact nextSeq_current ▸ hb.seq_lt

theorem nextSeq_le : q.state.nextSeq ≤ u64Max := by
  obtain ⟨clock, -, hb⟩ := h.backed
  exact nextSeq_current ▸ hb.inv.next_le

end

variable {s t : Nat}

theorem getWithSeq_eq (h : Serves cfg q now accepted) (ht : now ≤ t) (hs : q.state.nextSeq - 1 ≤ s)
    (k : Bytes) :
    q.state.view.getWithSeq k s t = outcome (newest (acceptedVersions accepted) k) t := by
  obtain ⟨clock, hle, hb⟩ := h.backed
  have hout := hb.outcome_eq (hle.trans ht) k
  have hsub : ∀ v ∈ q.state.view.versions, v.seq ≤ s := by
    intro v hv
    have hlt := h.seq_lt v (hb.accepted_of_view (by rwa [view_current]))
    omega
  have hnewest : newestAt q.state.view.versions k s = newest q.state.view.versions k :=
    newestAt_eq_newest hsub
  rw [view_current] at hout
  rw [ReadView.getWithSeq, ReadView.firstVisible_eq_newestAt h.ordered, hnewest, hout]

theorem scan_eq (h : Serves cfg q now accepted) (ht : now ≤ t) (hs : q.state.nextSeq - 1 ≤ s)
    {lo hi : Bytes} (hrange : ReadView.ScanRange lo hi) :
    q.state.view.scan s lo hi t =
      some (SnapshotHandle.scan ⟨acceptedVersions accepted, s⟩ lo hi t) := by
  have hof : SnapshotHandle.Of ⟨q.state.view.versions, s⟩ q.state.view := ⟨h.ordered, fun _ => Iff.rfl⟩
  rw [hof.scan_eq hrange]
  refine congrArg some (SnapshotHandle.scan_congr fun k => ?_)
  have hnewest : newestAt (acceptedVersions accepted) k s = newest (acceptedVersions accepted) k :=
    newestAt_eq_newest fun v hv => by
      have hlt := h.seq_lt v hv
      omega
  rw [SnapshotHandle.get, ← hof.getWithSeq_eq, h.getWithSeq_eq ht hs, SnapshotHandle.get,
    SnapshotHandle.getWithSeq, hnewest]

end Serves

end ZydecoDb
