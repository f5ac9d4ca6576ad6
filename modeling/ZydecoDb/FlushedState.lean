import ZydecoDb.CatalogAnswers
import ZydecoDb.Db

namespace ZydecoDb

open Lib

def acceptedVersions (accepted : List WalEntry) : List Version :=
  accepted.flatMap WalEntry.intoMemtablePairs

def flushedVersions (accepted : List WalEntry) (tables : List LoadedSstable) : List Version :=
  (acceptedVersions accepted).filter fun v => v.seq ≤ sstableMaxSeq tables

theorem mem_flushedVersions {accepted : List WalEntry} {tables : List LoadedSstable} {v : Version} :
    v ∈ flushedVersions accepted tables ↔
      v ∈ acceptedVersions accepted ∧ v.seq ≤ sstableMaxSeq tables := by
  simp [flushedVersions]

theorem acceptedVersions_append (l m : List WalEntry) :
    acceptedVersions (l ++ m) = acceptedVersions l ++ acceptedVersions m := List.flatMap_append

def EngineAction.ops : EngineAction → List BatchOp
  | .put key value expiresAt => [.put key value expiresAt]
  | .del key => [.del key]
  | .writeBatch ops sysPuts => ops ++ sysPuts.map fun p => .put p.1 p.2 0
  | _ => []

theorem opToMemtablePair_walOp (seq : Nat) (op : BatchOp) :
    opToMemtablePair seq op.walOp = op.version seq := by
  cases op <;> rfl

theorem EngineAction.walEntry_pairs {a : EngineAction} {seq : Nat} {e : WalEntry}
    (h : a.walEntry seq = some e) : e.intoMemtablePairs = a.ops.map (BatchOp.version seq) := by
  cases a <;> simp only [walEntry, reduceCtorEq, Option.some.injEq] at h
  all_goals subst h
  case put key value expiresAt => rfl
  case del key => rfl
  case writeBatch ops sysPuts =>
    have hsys : (sysPuts.map fun p => (⟨walPut, 0, p.1, p.2⟩ : WalOp)) =
        (sysPuts.map fun p => BatchOp.put p.1 p.2 0).map BatchOp.walOp := by
      rw [List.map_map]
      rfl
    rw [hsys, ← List.map_append, EngineAction.ops]
    simp only [WalEntry.intoMemtablePairs, List.map_map]
    exact List.map_congr_left fun op _ => opToMemtablePair_walOp seq op

theorem EngineAction.walEntry_seq {a : EngineAction} {seq : Nat} {e : WalEntry}
    (h : a.walEntry seq = some e) : e.seq = seq := by
  cases a <;> simp only [walEntry, reduceCtorEq, Option.some.injEq] at h
  all_goals subst h; rfl

theorem EngineState.step_write_cases {cfg : CompactionConfig} {st st' : EngineState}
    {a : EngineAction} {seq : Nat} {e : WalEntry} (he : a.walEntry seq = some e)
    (h : st.step cfg a = some st') : ValidOps a.ops ∧ st.commit a.ops = some st' := by
  cases a <;> simp only [EngineAction.walEntry, reduceCtorEq] at he
  case put key value expiresAt => exact put_cases h
  case del key => exact del_cases h
  case writeBatch ops sysPuts => exact writeBatch_cases h

theorem coherent_snoc {vs : List Version} {seq : Nat} {ops : List BatchOp} (h : Coherent vs)
    (hlt : ∀ v ∈ vs, v.seq < seq) (ho : ValidOps ops) :
    Coherent (vs ++ ops.map (BatchOp.version seq)) := by
  intro v hv w hw hk hs
  rcases List.mem_append.mp hv with hv | hv
  · rcases List.mem_append.mp hw with hw | hw
    · exact h v hv w hw hk hs
    · obtain ⟨op, -, rfl⟩ := List.mem_map.mp hw
      have hlt := hlt v hv
      rw [BatchOp.version_seq] at hs
      omega
  · obtain ⟨op, hop, rfl⟩ := List.mem_map.mp hv
    rcases List.mem_append.mp hw with hw | hw
    · have hlt := hlt w hw
      rw [BatchOp.version_seq] at hs
      omega
    · obtain ⟨op', hop', rfl⟩ := List.mem_map.mp hw
      rw [BatchOp.version_userKey, BatchOp.version_userKey] at hk
      rw [List.inj_on_of_nodup_map ho.nodup hop hop' hk]

def leftVersions (live : List LoadedSstable) (c : Compacting) : List Version :=
  tableVersions (outsideOf live (c.inputMetas.map SstableMeta.id)) ++
    (c.written.map (fun t => t.reader.entries) ++ c.pending).flatten

/-- The job in flight has merged the inputs it names, keeps the newest versions, and writes them
under ascending ids above those of its inputs. -/
structure JobSafe (clock : Nat) (live : List LoadedSstable) (c : Compacting) : Prop where
  metas : c.inputMetas =
    (inputsOf live (c.inputMetas.map SstableMeta.id)).map LoadedSstable.metadata
  runs : ∃ p n, c.written.map (fun t => t.reader.entries) ++ c.pending = compactionRuns p n
    ((inputsOf live (c.inputMetas.map SstableMeta.id)).map fun t => t.reader.entries)
  above : ∀ o ∈ c.written, ∀ t ∈ inputsOf live (c.inputMetas.map SstableMeta.id),
    t.metadata.id < o.metadata.id
  sorted : c.written.Pairwise fun a b => a.metadata.id < b.metadata.id
  keepsNewest : KeepsNewest clock live (leftVersions live c)
  keepsMaxSeq : KeepsMaxSeq live (leftVersions live c)

theorem JobSafe.mono {clock clock' : Nat} {live : List LoadedSstable} {c : Compacting}
    (h : JobSafe clock live c) (hle : clock ≤ clock') : JobSafe clock' live c where
  metas := h.metas
  runs := h.runs
  above := h.above
  sorted := h.sorted
  keepsNewest v hv hn := (h.keepsNewest v hv hn).imp_right fun hd w hw hk =>
    Entry.isLive_antitone hle (hd w hw hk)
  keepsMaxSeq := h.keepsMaxSeq

namespace EngineState

/-- The engine's tables answer for the accepted writes up to their largest sequence number, and its
memtables hold the others. -/
structure Backed (st : EngineState) (clock : Nat) (accepted : List WalEntry) : Prop where
  inv : st.Inv
  idsByAge : st.IdsByAge
  coherent : Coherent (acceptedVersions accepted)
  next_pos : 0 < st.nextSeq
  seq_lt : ∀ v ∈ acceptedVersions accepted, v.seq < st.nextSeq
  mems : ∀ v, (∃ m ∈ st.memEntries, v ∈ m) ↔
    v ∈ acceptedVersions accepted ∧ sstableMaxSeq st.sstables < v.seq
  answers : Answers clock st.sstables (flushedVersions accepted st.sstables)
  job : ∀ c ∈ st.compacting, JobSafe clock st.sstables c

variable {st st' : EngineState} {cfg : CompactionConfig} {clock : Nat} {accepted : List WalEntry}

theorem backed_init : EngineState.init.Backed 0 [] where
  inv := inv_init
  idsByAge := idsByAge_init
  coherent := by simp [acceptedVersions, Lib.Coherent]
  next_pos := Nat.one_pos
  seq_lt := by simp [acceptedVersions]
  mems := by simp [memEntries, init, Memtable.empty, acceptedVersions]
  answers := ⟨by simp [init, tableVersions], by simp [flushedVersions, acceptedVersions, newest,
    Lib.newest]⟩
  job := by simp [init]

theorem Backed.frame (h : st.Backed clock accepted) (hi : st'.Inv) (hids : st'.IdsByAge)
    (hs : st'.sstables = st.sstables) (hc : st'.compacting = st.compacting)
    (hm : ∀ v, (∃ m ∈ st'.memEntries, v ∈ m) ↔ ∃ m ∈ st.memEntries, v ∈ m)
    (hn : st.nextSeq ≤ st'.nextSeq) : st'.Backed clock accepted where
  inv := hi
  idsByAge := hids
  coherent := h.coherent
  next_pos := h.next_pos.trans_le hn
  seq_lt v hv := (h.seq_lt v hv).trans_le hn
  mems v := by rw [hm, hs, h.mems]
  answers := by rw [hs]; exact h.answers
  job c hcc := by rw [hs]; exact h.job c (hc ▸ hcc)

theorem Inv.skipSeq (hi : st.Inv) (hlt : st.nextSeq < u64Max) :
    EngineState.Inv { st with nextSeq := st.nextSeq + 1 } :=
  ⟨fun v hv => Nat.lt_succ_of_lt (hi.seq_lt v hv), hlt, hi.key_ne, hi.coherent, hi.mems,
    hi.mems_newer, hi.imm_ne, hi.tables, hi.ids, hi.ids_nodup, hi.ids_lt, hi.flushed, hi.compacting⟩

section

variable (h : st.Backed clock accepted)
include h

theorem Backed.skipSeq (hlt : st.nextSeq < u64Max) :
    Backed { st with nextSeq := st.nextSeq + 1 } clock accepted :=
  h.frame (h.inv.skipSeq hlt) (idsByAge_of_tables_eq h.idsByAge rfl rfl rfl) rfl rfl
    (fun _ => Iff.rfl) (Nat.le_succ _)

theorem Backed.catalog : Catalog st.sstables :=
  ⟨h.inv.ids, h.inv.tables⟩

theorem Backed.maxSeq_lt : sstableMaxSeq st.sstables < st.nextSeq := by
  have hpos := h.next_pos
  have hle : sstableMaxSeq st.sstables ≤ st.nextSeq - 1 := by
    refine sstableMaxSeq_le h.inv.tables fun v hv => ?_
    have hlt := h.inv.seq_lt v (mem_view_versions.mpr (Or.inr (mem_tableVersions.mp hv)))
    omega
  omega

theorem Backed.commit {ops : List BatchOp} (ho : ValidOps ops)
    (hc : st.commit ops = some st') {e : WalEntry}
    (he : e.intoMemtablePairs = ops.map (BatchOp.version st.nextSeq)) :
    st'.Backed clock (accepted ++ [e]) := by
  have hi' := h.inv.commit ho hc
  have hact := fun v => h.inv.mem_commit_active ho (v := v)
  obtain ⟨ht1, ht2, ht3⟩ := commit_tables hc
  have hids : st'.IdsByAge := idsByAge_of_tables_eq h.idsByAge ht1 ht2 ht3
  obtain ⟨-, rfl⟩ := commit_cases hc
  have hvers : acceptedVersions (accepted ++ [e]) =
      acceptedVersions accepted ++ ops.map (BatchOp.version st.nextSeq) := by
    rw [acceptedVersions_append, ← he]
    simp [acceptedVersions]
  have hseq : ∀ v ∈ ops.map (BatchOp.version st.nextSeq), v.seq = st.nextSeq := by
    intro v hv
    obtain ⟨op, -, rfl⟩ := List.mem_map.mp hv
    exact BatchOp.version_seq _ _
  have hmax := h.maxSeq_lt
  refine ⟨hi', hids, hvers ▸ coherent_snoc h.coherent h.seq_lt ho, Nat.succ_pos _, fun v hv => ?_, fun v => ?_, ?_,
    h.job⟩
  · rw [hvers] at hv
    rcases List.mem_append.mp hv with hv | hv
    · exact Nat.lt_succ_of_lt (h.seq_lt v hv)
    · rw [hseq v hv]
      exact Nat.lt_succ_self _
  · have hold := h.mems v
    rw [hvers, List.mem_append, or_and_right, ← hold]
    simp only [memEntries, List.mem_cons, exists_eq_or_imp, hact, List.mem_map]
    constructor
    · rintro ((hv | ⟨op, hop, rfl⟩) | hv)
      · exact Or.inl (Or.inl hv)
      · exact Or.inr ⟨⟨op, hop, rfl⟩, by rw [BatchOp.version_seq]; exact hmax⟩
      · exact Or.inl (Or.inr hv)
    · rintro ((hv | hv) | ⟨⟨op, hop, rfl⟩, -⟩)
      · exact Or.inl (Or.inl hv)
      · exact Or.inr hv
      · exact Or.inl (Or.inr ⟨op, hop, rfl⟩)
  · have hsame : flushedVersions (accepted ++ [e]) st.sstables =
        flushedVersions accepted st.sstables := by
      rw [flushedVersions, hvers, List.filter_append, ← flushedVersions]
      rw [List.filter_eq_nil_iff.mpr, List.append_nil]
      intro v hv
      have hs := hseq v hv
      simp only [decide_eq_true_eq]
      omega
    show Answers clock st.sstables _
    rw [hsame]
    exact h.answers

theorem Backed.write {a : EngineAction} {e : WalEntry}
    (he : a.walEntry st.nextSeq = some e) (hs : st.step cfg a = some st') :
    st'.Backed clock (accepted ++ [e]) := by
  obtain ⟨ho, hc⟩ := step_write_cases he hs
  exact h.commit ho hc (a.walEntry_pairs he)

theorem Backed.freeze (hf : st.freeze = some st') : st'.Backed clock accepted := by
  have hi' := h.inv.freeze hf
  obtain ⟨-, rfl⟩ := freeze_cases hf
  refine h.frame hi' (idsByAge_of_tables_eq h.idsByAge rfl rfl rfl) rfl rfl (fun v => ?_) (le_refl _)
  simp [memEntries, Memtable.empty]

end

end EngineState

end ZydecoDb
