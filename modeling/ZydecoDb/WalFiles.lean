import ZydecoDb.Db

namespace ZydecoDb

open Lib

/-- The files of the WAL hold what they say: ids ascend, sealed files are whole and durable, the
active one may end in a part of a record. -/
structure Wal.Sound (crc : Bytes → UInt32) (wal : Wal) : Prop where
  ids : wal.files.Pairwise fun f g => f.id < g.id
  fits : ∀ f ∈ wal.files, ∀ e ∈ f.logged, e.Fits
  whole : ∀ f ∈ wal.sealedFiles, ∃ s, f.bytes = segmentHeader s ++ (walCodec crc).encodeAll f.logged
  durable : ∀ f ∈ wal.sealedFiles, f.bytes.length ≤ f.synced
  active : ∃ s tail, wal.active.bytes =
    segmentHeader s ++ ((walCodec crc).encodeAll wal.active.logged ++ tail) ∧
      (walCodec crc).Torn tail

def Wal.Keeps (crc : Bytes → UInt32) (wal : Wal) (e : WalEntry) : Prop :=
  (∃ f ∈ wal.sealedFiles, e ∈ f.logged) ∨ ∃ i ≤ wal.active.logged.length,
    e ∈ wal.active.logged.take i ∧
      segmentHeaderLen + ((walCodec crc).encodeAll (wal.active.logged.take i)).length ≤
        wal.active.synced

theorem segmentHeader_length (s : Nat) : (segmentHeader s).length = segmentHeaderLen := by
  simp [segmentHeader, segmentHeaderLen]

theorem segmentHeader_version (s : Nat) (body : Bytes) :
    (segmentHeader s ++ body).getD 8 0 = walFormatVersion := by
  have hlen : (toBe 8 s).length = 8 := length_toBe 8 s
  rw [segmentHeader, List.append_assoc, List.getD_eq_getElem?_getD,
    List.getElem?_append_right (by omega), hlen]
  rfl

namespace Wal

variable {crc : Bytes → UInt32} {wal : Wal}

theorem mem_files {f : WalFile} : f ∈ wal.files ↔ f ∈ wal.sealedFiles ∨ f = wal.active := by
  simp [files]

theorem Sound.active_fits (h : wal.Sound crc) : ∀ e ∈ wal.active.logged, e.Fits :=
  h.fits _ (mem_files.mpr (Or.inr rfl))

theorem Sound.sealed_lt (h : wal.Sound crc) {f : WalFile} (hf : f ∈ wal.sealedFiles) :
    f.id < wal.active.id :=
  (List.pairwise_append.mp h.ids).2.2 f hf _ (List.mem_singleton.mpr rfl)

theorem Sound.clean_iff (h : wal.Sound crc) : wal.Clean crc ↔
    ∃ s, wal.active.bytes = segmentHeader s ++ (walCodec crc).encodeAll wal.active.logged := by
  obtain ⟨s, tail, hb, ht⟩ := h.active
  have hdrop : wal.active.bytes.drop segmentHeaderLen =
      (walCodec crc).encodeAll wal.active.logged ++ tail := by
    rw [hb, List.drop_left' (segmentHeader_length s)]
  rw [Clean, hdrop, (walCodec crc).read_clean_iff h.active_fits ht]
  constructor
  · intro hnil
    exact ⟨s, by rw [hb, hnil, List.append_nil]⟩
  · rintro ⟨s', hb'⟩
    have hlen := congrArg List.length (hb.symm.trans hb')
    simp only [List.length_append, segmentHeader_length] at hlen
    exact List.length_eq_zero_iff.mp (by omega)

theorem sound_init : Wal.init.Sound crc where
  ids := List.pairwise_singleton _ _
  fits := by simp [files, init]
  whole := by simp [init]
  durable := by simp [init]
  active := ⟨1, [], by simp [init], (walCodec crc).torn_nil⟩

section

variable (h : wal.Sound crc)
include h

theorem Sound.setActive {f : WalFile} (hid : f.id = wal.active.id) (hfits : ∀ e ∈ f.logged, e.Fits)
    (hb : ∃ s tail, f.bytes = segmentHeader s ++ ((walCodec crc).encodeAll f.logged ++ tail) ∧
      (walCodec crc).Torn tail) (size : Nat) (fsynced : List WalEntry) :
    Sound crc { wal with active := f, activeWalSize := size, fsynced := fsynced } := by
  refine ⟨?_, fun g hg e he => ?_, h.whole, h.durable, hb⟩
  · have hids := List.pairwise_append.mp h.ids
    refine List.pairwise_append.mpr ⟨hids.1, List.pairwise_singleton _ _, fun g hg g' hg' => ?_⟩
    rw [List.mem_singleton.mp hg']
    exact hid ▸ h.sealed_lt hg
  · rcases mem_files.mp hg with hg | rfl
    · exact h.fits g (mem_files.mpr (Or.inl hg)) e he
    · exact hfits e he

theorem Sound.append (hc : wal.Clean crc) {e : WalEntry} (he : e.Fits) :
    (wal.append crc e).Sound crc := by
  obtain ⟨s, hb⟩ := h.clean_iff.mp hc
  refine h.setActive (f := (wal.append crc e).active) rfl (fun e' he' => ?_) ⟨s, [], ?_,
    (walCodec crc).torn_nil⟩ _ _
  · rcases List.mem_append.mp he' with he' | he'
    · exact h.active_fits e' he'
    · exact List.mem_singleton.mp he' ▸ he
  · have hone : (walCodec crc).encodeAll [e] = e.encode crc := List.append_nil _
    simp only [Wal.append]
    rw [hb, (walCodec crc).encodeAll_append, hone, List.append_nil, List.append_assoc]

theorem Sound.appendFailed (hc : wal.Clean crc) {e : WalEntry} (he : e.Fits)
    (n : Nat) : (wal.appendFailed crc e n).Sound crc := by
  obtain ⟨s, hb⟩ := h.clean_iff.mp hc
  have hone : (walCodec crc).encodeAll [e] = e.encode crc := List.append_nil _
  refine h.setActive (f := (wal.appendFailed crc e n).active) rfl (fun e' he' => ?_) ⟨s, ?_⟩ _ _
  · simp only [Wal.appendFailed] at he'
    split at he'
    next =>
      rcases List.mem_append.mp he' with he' | he'
      · exact h.active_fits e' he'
      · exact List.mem_singleton.mp he' ▸ he
    next => exact h.active_fits e' he'
  · simp only [Wal.appendFailed]
    split
    next hle =>
      refine ⟨[], ?_, (walCodec crc).torn_nil⟩
      rw [hb, (walCodec crc).encodeAll_append, hone, List.take_of_length_le hle, List.append_nil,
        List.append_assoc]
    next hlt =>
      refine ⟨(e.encode crc).take n, ?_, (walCodec crc).torn_take he (not_le.mp hlt)⟩
      rw [hb, List.append_assoc]

theorem Sound.sync : wal.sync.Sound crc :=
  h.setActive (f := wal.sync.active) rfl h.active_fits h.active _ _

theorem Sound.rollEnd : wal.rollEnd.Sound crc :=
  h.setActive (f := wal.rollEnd.active) rfl h.active_fits h.active _ _

theorem Sound.rollBegin (hc : wal.Clean crc)
    (hd : wal.active.bytes.length ≤ wal.active.synced) (buffered first : Nat) :
    (wal.rollBegin buffered first).Sound crc := by
  obtain ⟨s, hb⟩ := h.clean_iff.mp hc
  refine ⟨?_, fun f hf e he => ?_, fun f hf => ?_, fun f hf => ?_, first, [], ?_,
    (walCodec crc).torn_nil⟩
  · refine List.pairwise_append.mpr ⟨h.ids, List.pairwise_singleton _ _, fun f hf g hg => ?_⟩
    rw [List.mem_singleton.mp hg]
    rcases mem_files.mp hf with hf | rfl
    · exact Nat.lt_succ_of_lt (h.sealed_lt hf)
    · exact Nat.lt_succ_self _
  · rcases mem_files.mp hf with hf | rfl
    · exact h.fits f hf e he
    · simp [Wal.rollBegin] at he
  · rcases List.mem_append.mp hf with hf | hf
    · exact h.whole f hf
    · exact ⟨s, List.mem_singleton.mp hf ▸ hb⟩
  · rcases List.mem_append.mp hf with hf | hf
    · exact h.durable f hf
    · exact List.mem_singleton.mp hf ▸ hd
  · simp [Wal.rollBegin]

theorem Sound.unlink (id : Nat) : (wal.unlink id).Sound crc := by
  have hsub : (wal.unlink id).files.Sublist wal.files :=
    List.filter_sublist.append (List.Sublist.refl _)
  exact ⟨h.ids.sublist hsub, fun f hf => h.fits f (hsub.subset hf),
    fun f hf => h.whole f (List.mem_filter.mp hf).1,
    fun f hf => h.durable f (List.mem_filter.mp hf).1, h.active⟩

end

theorem Keeps.append {e e' : WalEntry} (h : wal.Keeps crc e) : (wal.append crc e').Keeps crc e := by
  rcases h with h | ⟨i, hi, hm, hs⟩
  · exact Or.inl h
  · have htake : (wal.active.logged ++ [e']).take i = wal.active.logged.take i :=
      List.take_append_of_le_length hi
    refine Or.inr ⟨i, ?_, ?_, ?_⟩
    · simp only [Wal.append, List.length_append]
      omega
    · simp only [Wal.append]
      rw [htake]
      exact hm
    · simp only [Wal.append]
      rw [htake]
      exact hs

theorem Keeps.appendFailed {e e' : WalEntry} {n : Nat} (h : wal.Keeps crc e) :
    (wal.appendFailed crc e' n).Keeps crc e := by
  by_cases hle : (e'.encode crc).length ≤ n
  · have happ : (wal.append crc e').Keeps crc e := h.append
    rcases happ with h' | ⟨i, hi, hm, hs⟩
    · exact Or.inl h'
    · exact Or.inr ⟨i, by simpa [Wal.appendFailed, hle, Wal.append] using hi,
        by simpa [Wal.appendFailed, hle, Wal.append] using hm,
        by simpa [Wal.appendFailed, hle, Wal.append] using hs⟩
  · rcases h with h | ⟨i, hi, hm, hs⟩
    · exact Or.inl h
    · exact Or.inr ⟨i, by simpa [Wal.appendFailed, hle] using hi,
        by simpa [Wal.appendFailed, hle] using hm, by simpa [Wal.appendFailed, hle] using hs⟩

theorem Sound.keeps_sync (h : wal.Sound crc) {e : WalEntry} (he : e ∈ wal.active.logged) :
    wal.sync.Keeps crc e := by
  obtain ⟨s, tail, hb, -⟩ := h.active
  refine Or.inr ⟨wal.active.logged.length, le_rfl, ?_, ?_⟩
  · simpa [Wal.sync] using he
  · have hlen := congrArg List.length hb
    simp only [List.length_append, segmentHeader_length] at hlen
    simp only [Wal.sync, List.take_length]
    omega

theorem Sound.keeps_of_sync (h : wal.Sound crc) {e : WalEntry} (he : wal.Keeps crc e) :
    wal.sync.Keeps crc e := by
  rcases he with he | ⟨i, -, hm, -⟩
  · exact Or.inl he
  · exact h.keeps_sync (List.mem_of_mem_take hm)

theorem Keeps.rollBegin {e : WalEntry} (h : wal.Keeps crc e) (buffered first : Nat) :
    (wal.rollBegin buffered first).Keeps crc e := by
  refine Or.inl ?_
  rcases h with ⟨f, hf, he⟩ | ⟨i, -, hm, -⟩
  · exact ⟨f, List.mem_append_left _ hf, he⟩
  · exact ⟨wal.active, List.mem_append_right _ (List.mem_singleton.mpr rfl), List.mem_of_mem_take hm⟩

theorem Keeps.rollEnd {e : WalEntry} (h : wal.Keeps crc e) : wal.rollEnd.Keeps crc e := by
  refine h.imp_right fun ⟨i, hi, hm, hs⟩ => ⟨i, hi, hm, hs.trans ?_⟩
  exact le_max_left _ _

end Wal

end ZydecoDb
