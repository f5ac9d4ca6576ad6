import ZydecoDb.Lib.Run
import Mathlib.Data.List.MinMax

namespace Lib

variable {α β : Type*} {l : List α}

theorem findSome_congr {f g : α → Option β} (h : ∀ a ∈ l, f a = g a) :
    l.findSome? f = l.findSome? g := by
  induction l with
  | nil => rfl
  | cons a l ih =>
    rw [List.findSome?_cons, List.findSome?_cons, h a List.mem_cons_self,
      ih fun b hb => h b (List.mem_cons_of_mem _ hb)]

variable {f : α → Option β}

theorem findSome_cons {a : α} :
    (a :: l).findSome? f = (f a).or (l.findSome? f) := by
  rw [List.findSome?_cons]
  cases f a <;> rfl

theorem mem_mapM_option {r : List β} (h : l.mapM f = some r) (b : β) :
    b ∈ r ↔ ∃ a ∈ l, f a = some b := by
  induction l generalizing r with
  | nil =>
    have hr : r = [] := by simpa using h.symm
    simp [hr]
  | cons a l ih =>
    rw [List.mapM_cons] at h
    obtain ⟨c, hc, h⟩ := Option.bind_eq_some_iff.mp h
    obtain ⟨r', hr', h⟩ := Option.bind_eq_some_iff.mp h
    cases Option.some.inj h
    simp only [List.mem_cons, ih hr', exists_eq_or_imp, hc, Option.some.injEq]
    exact or_congr_left eq_comm

theorem exists_of_mapM_option {r : List β} (h : l.mapM f = some r) {a : α} (ha : a ∈ l) :
    ∃ b ∈ r, f a = some b := by
  induction l generalizing r with
  | nil => simp at ha
  | cons a' l ih =>
    rw [List.mapM_cons] at h
    obtain ⟨c, hc, h⟩ := Option.bind_eq_some_iff.mp h
    obtain ⟨r', hr', h⟩ := Option.bind_eq_some_iff.mp h
    cases Option.some.inj h
    rcases List.mem_cons.mp ha with rfl | ha
    · exact ⟨c, List.mem_cons_self, hc⟩
    · obtain ⟨b, hb, he⟩ := ih hr' ha
      exact ⟨b, List.mem_cons_of_mem _ hb, he⟩

theorem mapM_isSome_iff :
    (∃ r, l.mapM f = some r) ↔ ∀ a ∈ l, f a ≠ none := by
  induction l with
  | nil => simp
  | cons a l ih =>
    rw [List.forall_mem_cons, ← ih]
    cases ha : f a with
    | none => simp [List.mapM_cons, ha]
    | some b => cases hl : l.mapM f <;> simp [List.mapM_cons, ha, hl]

section Versions

variable {α K : Type*} [DecidableEq K] (key : α → K) (seq : α → Nat)

def newest (l : List α) (k : K) : Option α :=
  (l.filter fun v => key v = k).argmax seq

def newestAt (l : List α) (k : K) (s : Nat) : Option α :=
  newest key seq (l.filter fun v => seq v ≤ s) k

def Coherent (l : List α) : Prop :=
  ∀ v ∈ l, ∀ w ∈ l, key v = key w → seq v = seq w → v = w

def NewerThan (l m : List α) : Prop :=
  ∀ v ∈ l, ∀ w ∈ m, key v = key w → seq w < seq v

instance (l m : List α) : Decidable (NewerThan key seq l m) :=
  inferInstanceAs (Decidable (∀ v ∈ l, ∀ w ∈ m, key v = key w → seq w < seq v))

variable {key seq}

variable {l : List α} {k : K}

theorem newest_mem {v : α} (h : newest key seq l k = some v) :
    v ∈ l ∧ key v = k := by
  have hm := List.argmax_mem (Option.mem_def.mpr h)
  simpa using hm

theorem newest_ge {v : α} (h : newest key seq l k = some v) :
    ∀ w ∈ l, key w = k → seq w ≤ seq v := fun w hw hk =>
  List.le_of_mem_argmax (List.mem_filter.mpr ⟨hw, by simpa using hk⟩) (Option.mem_def.mpr h)

theorem newest_eq_none :
    newest key seq l k = none ↔ ∀ v ∈ l, key v ≠ k := by
  simp [newest, List.argmax_eq_none, List.filter_eq_nil_iff]

theorem exists_newest {v : α} (h : v ∈ l) :
    ∃ w, newest key seq l (key v) = some w := by
  cases hn : newest key seq l (key v) with
  | none => exact absurd rfl (newest_eq_none.mp hn v h)
  | some w => exact ⟨w, rfl⟩

theorem newest_eq_some {v : α} (hc : Coherent key seq l) :
    newest key seq l k = some v ↔ v ∈ l ∧ key v = k ∧ ∀ w ∈ l, key w = k → seq w ≤ seq v := by
  constructor
  · intro h
    exact ⟨(newest_mem h).1, (newest_mem h).2, newest_ge h⟩
  · rintro ⟨hm, rfl, hle⟩
    obtain ⟨w, hw⟩ : ∃ w, newest key seq l (key v) = some w := exists_newest hm
    have hwm := newest_mem hw
    have hvw := newest_ge hw v hm rfl
    rw [hw, hc w hwm.1 v hm hwm.2 (le_antisymm (hle w hwm.1 hwm.2) hvw)]

theorem newest_append_left {l m : List α} (h : ∀ v ∈ m, key v ≠ k) :
    newest key seq (l ++ m) k = newest key seq l k := by
  have hm : m.filter (fun v => key v = k) = [] :=
    List.filter_eq_nil_iff.mpr fun v hv => by simpa using h v hv
  rw [newest, newest, List.filter_append, hm, List.append_nil]

omit [DecidableEq K] in
theorem Coherent.sublist {l m : List α} (hc : Coherent key seq m) (hs : ∀ v ∈ l, v ∈ m) :
    Coherent key seq l :=
  fun v hv w hw => hc v (hs v hv) w (hs w hw)

/-- The newest version depends only on the versions of its own key. -/
theorem newest_congr {l m : List α} (hc : Coherent key seq l) (h : ∀ v, key v = k → (v ∈ l ↔ v ∈ m)) :
    newest key seq l k = newest key seq m k := by
  cases hn : newest key seq m k with
  | none =>
    rw [newest_eq_none] at hn ⊢
    exact fun v hv hk => hn v ((h v hk).mp hv) hk
  | some v =>
    have hv := newest_mem hn
    exact (newest_eq_some hc).mpr ⟨(h v hv.2).mpr hv.1, hv.2,
      fun w hw hk => newest_ge hn w ((h w hk).mp hw) hk⟩

variable {s : Nat}

theorem newestAt_eq_some {v : α} (hc : Coherent key seq l) :
    newestAt key seq l k s = some v ↔
      v ∈ l ∧ key v = k ∧ seq v ≤ s ∧ ∀ w ∈ l, key w = k → seq w ≤ s → seq w ≤ seq v := by
  have hc' : Coherent key seq (l.filter fun v => seq v ≤ s) :=
    hc.sublist fun v hv => (List.mem_filter.mp hv).1
  rw [newestAt, newest_eq_some hc']
  simp only [List.mem_filter, decide_eq_true_eq]
  constructor
  · rintro ⟨⟨hm, hs⟩, hk, hle⟩
    exact ⟨hm, hk, hs, fun w hw hwk hws => hle w ⟨hw, hws⟩ hwk⟩
  · rintro ⟨hm, hk, hs, hle⟩
    exact ⟨⟨hm, hs⟩, hk, fun w hw hwk => hle w hw.1 hwk hw.2⟩

theorem newestAt_eq_none :
    newestAt key seq l k s = none ↔ ∀ v ∈ l, key v = k → s < seq v := by
  rw [newestAt, newest_eq_none]
  simp only [List.mem_filter, decide_eq_true_eq]
  constructor
  · intro h v hv hk
    by_contra hs
    exact h v ⟨hv, not_lt.mp hs⟩ hk
  · rintro h v ⟨hv, hs⟩ hk
    exact absurd (h v hv hk) (not_lt.mpr hs)

theorem newestAt_eq_newest (h : ∀ v ∈ l, seq v ≤ s) :
    newestAt key seq l k s = newest key seq l k := by
  rw [newestAt, List.filter_eq_self.mpr fun v hv => decide_eq_true (h v hv)]

theorem newestAt_append {l m : List α} (hc : Coherent key seq (l ++ m))
    (hn : NewerThan key seq l m) :
    newestAt key seq (l ++ m) k s = (newestAt key seq l k s).or (newestAt key seq m k s) := by
  have hcl : Coherent key seq l := hc.sublist fun v hv => List.mem_append_left _ hv
  have hcm : Coherent key seq m := hc.sublist fun v hv => List.mem_append_right _ hv
  cases hl : newestAt key seq l k s with
  | some v =>
    obtain ⟨hv, hk, hs, hle⟩ := (newestAt_eq_some hcl).mp hl
    refine (newestAt_eq_some hc).mpr ⟨List.mem_append_left _ hv, hk, hs, fun w hw hwk hws => ?_⟩
    rcases List.mem_append.mp hw with hw | hw
    · exact hle w hw hwk hws
    · exact le_of_lt (hn v hv w hw (hk.trans hwk.symm))
  | none =>
    rw [newestAt_eq_none] at hl
    rw [Option.none_or]
    cases hm : newestAt key seq m k s with
    | none =>
      rw [newestAt_eq_none] at hm ⊢
      intro v hv hk
      rcases List.mem_append.mp hv with hv | hv
      · exact hl v hv hk
      · exact hm v hv hk
    | some v =>
      obtain ⟨hv, hk, hs, hle⟩ := (newestAt_eq_some hcm).mp hm
      refine (newestAt_eq_some hc).mpr ⟨List.mem_append_right _ hv, hk, hs, fun w hw hwk hws => ?_⟩
      rcases List.mem_append.mp hw with hw | hw
      · exact absurd (hl w hw hwk) (not_lt.mpr hws)
      · exact hle w hw hwk hws

/-- Layered lookup: over sources ordered newest first, the first source that holds a visible version
of the key holds the newest one of all sources. -/
theorem findSome_newestAt {sources : List (List α)} (hc : Coherent key seq sources.flatten)
    (hn : sources.Pairwise (NewerThan key seq)) :
    sources.findSome? (fun src => newestAt key seq src k s) =
      newestAt key seq sources.flatten k s := by
  induction sources with
  | nil => rfl
  | cons src rest ih =>
    obtain ⟨hhead, htail⟩ := List.pairwise_cons.mp hn
    have hnew : NewerThan key seq src rest.flatten := by
      intro v hv w hw hk
      obtain ⟨m, hm, hwm⟩ := List.mem_flatten.mp hw
      exact hhead m hm v hv w hwm hk
    rw [List.flatten_cons] at hc ⊢
    rw [newestAt_append hc hnew, ← ih (hc.sublist fun v hv => List.mem_append_right _ hv) htail,
      findSome_cons]

theorem argmax_eq_head (h : l.Pairwise fun a b => seq b ≤ seq a) :
    l.argmax seq = l.head? := by
  classical
  cases l with
  | nil => rfl
  | cons a l =>
    have hle : ∀ b ∈ a :: l, seq b ≤ seq a := by
      intro b hb
      rcases List.mem_cons.mp hb with rfl | hb
      · exact le_rfl
      · exact (List.pairwise_cons.mp h).1 b hb
    exact List.argmax_eq_some_iff.mpr ⟨List.mem_cons_self, hle, fun b _ _ => by simp⟩

theorem newest_eq_find (h : l.Pairwise fun a b => key a = key b → seq b ≤ seq a) :
    newest key seq l k = l.find? fun v => key v = k := by
  have hs : (l.filter fun v => key v = k).Pairwise fun a b => seq b ≤ seq a := by
    refine List.Pairwise.imp_of_mem ?_ (h.filter _)
    intro a b ha hb hab
    have hka := (List.mem_filter.mp ha).2
    have hkb := (List.mem_filter.mp hb).2
    simp only [decide_eq_true_eq] at hka hkb
    exact hab (hka.trans hkb.symm)
  rw [newest, argmax_eq_head hs, List.head?_filter]

theorem newestAt_eq_find (h : l.Pairwise fun a b => key a = key b → seq b ≤ seq a) :
    newestAt key seq l k s = l.find? fun v => key v = k ∧ seq v ≤ s := by
  rw [newestAt, newest_eq_find (h.filter _), List.find?_filter]
  congr 1
  funext v
  simp [and_comm]

end Versions

end Lib
