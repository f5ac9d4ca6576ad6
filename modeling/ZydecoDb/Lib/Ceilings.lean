import ZydecoDb.Lib.Versions

namespace Lib

section Ceilings

variable {α K : Type*} [DecidableEq K] (key : α → K) (seq : α → Nat) (dead : α → Prop)

/-- Every version of a list is among those kept, or a read of its key at its own number shows
nothing alive among them. -/
def CeilingsKept (kept all : List α) : Prop :=
  ∀ v ∈ all, v ∈ kept ∨ ∀ w ∈ newestAt key seq kept (key v) (seq v), dead w

instance decidableCeilingsKept [DecidableEq α] [DecidablePred dead] (kept all : List α) :
    Decidable (CeilingsKept key seq dead kept all) :=
  inferInstanceAs (Decidable (∀ v ∈ all, _ ∨ ∀ w ∈ newestAt key seq kept (key v) (seq v), dead w))

variable {key seq dead} {kept mid all : List α}

theorem CeilingsKept.mono {dead' : α → Prop} (h : CeilingsKept key seq dead kept all)
    (hd : ∀ v, dead v → dead' v) : CeilingsKept key seq dead' kept all :=
  fun v hv => (h v hv).imp_right fun hw w hm => hd w (hw w hm)

theorem CeilingsKept.trans (hco : Coherent key seq mid) (h : CeilingsKept key seq dead kept mid)
    (h' : CeilingsKept key seq dead mid all) (hs : ∀ v ∈ kept, v ∈ mid) :
    CeilingsKept key seq dead kept all := by
  have hkept : Coherent key seq kept := hco.sublist hs
  -- a version the first round keeps: what is shown for it after both is shown after the second
  have hbelow : ∀ u ∈ mid, ∀ s, seq u ≤ s →
      (∀ x ∈ mid, key x = key u → seq x ≤ s → seq x ≤ seq u) → dead u →
      ∀ w ∈ newestAt key seq kept (key u) s, dead w := by
    intro u hu s hus hmax hdead w hw
    obtain ⟨hwk, hkey, hws, hwmax⟩ := (newestAt_eq_some hkept).mp hw
    have hle := hmax w (hs w hwk) hkey hws
    rcases h u hu with hin | hshow
    · have hge := hwmax u hin rfl hus
      rw [hco w (hs w hwk) u hu hkey (le_antisymm hle hge)]
      exact hdead
    · refine hshow w ((newestAt_eq_some hkept).mpr ⟨hwk, hkey, hle, fun x hx hxk hxs => ?_⟩)
      exact hwmax x hx hxk (hxs.trans hus)
  intro v hv
  rcases h' v hv with hmid | hshow
  · exact h v hmid
  · refine Or.inr fun w hw => ?_
    obtain ⟨hwk, hkey, hws, -⟩ := (newestAt_eq_some hkept).mp hw
    cases hu : newestAt key seq mid (key v) (seq v) with
    | none => exact absurd (newestAt_eq_none.mp hu w (hs w hwk) hkey) (not_lt.mpr hws)
    | some u =>
      obtain ⟨hum, huk, hus, humax⟩ := (newestAt_eq_some hco).mp hu
      refine hbelow u hum (seq v) hus (fun x hx hxk hxs => ?_) (hshow u hu) w (huk ▸ hw)
      exact humax x hx (hxk.trans huk) hxs

/-- Newer versions leave what is read at the old ceilings. -/
theorem CeilingsKept.grow {kept' all' : List α} (new : List α) (hco : Coherent key seq kept')
    (h : CeilingsKept key seq dead kept all) (hkept : ∀ v, v ∈ kept' ↔ v ∈ kept ∨ v ∈ new)
    (hall : ∀ v ∈ all', v ∈ all ∨ v ∈ new) (hnew : ∀ v ∈ all, ∀ n ∈ new, seq v < seq n) :
    CeilingsKept key seq dead kept' all' := by
  have hold : Coherent key seq kept := hco.sublist fun v hv => (hkept v).mpr (Or.inl hv)
  intro v hv
  rcases hall v hv with hv | hv
  · rcases h v hv with hin | hshow
    · exact Or.inl ((hkept v).mpr (Or.inl hin))
    · refine Or.inr fun w hw => hshow w ?_
      obtain ⟨hwk, hkey, hws, hwmax⟩ := (newestAt_eq_some hco).mp hw
      rcases (hkept w).mp hwk with hwk | hwn
      · refine (newestAt_eq_some hold).mpr ⟨hwk, hkey, hws, fun x hx => ?_⟩
        exact hwmax x ((hkept x).mpr (Or.inl hx))
      · exact absurd (hnew v hv w hwn) (not_lt.mpr hws)
  · exact Or.inl ((hkept v).mpr (Or.inr hv))

theorem CeilingsKept.newestAt_eq (h : CeilingsKept key seq dead kept all)
    (hco : Coherent key seq all) (hs : ∀ v ∈ kept, v ∈ all) {k : K} {s : Nat} {w : α}
    (hw : newestAt key seq kept k s = some w) (hlive : ¬ dead w) :
    newestAt key seq all k s = some w := by
  have hkept : Coherent key seq kept := hco.sublist hs
  obtain ⟨hwk, hkey, hws, hwmax⟩ := (newestAt_eq_some hkept).mp hw
  refine (newestAt_eq_some hco).mpr ⟨hs w hwk, hkey, hws, fun u hu huk hus => ?_⟩
  by_contra hlt
  rw [not_le] at hlt
  rcases h u hu with hin | hshow
  · have hle := hwmax u hin huk hus
    omega
  · refine hlive (hshow w ((newestAt_eq_some hkept).mpr ?_))
    exact ⟨hwk, hkey.trans huk.symm, hlt.le, fun x hx hxk hxs =>
      hwmax x hx (hxk.trans huk) (hxs.trans hus)⟩

end Ceilings

end Lib
