import ZydecoDb.Lib.Reader

namespace Lib.Reader

variable {E α β γ : Type} {p : Reader E α} {f : α → Reader E β} {x : α} {y : β} {e e' : Bytes}

/-- Wherever its encoding stands in a buffer, the reader returns the value and stops after it. -/
def Reads (p : Reader E α) (e : Bytes) (x : α) : Prop :=
  ∀ pre rest : Bytes, (pre ++ (e ++ rest)).length < usizeRange →
    p.run (pre ++ (e ++ rest)) pre.length = .ok (x, pre.length + e.length)

/-- The same for the end of a buffer: a reader of optional trailers needs to see that end. -/
def ReadsLast (p : Reader E α) (e : Bytes) (x : α) : Prop :=
  ∀ pre : Bytes, (pre ++ e).length < usizeRange →
    p.run (pre ++ e) pre.length = .ok (x, pre.length + e.length)

theorem run_bind (p : Reader E α) (f : α → Reader E β) (buf : Bytes) (pos : Nat) :
    (p >>= f).run buf pos = p.run buf pos >>= fun r => (f r.1).run buf r.2 := rfl

theorem Reads.last (h : Reads p e x) : ReadsLast p e x := by
  intro pre hlen
  have hr := h pre []
  rw [List.append_nil] at hr
  exact hr hlen

theorem ReadsLast.decode (h : ReadsLast p e x) (hlen : e.length < usizeRange) :
    p.decode e = .ok x := by
  have hr := h [] hlen
  rw [List.nil_append, List.length_nil] at hr
  rw [Reader.decode, hr]
  rfl

theorem Reads.pure (x : α) : Reads (E := E) (pure x) [] x := fun _ _ _ => rfl

theorem Reads.bind (hp : Reads p e x) (hf : Reads (f x) e' y) : Reads (p >>= f) (e ++ e') y := by
  intro pre rest hlen
  have hsum : (pre ++ e).length = pre.length + e.length := List.length_append
  have hnext := hf (pre ++ e) rest
  rw [List.append_assoc] at hlen
  rw [List.append_assoc, hsum, Nat.add_assoc] at hnext
  rw [run_bind, List.append_assoc, hp pre (e' ++ rest) hlen, List.length_append]
  exact hnext hlen

theorem Reads.bindLast (hp : Reads p e x) (hf : ReadsLast (f x) e' y) :
    ReadsLast (p >>= f) (e ++ e') y := by
  intro pre hlen
  have hsum : (pre ++ e).length = pre.length + e.length := List.length_append
  have hnext := hf (pre ++ e)
  rw [List.append_assoc, hsum, Nat.add_assoc] at hnext
  rw [run_bind, hp pre e' hlen, List.length_append]
  exact hnext hlen

theorem Reads.bindNil (hp : Reads p [] x) (hf : Reads (f x) e y) : Reads (p >>= f) e y :=
  hp.bind hf

theorem ReadsLast.bindNil (hp : ReadsLast p [] x) (hf : ReadsLast (f x) [] y) :
    ReadsLast (p >>= f) [] y := by
  intro pre hlen
  rw [run_bind, hp pre hlen]
  exact hf pre hlen

theorem Reads.checked (hp : Reads p e x) (hf : Reads (f x) [] y) : Reads (p >>= f) e y := by
  have h := hp.bind hf
  rwa [List.append_nil] at h

theorem Reads.map (hp : Reads p e x) (g : α → β) :
    Reads (do let a ← p; Pure.pure (g a)) e (g x) :=
  hp.checked (f := fun a => Pure.pure (g a)) (Reads.pure (g x))

theorem ReadsLast.map (hp : ReadsLast p e x) (g : α → β) :
    ReadsLast (do let a ← p; Pure.pure (g a)) e (g x) := by
  intro pre hlen
  rw [run_bind, hp pre hlen]
  rfl

section Primitives

variable (overflow truncated : E)

theorem reads_take (b : Bytes) : Reads (take overflow truncated b.length) b b := by
  intro pre rest hlen
  have htotal : pre.length + b.length ≤ (pre ++ (b ++ rest)).length := by
    simp only [List.length_append]
    omega
  simp only [take]
  rw [if_neg (by omega), if_neg (by omega), slice_append pre b rest rfl rfl]
  rfl

theorem reads_ofTaken {g : Bytes → Except (Fault E) α} {b : Bytes}
    {hg : ∀ c : Bytes, c.length = b.length → ∃ x, g c = .ok x} (hx : g b = .ok x) :
    Reads (ofTaken overflow truncated b.length g hg) b x := by
  intro pre rest hlen
  simp only [ofTaken]
  rw [reads_take overflow truncated b pre rest hlen]
  change (g b).map (·, pre.length + b.length) = _
  rw [hx]
  rfl

theorem reads_u8 (c : UInt8) : Reads (u8 overflow truncated) [c] c :=
  reads_ofTaken overflow truncated rfl

theorem reads_word {w n : Nat} (h : n < 256 ^ w) :
    Reads (word overflow truncated w) (toBe w n) n := by
  intro pre rest hlen
  have htake := reads_take overflow truncated (toBe w n) pre rest hlen
  rw [length_toBe] at htake
  simp only [word, ofTaken]
  rw [htake, length_toBe]
  change ((exactly w (toBe w n)).map ofBe).map (·, pre.length + w) = _
  rw [exactly, if_pos (length_toBe w n)]
  change Except.ok (ofBe (toBe w n), pre.length + w) = _
  rw [ofBe_toBe h]

theorem reads_lp {b : Bytes} (h : b.length < 256 ^ 4) :
    Reads (lp overflow truncated) (toBe 4 b.length ++ b) b :=
  (reads_word overflow truncated h).bind (reads_take overflow truncated b)

end Primitives

theorem reads_optU8 (c : UInt8) : Reads (E := E) optU8 [c] c := by
  intro pre rest _
  have hlt : pre.length < (pre ++ ([c] ++ rest)).length := by simp
  have hget : (pre ++ ([c] ++ rest))[pre.length]? = some c := by simp
  simp only [optU8]
  rw [if_pos hlt, byteAt, hget]
  rfl

theorem readsLast_remaining {f : Nat → Reader E β} (h : ReadsLast (f e.length) e y) :
    ReadsLast (remaining >>= f) e y := by
  intro pre hlen
  have hleft : (pre ++ e).length - pre.length = e.length := by simp
  rw [run_bind]
  simp only [remaining]
  rw [hleft]
  exact h pre hlen

theorem readsLast_peek {f : Option UInt8 → Reader E β} (h : ReadsLast (f e[0]?) e y) :
    ReadsLast (peek >>= f) e y := by
  intro pre hlen
  have hget : (pre ++ e)[pre.length]? = e[0]? := by
    rw [List.getElem?_append_right (Nat.le_refl _), Nat.sub_self]
  rw [run_bind]
  simp only [peek]
  rw [hget]
  exact h pre hlen

theorem reads_times (enc : γ → Bytes) (view : γ → α) {xs : List γ}
    (h : ∀ c ∈ xs, Reads p (enc c) (view c)) :
    Reads (times p xs.length) (xs.flatMap enc) (xs.map view) := by
  induction xs with
  | nil => exact Reads.pure []
  | cons c xs ih =>
    have htail := ih fun d hd => h d (List.mem_cons_of_mem c hd)
    rw [List.flatMap_cons]
    exact (h c List.mem_cons_self).bind (htail.map (view c :: ·))

theorem reads_list (enc : α → Bytes) {xs : List α} (h : ∀ c ∈ xs, Reads p (enc c) c) :
    Reads (times p xs.length) (xs.flatMap enc) xs := by
  have hr := reads_times enc id h
  rwa [List.map_id] at hr

end Lib.Reader
