import ZydecoDb.Lib.BigEndian

namespace Lib

/-- How a decoder ends without a value: it refuses its input, or it reads outside the buffer. -/
inductive Fault (E : Type)
  | outOfBounds
  | refused (e : E)
deriving DecidableEq, Repr

variable {E α β : Type}

def slice (buf : Bytes) (lo hi : Nat) : Except (Fault E) Bytes :=
  if lo ≤ hi ∧ hi ≤ buf.length then .ok ((buf.drop lo).take (hi - lo)) else .error .outOfBounds

def byteAt (buf : Bytes) (i : Nat) : Except (Fault E) UInt8 :=
  match buf[i]? with
  | some b => .ok b
  | none => .error .outOfBounds

def fieldAt (w off : Nat) (buf : Bytes) : Except (Fault E) Nat :=
  (slice buf off (off + w)).map ofBe

variable {buf : Bytes}

theorem slice_ok {lo hi : Nat} (h : lo ≤ hi) (hhi : hi ≤ buf.length) :
    slice (E := E) buf lo hi = .ok ((buf.drop lo).take (hi - lo)) := if_pos ⟨h, hhi⟩

theorem slice_append (a b c : Bytes) {lo hi : Nat} (hlo : lo = a.length)
    (hhi : hi = a.length + b.length) : slice (E := E) (a ++ (b ++ c)) lo hi = .ok b := by
  subst hlo hhi
  have hlen : a.length + b.length ≤ (a ++ (b ++ c)).length := by
    simp only [List.length_append]
    omega
  rw [slice_ok (Nat.le_add_right _ _) hlen, List.drop_left, Nat.add_sub_cancel_left, List.take_left]

theorem byteAt_ok {i : Nat} (h : i < buf.length) :
    ∃ b, byteAt (E := E) buf i = .ok b :=
  ⟨buf[i], by rw [byteAt, List.getElem?_eq_getElem h]⟩

theorem fieldAt_ok {w off : Nat} (h : off + w ≤ buf.length) :
    fieldAt (E := E) w off buf = .ok (beAt w off buf) := by
  rw [fieldAt, slice_ok (Nat.le_add_right off w) h, Nat.add_sub_cancel_left]
  rfl

theorem fieldAt_append {w n off : Nat} (a b : Bytes) (hn : n < 256 ^ w)
    (hb : buf = a ++ (toBe w n ++ b)) (hoff : off = a.length) :
    fieldAt (E := E) w off buf = .ok n := by
  have hlen : off + w ≤ buf.length := by
    rw [hb, hoff]
    simp only [List.length_append, length_toBe]
    omega
  rw [fieldAt_ok hlen, beAt_append hn hb hoff]

theorem byteAt_ne_outOfBounds {i : Nat} (h : i < buf.length) :
    byteAt (E := E) buf i ≠ .error .outOfBounds := by
  obtain ⟨b, hb⟩ := byteAt_ok (E := E) h
  rw [hb]
  exact fun h => by cases h

theorem slice_ne_outOfBounds {lo hi : Nat} (h : lo ≤ hi) (hhi : hi ≤ buf.length) :
    slice (E := E) buf lo hi ≠ .error .outOfBounds := by
  rw [slice_ok h hhi]
  exact fun h => by cases h

theorem fieldAt_ne_outOfBounds {w off : Nat} (h : off + w ≤ buf.length) :
    fieldAt (E := E) w off buf ≠ .error .outOfBounds := by
  rw [fieldAt_ok h]
  exact fun h => by cases h

theorem bind_ne_outOfBounds {x : Except (Fault E) α} {f : α → Except (Fault E) β}
    (hx : x ≠ .error .outOfBounds) (hf : ∀ a, x = .ok a → f a ≠ .error .outOfBounds) :
    x >>= f ≠ .error .outOfBounds := by
  cases x with
  | ok a => exact hf a rfl
  | error e =>
    intro h
    cases h
    exact hx rfl

def InBuffer (buf : Bytes) (pos : Nat) : Except (Fault E) (α × Nat) → Prop
  | .ok (_, next) => pos ≤ next ∧ next ≤ buf.length
  | .error .outOfBounds => False
  | .error (.refused _) => True

/-- A cursor over a buffer. Whatever is built from the primitives below stays inside it. -/
structure Reader (E α : Type) where
  run : Bytes → Nat → Except (Fault E) (α × Nat)
  safe : ∀ buf pos, pos ≤ buf.length → InBuffer buf pos (run buf pos)

namespace Reader

def usizeRange : Nat := 2 ^ 64

def done (x : α) : Reader E α where
  run _ pos := .ok (x, pos)
  safe _ pos h := ⟨Nat.le_refl pos, h⟩

def refuse (e : E) : Reader E α where
  run _ _ := .error (.refused e)
  safe _ _ _ := trivial

def andThen (p : Reader E α) (f : α → Reader E β) : Reader E β where
  run buf pos := p.run buf pos >>= fun r => (f r.1).run buf r.2
  safe buf pos h := by
    have hp := p.safe buf pos h
    cases hrun : p.run buf pos with
    | error e =>
      rw [hrun] at hp
      cases e with
      | outOfBounds => exact hp.elim
      | refused e => exact trivial
    | ok r =>
      rw [hrun] at hp
      have hf := (f r.1).safe buf r.2 hp.2
      change InBuffer buf pos ((f r.1).run buf r.2)
      cases hnext : (f r.1).run buf r.2 with
      | error e =>
        rw [hnext] at hf
        cases e with
        | outOfBounds => exact hf.elim
        | refused e => exact trivial
      | ok r' =>
        rw [hnext] at hf
        exact ⟨Nat.le_trans hp.1 hf.1, hf.2⟩

instance instMonadReader : Monad (Reader E) where
  pure := done
  bind := andThen

def take (overflow truncated : E) (n : Nat) : Reader E Bytes where
  run buf pos :=
    if usizeRange ≤ pos + n then .error (.refused overflow)
    else if buf.length < pos + n then .error (.refused truncated)
    else (slice buf pos (pos + n)).map (·, pos + n)
  safe buf pos h := by
    split
    next => exact trivial
    next =>
      split
      next => exact trivial
      next hlen =>
        rw [slice_ok (Nat.le_add_right pos n) (by omega)]
        exact ⟨by omega, by omega⟩

def exactly (w : Nat) (b : Bytes) : Except (Fault E) Bytes :=
  if b.length = w then .ok b else .error .outOfBounds

theorem take_ok {overflow truncated : E} {n pos next : Nat} {buf b : Bytes}
    (h : (take overflow truncated n).run buf pos = .ok (b, next)) :
    b.length = n ∧ next = pos + n := by
  simp only [take] at h
  split at h
  next => cases h
  next =>
    split at h
    next => cases h
    next hlen =>
      rw [slice_ok (Nat.le_add_right pos n) (by omega)] at h
      cases h
      refine ⟨?_, rfl⟩
      rw [List.length_take, List.length_drop]
      omega

section

variable (overflow truncated : E)

def ofTaken (n : Nat) (f : Bytes → Except (Fault E) α)
    (hf : ∀ b : Bytes, b.length = n → ∃ x, f b = .ok x) : Reader E α where
  run buf pos := (take overflow truncated n).run buf pos >>= fun r => (f r.1).map (·, r.2)
  safe buf pos h := by
    have ht := (take overflow truncated n).safe buf pos h
    cases hrun : (take overflow truncated n).run buf pos with
    | error e =>
      rw [hrun] at ht
      cases e with
      | outOfBounds => exact ht.elim
      | refused e => exact trivial
    | ok r =>
      rw [hrun] at ht
      obtain ⟨x, hx⟩ := hf r.1 (take_ok hrun).1
      change InBuffer buf pos ((f r.1).map (·, r.2))
      rw [hx]
      exact ht

def u8 : Reader E UInt8 :=
  ofTaken overflow truncated 1 (byteAt · 0) fun _ h => byteAt_ok (by omega)

def word (w : Nat) : Reader E Nat :=
  ofTaken overflow truncated w (fun b => (exactly w b).map ofBe) fun b h =>
    ⟨ofBe b, by rw [exactly, if_pos h]; rfl⟩

def lp : Reader E Bytes := do
  let n ← word overflow truncated 4
  take overflow truncated n

end

def optU8 : Reader E UInt8 where
  run buf pos :=
    if pos < buf.length then (byteAt buf pos).map (·, pos + 1) else .ok (0, pos)
  safe buf pos h := by
    split
    next hlt =>
      obtain ⟨b, hb⟩ := byteAt_ok (E := E) hlt
      rw [hb]
      exact ⟨Nat.le_succ pos, hlt⟩
    next => exact ⟨Nat.le_refl pos, h⟩

def remaining : Reader E Nat where
  run buf pos := .ok (buf.length - pos, pos)
  safe _ pos h := ⟨Nat.le_refl pos, h⟩

def peek : Reader E (Option UInt8) where
  run buf pos := .ok (buf[pos]?, pos)
  safe _ pos h := ⟨Nat.le_refl pos, h⟩

def times (p : Reader E α) : Nat → Reader E (List α)
  | 0 => pure []
  | n + 1 => do
    let x ← p
    let xs ← times p n
    pure (x :: xs)

def decode (p : Reader E α) (buf : Bytes) : Except (Fault E) α := (p.run buf 0).map Prod.fst

theorem decode_ne_outOfBounds (p : Reader E α) (buf : Bytes) :
    p.decode buf ≠ .error .outOfBounds := by
  intro h
  have hp := p.safe buf 0 (Nat.zero_le _)
  rw [decode] at h
  cases hrun : p.run buf 0 with
  | ok r =>
    rw [hrun] at h
    cases h
  | error e =>
    rw [hrun] at h hp
    cases h
    exact hp

end Reader

end Lib
