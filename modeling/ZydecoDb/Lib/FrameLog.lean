import ZydecoDb.Lib.BigEndian

namespace Lib

/-- How reading an append-only file of frames ends: at its last byte, in a frame that is not all
there, or at bytes that are refused. -/
inductive FrameEnd (E : Type)
  | clean
  | short (rest : Bytes)
  | bad (error : E) (rest : Bytes)
deriving DecidableEq, Repr

def FrameEnd.rest {E : Type} : FrameEnd E → Bytes
  | .clean => []
  | .short rest => rest
  | .bad _ rest => rest

/-- A framing of records: what is written for a record that fits is read back from any file that
goes on after it, and no strict part of it is taken for a record. -/
structure FrameCodec (R E : Type) where
  encode : R → Bytes
  decode : Bytes → Except E (Option (R × Nat))
  fits : R → Prop
  encode_ne : ∀ r, fits r → encode r ≠ []
  decode_encode : ∀ r, fits r → ∀ rest, decode (encode r ++ rest) = .ok (some (r, (encode r).length))
  decode_short : ∀ r, fits r → ∀ n < (encode r).length, decode ((encode r).take n) = .ok none
  decode_pos : ∀ buf r n, decode buf = .ok (some (r, n)) → 0 < n

namespace FrameCodec

variable {R E : Type} (C : FrameCodec R E)

def readFuel : Nat → Bytes → List R × FrameEnd E
  | 0, _ => ([], .clean)
  | _ + 1, [] => ([], .clean)
  | fuel + 1, b :: buf =>
    match C.decode (b :: buf) with
    | .ok (some (r, n)) =>
      let rest := readFuel fuel ((b :: buf).drop n)
      (r :: rest.1, rest.2)
    | .ok none => ([], .short (b :: buf))
    | .error e => ([], .bad e (b :: buf))

def read (buf : Bytes) : List R × FrameEnd E := C.readFuel buf.length buf

def encodeAll (rs : List R) : Bytes := rs.flatMap C.encode

variable {buf : Bytes}

theorem readFuel_eq {fuel fuel' : Nat} (h : buf.length ≤ fuel) (h' : buf.length ≤ fuel') :
    C.readFuel fuel buf = C.readFuel fuel' buf := by
  induction fuel generalizing fuel' buf with
  | zero =>
    have hb : buf = [] := List.length_eq_zero_iff.mp (by omega)
    cases fuel' with
    | zero => rfl
    | succ fuel' => rw [hb]; rfl
  | succ fuel ih =>
    cases buf with
    | nil => cases fuel' <;> rfl
    | cons b buf =>
      cases fuel' with
      | zero => simp at h'
      | succ fuel' =>
        simp only [readFuel]
        split
        next r n hd =>
          have hn := C.decode_pos _ _ _ hd
          have hlen : ((b :: buf).drop n).length ≤ buf.length := by
            rw [List.length_drop, List.length_cons]
            omega
          simp only [List.length_cons] at h h'
          have hrec : C.readFuel fuel ((b :: buf).drop n) = C.readFuel fuel' ((b :: buf).drop n) :=
            ih (by omega) (by omega)
          rw [hrec]
        next => rfl
        next => rfl

@[simp] theorem read_nil : C.read [] = ([], .clean) := rfl

theorem read_of_decode {r : R} {n : Nat} (hne : buf ≠ []) (hd : C.decode buf = .ok (some (r, n))) :
    C.read buf = (r :: (C.read (buf.drop n)).1, (C.read (buf.drop n)).2) := by
  cases buf with
  | nil => exact absurd rfl hne
  | cons b buf =>
    have hn := C.decode_pos _ _ _ hd
    have hlen : ((b :: buf).drop n).length ≤ buf.length := by
      rw [List.length_drop, List.length_cons]
      omega
    rw [read, List.length_cons, readFuel, hd]
    simp only
    rw [C.readFuel_eq hlen le_rfl]
    rfl

theorem read_of_short (hne : buf ≠ []) (hd : C.decode buf = .ok none) :
    C.read buf = ([], .short buf) := by
  cases buf with
  | nil => exact absurd rfl hne
  | cons b buf => rw [read, List.length_cons, readFuel, hd]

theorem read_of_error {e : E} (hne : buf ≠ []) (hd : C.decode buf = .error e) :
    C.read buf = ([], .bad e buf) := by
  cases buf with
  | nil => exact absurd rfl hne
  | cons b buf => rw [read, List.length_cons, readFuel, hd]

@[simp] theorem encodeAll_nil : C.encodeAll [] = [] := rfl

theorem encodeAll_cons (r : R) (rs : List R) : C.encodeAll (r :: rs) = C.encode r ++ C.encodeAll rs :=
  List.flatMap_cons

theorem encodeAll_append (rs ss : List R) : C.encodeAll (rs ++ ss) = C.encodeAll rs ++ C.encodeAll ss :=
  List.flatMap_append

variable {rs : List R}

/-- Reading goes through whole records to whatever follows them. -/
theorem read_encodeAll_append (hr : ∀ r ∈ rs, C.fits r) (tail : Bytes) :
    C.read (C.encodeAll rs ++ tail) = (rs ++ (C.read tail).1, (C.read tail).2) := by
  induction rs with
  | nil => rfl
  | cons r rs ih =>
    have hfit := hr r List.mem_cons_self
    have hd := C.decode_encode r hfit (C.encodeAll rs ++ tail)
    rw [encodeAll_cons, List.append_assoc, C.read_of_decode (by simp [C.encode_ne r hfit]) hd, List.drop_left,
      ih fun s hs => hr s (List.mem_cons_of_mem _ hs)]
    rfl

theorem read_encodeAll (hr : ∀ r ∈ rs, C.fits r) :
    C.read (C.encodeAll rs) = (rs, .clean) := by
  simpa using C.read_encodeAll_append hr []

/-- What an interrupted append may leave behind whole frames: nothing, or a strict part of one. -/
def Torn (tail : Bytes) : Prop :=
  tail = [] ∨ ∃ r, C.fits r ∧ ∃ n < (C.encode r).length, tail = (C.encode r).take n

theorem torn_nil : C.Torn [] := Or.inl rfl

theorem torn_take {r : R} (hr : C.fits r) {n : Nat} (hn : n < (C.encode r).length) :
    C.Torn ((C.encode r).take n) := Or.inr ⟨r, hr, n, hn, rfl⟩

variable {tail : Bytes}

theorem Torn.take (h : C.Torn tail) (n : Nat) : C.Torn (tail.take n) := by
  rcases h with rfl | ⟨r, hr, m, hm, rfl⟩
  · exact Or.inl List.take_nil
  · rw [List.take_take]
    exact C.torn_take hr (by omega)

theorem read_torn (h : C.Torn tail) :
    C.read tail = ([], if tail = [] then .clean else .short tail) := by
  by_cases hne : tail = []
  · rw [if_pos hne, hne, read_nil]
  · rcases h with h | ⟨r, hr, n, hn, rfl⟩
    · exact absurd h hne
    · rw [if_neg hne, C.read_of_short hne (C.decode_short r hr n hn)]

theorem read_clean_iff (hr : ∀ r ∈ rs, C.fits r) (h : C.Torn tail) :
    (C.read (C.encodeAll rs ++ tail)).2 = .clean ↔ tail = [] := by
  rw [C.read_encodeAll_append hr, C.read_torn h]
  by_cases hne : tail = [] <;> simp [hne]

/-- A prefix of a log is whole records and a torn rest. -/
theorem take_encodeAll (hr : ∀ r ∈ rs, C.fits r) (n : Nat) : ∃ j ≤ rs.length, ∃ torn,
    (C.encodeAll rs).take n = C.encodeAll (rs.take j) ++ torn ∧ C.Torn torn ∧
      ∀ i ≤ rs.length, (C.encodeAll (rs.take i)).length ≤ n → i ≤ j := by
  induction rs generalizing n with
  | nil => exact ⟨0, le_rfl, [], by simp, C.torn_nil, fun i hi _ => hi⟩
  | cons r rs ih =>
    by_cases hn : n < (C.encode r).length
    · refine ⟨0, Nat.zero_le _, (C.encode r).take n, ?_, C.torn_take (hr r List.mem_cons_self) hn,
        fun i _ hlen => ?_⟩
      · rw [encodeAll_cons, List.take_append_of_le_length hn.le]
        rfl
      · cases i with
        | zero => exact le_rfl
        | succ i =>
          rw [List.take_succ_cons, encodeAll_cons, List.length_append] at hlen
          omega
    · obtain ⟨j, hj, torn, he, ht, hmax⟩ :=
        ih (fun s hs => hr s (List.mem_cons_of_mem _ hs)) (n - (C.encode r).length)
      refine ⟨j + 1, Nat.succ_le_succ hj, torn, ?_, ht, fun i hi hlen => ?_⟩
      · rw [encodeAll_cons, List.take_append, List.take_of_length_le (not_lt.mp hn), he,
          List.take_succ_cons, encodeAll_cons, List.append_assoc]
      · cases i with
        | zero => exact Nat.zero_le _
        | succ i =>
          rw [List.take_succ_cons, encodeAll_cons, List.length_append] at hlen
          exact Nat.succ_le_succ (hmax i (Nat.le_of_succ_le_succ hi) (by omega))

theorem take_encodeAll_torn (hr : ∀ r ∈ rs, C.fits r) (h : C.Torn tail) (n : Nat) :
    ∃ j ≤ rs.length, ∃ torn,
    (C.encodeAll rs ++ tail).take n = C.encodeAll (rs.take j) ++ torn ∧ C.Torn torn ∧
      ∀ i ≤ rs.length, (C.encodeAll (rs.take i)).length ≤ n → i ≤ j := by
  by_cases hn : n ≤ (C.encodeAll rs).length
  · rw [List.take_append_of_le_length hn]
    exact C.take_encodeAll hr n
  · refine ⟨rs.length, le_rfl, tail.take (n - (C.encodeAll rs).length), ?_, h.take C _,
      fun i hi _ => hi⟩
    rw [List.take_append, List.take_of_length_le (not_le.mp hn).le, List.take_length]

end FrameCodec

end Lib
