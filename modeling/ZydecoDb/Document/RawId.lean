import ZydecoDb.Document.Filter
import ZydecoDb.Lib.JsonText
import Mathlib.Data.List.DropRight

namespace ZydecoDb

open Lib Lib.JsonText

def isAsciiWhitespace (b : UInt8) : Bool :=
  b = 0x20 || b = 0x09 || b = 0x0A || b = 0x0C || b = 0x0D

def skipWs (s : Bytes) : Bytes := s.dropWhile isAsciiWhitespace

def trimAscii (s : Bytes) : Bytes := (skipWs s).rdropWhile isAsciiWhitespace

def unescape (c : UInt8) : Option UInt8 :=
  if c = 0x22 ∨ c = 0x5C ∨ c = 0x2F then some c
  else if c = 0x62 then some 0x08
  else if c = 0x66 then some 0x0C
  else if c = 0x6E then some 0x0A
  else if c = 0x72 then some 0x0D
  else if c = 0x74 then some 0x09
  else none

def fromStrRadix16 (ds : Bytes) : Option Nat :=
  let ds := if ds.head? = some 0x2B then ds.drop 1 else ds
  if ds.all isHex then some (hexValue ds) else none

def fromUtf16Lossy (cp : Nat) : Bytes :=
  String.utf8EncodeChar (if isSurrogate cp then Char.ofNat 0xFFFD else Char.ofNat cp)

def scanJsonString (out : Bytes) : Bool → Bytes → Option (Bytes × Bytes)
  | _, [] => none
  | true, c :: s =>
    if c = 0x75 then
      match s with
      | a :: b :: c :: d :: s =>
        (fromStrRadix16 [a, b, c, d]).bind fun cp => scanJsonString (out ++ fromUtf16Lossy cp) false s
      | _ => none
    else (unescape c).bind fun b => scanJsonString (out ++ [b]) false s
  | false, c :: s =>
    if c = 0x5C then scanJsonString out true s
    else if c = 0x22 then some (out, s)
    else if c < 0x20 then none
    else scanJsonString (out ++ [c]) false s

def skipLiteral (s lit : Bytes) : Option Bytes := if lit <+: s then some (s.drop lit.length) else none

/-- `skip_json_container` with its `depth`, `in_str` and `escaped`. The depth is at most
the number of bytes, so the `i32` does not wrap in a payload of less than 2 GiB. -/
def skipJsonContainer (depth : Int) : Bool → Bool → Bytes → Option Bytes
  | _, _, [] => none
  | true, escaped, c :: s =>
    if escaped then skipJsonContainer depth true false s
    else if c = 0x5C then skipJsonContainer depth true true s
    else if c = 0x22 then skipJsonContainer depth false false s
    else skipJsonContainer depth true false s
  | false, escaped, c :: s =>
    if c = 0x22 then skipJsonContainer depth true escaped s
    else if c = 0x7B ∨ c = 0x5B then skipJsonContainer (depth + 1) false escaped s
    else if c = 0x7D ∨ c = 0x5D then
      if depth - 1 = 0 then some s
      else if depth - 1 < 0 then none
      else skipJsonContainer (depth - 1) false escaped s
    else skipJsonContainer depth false escaped s

def isNumberByte (b : UInt8) : Bool :=
  isDigit b || b = 0x2E || b = 0x65 || b = 0x45 || b = 0x2B || b = 0x2D

def skipJsonValue (s : Bytes) : Option Bytes :=
  match skipWs s with
  | [] => none
  | c :: s =>
    if c = 0x22 then (scanJsonString [] false s).map Prod.snd
    else if c = 0x7B ∨ c = 0x5B then skipJsonContainer 0 false false (c :: s)
    else if c = 0x74 then skipLiteral (c :: s) [0x74, 0x72, 0x75, 0x65]
    else if c = 0x66 then skipLiteral (c :: s) [0x66, 0x61, 0x6C, 0x73, 0x65]
    else if c = 0x6E then skipLiteral (c :: s) [0x6E, 0x75, 0x6C, 0x6C]
    else if c = 0x2D ∨ isDigit c then some (s.dropWhile isNumberByte)
    else none

def scanKeys (want : Bytes) : Nat → Bytes → Bool
  | 0, _ => false
  | rounds + 1, s =>
    match skipWs s with
    | [] => false
    | c :: s =>
      if c ≠ 0x22 then false
      else match scanJsonString [] false s with
        | none => false
        | some (key, s) =>
          if (skipWs s).head? ≠ some 0x3A then false
          else if key = want then true
          else match skipJsonValue (skipWs ((skipWs s).drop 1)) with
            | none => false
            | some s =>
              if (skipWs s).head? = some 0x2C then scanKeys want rounds ((skipWs s).drop 1)
              else false

def scanTopLevelHasKey (s want : Bytes) : Bool := scanKeys want (s.length + 1) s

def rawJsonHasId (payload : Bytes) : Bool :=
  match trimAscii payload with
  | [] => false
  | c :: s => if c ≠ 0x7B then false else scanTopLevelHasKey s idField

section Blanks
variable {w : Bytes}

theorem isAsciiWhitespace_of_isBlank {b : UInt8} (h : isBlank b = true) :
    isAsciiWhitespace b = true := by
  unfold isBlank at h
  unfold isAsciiWhitespace
  simp only [Bool.or_eq_true] at h ⊢
  tauto

theorem skipWs_append (hw : Blank w) (s : Bytes) : skipWs (w ++ s) = skipWs s :=
  List.dropWhile_append_of_pos fun b hb => isAsciiWhitespace_of_isBlank (hw b hb)

theorem skipWs_cons {c : UInt8} (hc : isAsciiWhitespace c = false) (s : Bytes) :
    skipWs (c :: s) = c :: s :=
  List.dropWhile_cons_of_neg (by simp [hc])

theorem rdropWhile_append_blank (hw : Blank w) (s : Bytes) :
    (s ++ w).rdropWhile isAsciiWhitespace = s.rdropWhile isAsciiWhitespace := by
  unfold List.rdropWhile
  rw [List.reverse_append, List.dropWhile_append_of_pos]
  intro b hb
  exact isAsciiWhitespace_of_isBlank (hw b (List.mem_reverse.mp hb))

theorem rdropWhile_cons {c : UInt8} (hc : isAsciiWhitespace c = false) (s : Bytes) :
    (c :: s).rdropWhile isAsciiWhitespace = c :: s.rdropWhile isAsciiWhitespace := by
  unfold List.rdropWhile
  rw [List.reverse_cons, List.dropWhile_append]
  split
  next h => simp [hc, List.isEmpty_iff.mp h]
  next => simp

theorem trimAscii_text (i : Item) {c : UInt8} {s : Bytes} (hc : isAsciiWhitespace c = false)
    (hi : i.value = c :: s) : trimAscii i.text = c :: s.rdropWhile isAsciiWhitespace := by
  unfold trimAscii Item.text
  rw [hi, skipWs_append i.blank_before, List.cons_append, skipWs_cons hc, rdropWhile_cons hc,
    rdropWhile_append_blank i.blank_after]

end Blanks

section Strings

def scanned : Piece → Bytes
  | .pair high low _ _ => fromUtf16Lossy high.value ++ fromUtf16Lossy low.value
  | p => p.decoded

theorem scanJsonString_codeUnit (u : CodeUnit) (out rest : Bytes) :
    scanJsonString out false (0x5C :: 0x75 :: u.digits ++ rest) =
      scanJsonString (out ++ fromUtf16Lossy u.value) false rest := by
  obtain ⟨ds, hlen, hex⟩ := u
  obtain ⟨a, b, c, d, rfl⟩ : ∃ a b c d, ds = [a, b, c, d] := List.length_eq_four.mp hlen
  have ha : a ≠ 0x2B := by
    rintro rfl
    exact absurd (hex _ List.mem_cons_self) (by decide)
  have hall : [a, b, c, d].all isHex = true := List.all_eq_true.mpr hex
  have hval : fromStrRadix16 [a, b, c, d] = some (hexValue [a, b, c, d]) := by
    simp [fromStrRadix16, ha, hall]
  simp [scanJsonString, hval, CodeUnit.value]

theorem scanJsonString_piece (p : Piece) (out rest : Bytes) :
    scanJsonString out false (p.text ++ rest) = scanJsonString (out ++ scanned p) false rest := by
  cases p with
  | plain b h =>
    obtain ⟨hlow, hquote, hslash⟩ := h
    have hb : ¬ b < 0x20 := not_lt.mpr hlow
    simp [Piece.text, scanned, Piece.decoded, scanJsonString, hquote, hslash, hb]
  | short e h =>
    obtain ⟨hne, hun⟩ : e.1 ≠ 0x75 ∧ unescape e.1 = some e.2 := by
      unfold shortEscapes at h
      fin_cases h <;> simp [unescape]
    have hs : scanJsonString out true (e.1 :: rest) = scanJsonString (out ++ [e.2]) false rest := by
      rw [scanJsonString.eq_def]
      simp [hne, hun]
    simpa [Piece.text, scanned, Piece.decoded, scanJsonString] using hs
  | scalar u h =>
    have hs := scanJsonString_codeUnit u out rest
    simpa only [Piece.text, scanned, Piece.decoded, fromUtf16Lossy, if_neg h] using hs
  | pair high low _ _ =>
    have hs := scanJsonString_codeUnit high out (0x5C :: 0x75 :: low.digits ++ rest)
    rw [scanJsonString_codeUnit low] at hs
    simpa only [Piece.text, scanned, List.append_assoc, List.cons_append] using hs

theorem scanJsonString_pieces (ps : List Piece) (out rest : Bytes) :
    scanJsonString out false (ps.flatMap Piece.text ++ 0x22 :: rest) =
      some (out ++ ps.flatMap scanned, rest) := by
  induction ps generalizing out with
  | nil => simp [scanJsonString]
  | cons p ps ih =>
    rw [List.flatMap_cons, List.append_assoc, scanJsonString_piece, ih, List.flatMap_cons,
      List.append_assoc]

theorem four_le_length_utf8 {n : Nat} (h : 0x10000 ≤ n) (hn : n < 0x110000) :
    4 ≤ (String.utf8EncodeChar (Char.ofNat n)).length := by
  have hval : (Char.ofNat n).toNat = n := by
    rw [Char.toNat_ofNat, if_pos (.inr ⟨by omega, hn⟩)]
  rw [String.length_utf8EncodeChar]
  unfold Char.utf8Size
  dsimp only
  rw [if_neg, if_neg, if_neg]
  all_goals
    rw [UInt32.le_iff_toNat_le]
    change ¬ (Char.ofNat n).toNat ≤ _
    simp
    omega

theorem scanned_or_long (p : Piece) :
    scanned p = p.decoded ∨ 4 ≤ (scanned p).length ∧ 4 ≤ p.decoded.length := by
  cases p with
  | plain b h => exact .inl rfl
  | short e h => exact .inl rfl
  | scalar u h => exact .inl rfl
  | pair high low hhigh hlow =>
    right
    have hh : isSurrogate high.value := ⟨hhigh.1, by omega⟩
    have hl : isSurrogate low.value := ⟨by omega, hlow.2⟩
    have hlen : (fromUtf16Lossy high.value).length = 3 ∧ (fromUtf16Lossy low.value).length = 3 := by
      rw [fromUtf16Lossy, fromUtf16Lossy, if_pos hh, if_pos hl]
      decide
    refine ⟨by simp [scanned, hlen], ?_⟩
    unfold Piece.decoded
    apply four_le_length_utf8
    · omega
    · omega

theorem scanned_eq_iff (ps : List Piece) {key : Bytes} (hkey : key.length < 4) :
    ps.flatMap scanned = key ↔ decodedString ps = key := by
  have h : ps.flatMap scanned = decodedString ps ∨
      4 ≤ (ps.flatMap scanned).length ∧ 4 ≤ (decodedString ps).length := by
    unfold decodedString
    induction ps with
    | nil => exact .inl rfl
    | cons p ps ih =>
      simp only [List.flatMap_cons, List.length_append]
      rcases scanned_or_long p with hp | hp
      · rcases ih with he | hl
        · rw [hp, he]
          exact .inl rfl
        · right
          omega
      · right
        omega
  rcases h with h | ⟨hs, hd⟩
  · rw [h]
  · constructor
    · intro he
      rw [he] at hs
      omega
    · intro he
      rw [he] at hd
      omega

end Strings

section Containers

def Neutral (s : Bytes) : Prop :=
  ∀ (depth : Int) (rest : Bytes), 1 ≤ depth →
    skipJsonContainer depth false false (s ++ rest) = skipJsonContainer depth false false rest

theorem neutral_nil : Neutral [] := fun _ _ _ => rfl

theorem Neutral.append {s t : Bytes} (hs : Neutral s) (ht : Neutral t) : Neutral (s ++ t) := by
  intro depth rest hd
  rw [List.append_assoc, hs depth _ hd, ht depth rest hd]

theorem neutral_cons {c : UInt8} (hc : c ∉ ([0x22, 0x7B, 0x5B, 0x7D, 0x5D] : Bytes)) {s : Bytes}
    (hs : Neutral s) : Neutral (c :: s) := by
  intro depth rest hd
  simp only [List.mem_cons, List.not_mem_nil, or_false, not_or] at hc
  obtain ⟨h1, h2, h3, h4, h5⟩ := hc
  rw [List.cons_append, skipJsonContainer]
  simp only [h1, h2, h3, h4, h5, or_self, if_false]
  exact hs depth rest hd

theorem neutral_of_forall {s : Bytes}
    (h : ∀ c ∈ s, c ∉ ([0x22, 0x7B, 0x5B, 0x7D, 0x5D] : Bytes)) : Neutral s := by
  induction s with
  | nil => exact neutral_nil
  | cons c s ih =>
    exact neutral_cons (h c List.mem_cons_self) (ih fun b hb => h b (List.mem_cons_of_mem c hb))

theorem neutral_blank {w : Bytes} (hw : Blank w) : Neutral w := by
  refine neutral_of_forall fun c hc => ?_
  have hb := hw c hc
  rintro hm
  simp only [List.mem_cons, List.not_mem_nil, or_false] at hm
  rcases hm with rfl | rfl | rfl | rfl | rfl <;> exact absurd hb (by decide)

theorem skipJsonContainer_plain {depth : Int} {bs rest : Bytes}
    (h : ∀ b ∈ bs, b ≠ 0x5C ∧ b ≠ 0x22) :
    skipJsonContainer depth true false (bs ++ rest) = skipJsonContainer depth true false rest := by
  induction bs with
  | nil => rfl
  | cons b bs ih =>
    obtain ⟨hs, hq⟩ := h b List.mem_cons_self
    rw [List.cons_append, skipJsonContainer]
    simp only [hs, hq, Bool.false_eq_true, if_false]
    exact ih fun b hb => h b (List.mem_cons_of_mem _ hb)

theorem skipJsonContainer_escape (depth : Int) (c : UInt8) (rest : Bytes) :
    skipJsonContainer depth true false (0x5C :: c :: rest) =
      skipJsonContainer depth true false rest := by
  simp [skipJsonContainer]

theorem plain_digits (u : CodeUnit) : ∀ b ∈ u.digits, b ≠ 0x5C ∧ b ≠ 0x22 := by
  intro b hb
  have hx := u.hex b hb
  constructor <;> rintro rfl <;> exact absurd hx (by decide)

theorem skipJsonContainer_piece (p : Piece) (depth : Int) (rest : Bytes) :
    skipJsonContainer depth true false (p.text ++ rest) =
      skipJsonContainer depth true false rest := by
  cases p with
  | plain b h =>
    have hb : ∀ c ∈ [b], c ≠ 0x5C ∧ c ≠ 0x22 := by
      intro c hc
      cases List.mem_singleton.mp hc
      exact ⟨h.2.2, h.2.1⟩
    exact skipJsonContainer_plain hb
  | short e h => exact skipJsonContainer_escape depth e.1 rest
  | scalar u h =>
    rw [Piece.text, List.cons_append, List.cons_append, skipJsonContainer_escape,
      skipJsonContainer_plain (plain_digits u)]
  | pair high low _ _ =>
    rw [Piece.text, List.cons_append, List.cons_append, List.cons_append, List.cons_append,
      skipJsonContainer_escape, List.append_assoc, skipJsonContainer_plain (plain_digits high),
      List.cons_append, List.cons_append, skipJsonContainer_escape,
      skipJsonContainer_plain (plain_digits low)]

theorem neutral_quoted (ps : List Piece) : Neutral (quoted ps) := by
  intro depth rest hd
  have h : ∀ ps : List Piece, skipJsonContainer depth true false (ps.flatMap Piece.text ++ 0x22 :: rest) =
      skipJsonContainer depth false false rest := by
    intro ps
    induction ps with
    | nil => simp [skipJsonContainer]
    | cons p ps ih => rw [List.flatMap_cons, List.append_assoc, skipJsonContainer_piece, ih]
  have hq := h ps
  simpa [quoted, skipJsonContainer] using hq

theorem neutral_commaJoined {es : List Bytes} (h : ∀ e ∈ es, Neutral e) :
    Neutral (commaJoined es) := by
  fun_induction commaJoined es with
  | case1 => exact neutral_nil
  | case2 e => exact h e List.mem_cons_self
  | case3 e e' es ih =>
    have hrest := ih fun x hx => h x (List.mem_cons_of_mem e hx)
    exact (h e List.mem_cons_self).append (neutral_cons (by decide) hrest)

theorem neutral_inside {es : List Bytes} {inner : Bytes} (hi : Inside es inner)
    (h : ∀ e ∈ es, Neutral e) : Neutral inner := by
  unfold Inside at hi
  split at hi
  next => exact neutral_blank hi
  next =>
    rw [hi]
    exact neutral_commaJoined h

theorem skipJsonContainer_brackets {l r : UInt8} (ho : l = 0x7B ∨ l = 0x5B)
    (hc : r = 0x7D ∨ r = 0x5D) {inner : Bytes} (hn : Neutral inner) {depth : Int}
    (hd : 0 ≤ depth) (rest : Bytes) :
    skipJsonContainer depth false false (l :: inner ++ [r] ++ rest) =
      if depth = 0 then some rest else skipJsonContainer depth false false rest := by
  have hoq : l ≠ 0x22 := by rcases ho with rfl | rfl <;> decide
  have hcq : r ≠ 0x22 ∧ ¬ (r = 0x7B ∨ r = 0x5B) := by
    rcases hc with rfl | rfl <;> decide
  have hneg : ¬ depth + 1 - 1 < 0 := by omega
  rw [List.append_assoc, List.cons_append, skipJsonContainer, if_neg hoq, if_pos ho,
    hn _ _ (by omega), List.singleton_append, skipJsonContainer, if_neg hcq.1, if_neg hcq.2,
    if_pos hc, if_neg hneg, Int.add_sub_cancel]

end Containers

section Values

theorem NumberText.bytes {sign int frac exp : Bytes} (h : NumberText sign int frac exp) :
    (∀ b ∈ sign ++ int ++ frac ++ exp, isNumberByte b = true) ∧
      ∃ c s, sign ++ int ++ frac ++ exp = c :: s ∧ (c = 0x2D ∨ isDigit c = true) := by
  obtain ⟨hsign, ⟨hint, -⟩, hfrac, hexp⟩ := h
  have hdigits : ∀ ds, Digits ds → ∀ b ∈ ds, isNumberByte b = true := by
    intro ds hds b hb
    simp [isNumberByte, hds.2 b hb]
  constructor
  · simp only [List.mem_append]
    rintro b (((hb | hb) | hb) | hb)
    · rcases hsign with rfl | rfl
      · simp at hb
      · cases List.mem_singleton.mp hb
        rfl
    · exact hdigits int hint b hb
    · rcases hfrac with rfl | ⟨ds, hds, rfl⟩
      · simp at hb
      · rcases List.mem_cons.mp hb with rfl | hb
        · rfl
        · exact hdigits ds hds b hb
    · rcases hexp with rfl | ⟨e, sgn, ds, he, hsgn, hds, rfl⟩
      · simp at hb
      · rcases List.mem_append.mp hb with hb | hb
        · rcases List.mem_cons.mp hb with rfl | hb
          · rcases he with rfl | rfl <;> rfl
          · rcases hsgn with rfl | rfl | rfl
            · simp at hb
            all_goals
              cases List.mem_singleton.mp hb
              rfl
        · exact hdigits ds hds b hb
  · rcases hsign with rfl | rfl
    · obtain ⟨c, s, rfl⟩ := List.exists_cons_of_ne_nil hint.1
      exact ⟨c, s ++ frac ++ exp, rfl, .inr (hint.2 c List.mem_cons_self)⟩
    · exact ⟨0x2D, int ++ frac ++ exp, rfl, .inl rfl⟩

theorem Item.neutral {i : Item} (hv : Neutral i.value) : Neutral i.text :=
  (neutral_blank i.blank_before).append (hv.append (neutral_blank i.blank_after))

theorem Member.neutral {m : Member} (hv : Neutral m.value) : Neutral m.text :=
  (neutral_blank m.blank_beforeKey).append ((neutral_quoted m.key).append
    ((neutral_blank m.blank_afterKey).append (neutral_cons (by decide) (Item.neutral hv))))

theorem JsonValue.neutral {v : Bytes} (h : JsonValue v) : Neutral v := by
  induction h with
  | literal h =>
    refine neutral_of_forall ?_
    unfold literals at h
    fin_cases h <;> simp
  | number h =>
    refine neutral_of_forall fun c hc => ?_
    have hb := (NumberText.bytes h).1 c hc
    intro hm
    simp only [List.mem_cons, List.not_mem_nil, or_false] at hm
    rcases hm with rfl | rfl | rfl | rfl | rfl <;> exact absurd hb (by decide)
  | string ps => exact neutral_quoted ps
  | array hv h ih =>
    have hn := neutral_inside h (List.forall_mem_map.mpr fun i hi => Item.neutral (ih i hi))
    intro depth rest hd
    rw [skipJsonContainer_brackets (.inr rfl) (.inr rfl) hn (by omega), if_neg (by omega)]
  | object hv h ih =>
    have hn := neutral_inside h (List.forall_mem_map.mpr fun m hm => Member.neutral (ih m hm))
    intro depth rest hd
    rw [skipJsonContainer_brackets (.inl rfl) (.inl rfl) hn (by omega), if_neg (by omega)]

theorem ne_of_isNumberByte {c d : UInt8} (hc : isNumberByte c = true) (hd : isNumberByte d = false) :
    c ≠ d := by
  rintro rfl
  rw [hc] at hd
  cases hd

theorem isAsciiWhitespace_of_isNumberByte {c : UInt8} (hc : isNumberByte c = true) :
    isAsciiWhitespace c = false := by
  have h : ∀ d, isNumberByte d = false → c ≠ d := fun d => ne_of_isNumberByte hc
  simp [isAsciiWhitespace, h 0x20 rfl, h 0x09 rfl, h 0x0A rfl, h 0x0C rfl, h 0x0D rfl]

theorem skipJsonContainer_entries {l r : UInt8} (hl : l = 0x7B ∨ l = 0x5B)
    (hr : r = 0x7D ∨ r = 0x5D) {inner : Bytes} (hn : Neutral inner) (rest : Bytes) :
    skipJsonValue (l :: inner ++ [r] ++ rest) = some rest := by
  have hws : isAsciiWhitespace l = false ∧ l ≠ 0x22 := by rcases hl with rfl | rfl <;> decide
  unfold skipJsonValue
  have hs := skipJsonContainer_brackets hl hr hn (Int.le_refl 0) rest
  rw [if_pos rfl] at hs
  simp only [List.cons_append] at hs ⊢
  rw [skipWs_cons hws.1]
  dsimp only
  rw [if_neg hws.2, if_pos hl, hs]

theorem first_byte {v : Bytes} (h : JsonValue v) :
    ∃ c s, v = c :: s ∧ isAsciiWhitespace c = false ∧
      (c = 0x7B → ∃ (members : List Member) (inner : Bytes), (∀ m ∈ members, JsonValue m.value) ∧
        Inside (members.map Member.text) inner ∧ v = 0x7B :: inner ++ [0x7D]) := by
  cases h with
  | literal h =>
    unfold literals at h
    fin_cases h <;> exact ⟨_, _, rfl, rfl, fun h => absurd h (by decide)⟩
  | number h =>
    obtain ⟨hall, c, s, he, -⟩ := NumberText.bytes h
    have hnum : isNumberByte c = true := hall c (he ▸ List.mem_cons_self)
    exact ⟨c, s, he, isAsciiWhitespace_of_isNumberByte hnum,
      fun h => absurd h (ne_of_isNumberByte hnum rfl)⟩
  | string ps => exact ⟨_, _, rfl, rfl, fun h => absurd h (by decide)⟩
  | array hv h => exact ⟨_, _, rfl, rfl, fun h => absurd h (by decide)⟩
  | object hv h => exact ⟨_, _, rfl, rfl, fun _ => ⟨_, _, hv, h, rfl⟩⟩

/-- The skipper stops right behind a well formed value. -/
theorem skipJsonValue_value {v rest : Bytes} (h : JsonValue v)
    (hrest : ∀ c ∈ rest.head?, isNumberByte c = false) : skipJsonValue (v ++ rest) = some rest := by
  cases h with
  | literal h =>
    unfold literals at h
    fin_cases h <;> simp [skipJsonValue, skipWs, isAsciiWhitespace, skipLiteral]
  | number h =>
    obtain ⟨hall, c, s, he, hc⟩ := NumberText.bytes h
    rw [he] at hall ⊢
    have hnum := hall c List.mem_cons_self
    have hne : ∀ d, isNumberByte d = false → c ≠ d := fun d => ne_of_isNumberByte hnum
    have hopen : ¬ (c = 0x7B ∨ c = 0x5B) := not_or.mpr ⟨hne 0x7B rfl, hne 0x5B rfl⟩
    unfold skipJsonValue
    rw [List.cons_append, skipWs_cons (isAsciiWhitespace_of_isNumberByte hnum)]
    dsimp only
    rw [if_neg (hne 0x22 rfl), if_neg hopen, if_neg (hne 0x74 rfl), if_neg (hne 0x66 rfl),
      if_neg (hne 0x6E rfl), if_pos hc,
      List.dropWhile_append_of_pos fun b hb => hall b (List.mem_cons_of_mem c hb)]
    cases rest with
    | nil => rfl
    | cons d rest => rw [List.dropWhile_cons_of_neg (by simp [hrest d rfl])]
  | string ps =>
    have hs := scanJsonString_pieces ps [] rest
    unfold skipJsonValue quoted
    rw [List.append_assoc, List.cons_append, skipWs_cons rfl]
    dsimp only
    rw [if_pos rfl, List.singleton_append, hs]
    rfl
  | array hv h => exact skipJsonContainer_entries (.inr rfl) (.inr rfl) (neutral_inside h
      (List.forall_mem_map.mpr fun i hi => Item.neutral (JsonValue.neutral (hv i hi)))) rest
  | object hv h => exact skipJsonContainer_entries (.inl rfl) (.inl rfl) (neutral_inside h
      (List.forall_mem_map.mpr fun m hm => Member.neutral (JsonValue.neutral (hv m hm)))) rest

end Values

section Keys
variable {want : Bytes}

theorem head_not_number {w : Bytes} (hw : Blank w) {d : UInt8} (hd : isNumberByte d = false)
    (rest : Bytes) : ∀ c ∈ (w ++ d :: rest).head?, isNumberByte c = false := by
  intro c hc
  cases w with
  | nil =>
    cases hc
    exact hd
  | cons b w =>
    cases hc
    by_contra hn
    have hb := isAsciiWhitespace_of_isBlank (hw c List.mem_cons_self)
    rw [isAsciiWhitespace_of_isNumberByte (Bool.eq_true_of_not_eq_false hn)] at hb
    cases hb

/-- One round compares a member's key, escapes read, and goes on behind its value. -/
theorem scanKeys_member {m : Member} (hv : JsonValue m.value) {d : UInt8}
    (hd : d = 0x2C ∨ d = 0x7D) (rounds : Nat) (rest : Bytes) :
    scanKeys want (rounds + 1) (m.text ++ d :: rest) =
      if m.key.flatMap scanned = want then true
      else if d = 0x2C then scanKeys want rounds rest else false := by
  have hdws : isAsciiWhitespace d = false := by rcases hd with rfl | rfl <;> rfl
  have hdn : isNumberByte d = false := by rcases hd with rfl | rfl <;> rfl
  have hskip := skipJsonValue_value hv (head_not_number m.blank_after hdn rest)
  obtain ⟨c, s, hcs, hc, -⟩ := first_byte hv
  have hkey : skipWs (m.text ++ d :: rest) = 0x22 :: (m.key.flatMap Piece.text ++ 0x22 ::
      (m.afterKey ++ 0x3A :: (m.before ++ (m.value ++ (m.after ++ d :: rest))))) := by
    unfold Member.text Item.text quoted
    simp only [List.append_assoc, List.cons_append, List.nil_append]
    rw [skipWs_append m.blank_beforeKey, skipWs_cons rfl]
  have hvalue : skipWs (m.before ++ (m.value ++ (m.after ++ d :: rest))) =
      m.value ++ (m.after ++ d :: rest) := by
    rw [skipWs_append m.blank_before, hcs, List.cons_append, skipWs_cons hc]
  rw [scanKeys, hkey]
  dsimp only
  rw [if_neg (not_not.mpr rfl), scanJsonString_pieces]
  dsimp only
  rw [skipWs_append m.blank_afterKey, skipWs_cons rfl, List.head?_cons, if_neg (not_not.mpr rfl),
    List.nil_append, List.drop_one, List.tail_cons, hvalue, hskip]
  dsimp only
  rw [skipWs_append m.blank_after, skipWs_cons hdws, List.head?_cons, List.drop_one, List.tail_cons]
  simp only [Option.some.injEq]

theorem scanKeys_members {members : List Member} (hne : members ≠ [])
    (hv : ∀ m ∈ members, JsonValue m.value) {rounds : Nat} (hr : members.length ≤ rounds)
    (rest : Bytes) :
    scanKeys want rounds (commaJoined (members.map Member.text) ++ 0x7D :: rest) = true ↔
      ∃ m ∈ members, m.key.flatMap scanned = want := by
  induction members generalizing rounds with
  | nil => exact absurd rfl hne
  | cons m members ih =>
    obtain ⟨rounds, rfl⟩ : ∃ n, rounds = n + 1 := ⟨rounds - 1, by simp at hr; omega⟩
    have hm := hv m List.mem_cons_self
    cases members with
    | nil =>
      rw [List.map_singleton, commaJoined, scanKeys_member hm (.inr rfl)]
      simp
    | cons m' members =>
      have hrest := ih (List.cons_ne_nil m' members) (fun x hx => hv x (List.mem_cons_of_mem m hx))
        (show (m' :: members).length ≤ rounds by simpa using hr)
      rw [List.map_cons, List.map_cons, commaJoined, List.append_assoc, List.cons_append,
        scanKeys_member hm (.inl rfl), if_pos rfl, List.exists_mem_cons_iff, ← hrest]
      split
      next h => simp [h]
      next h => simp [h]

end Keys

theorem rawJsonHasId_object {i : Item} {members : List Member} {inner : Bytes}
    (hv : ∀ m ∈ members, JsonValue m.value) (hi : Inside (members.map Member.text) inner)
    (hval : i.value = 0x7B :: inner ++ [0x7D]) :
    rawJsonHasId i.text = true ↔ ∃ m ∈ members, decodedString m.key = idField := by
  have htrim : trimAscii i.text = 0x7B :: (inner ++ [0x7D]) := by
    have hcons : i.value = 0x7B :: (inner ++ [0x7D]) := hval
    rw [trimAscii_text i rfl hcons, List.rdropWhile_concat_neg _ _ _ (by decide)]
  have hscan : rawJsonHasId i.text = scanTopLevelHasKey (inner ++ [0x7D]) idField := by
    unfold rawJsonHasId
    rw [htrim]
    rfl
  rw [hscan, scanTopLevelHasKey]
  unfold Inside at hi
  split at hi
  next hnil =>
    have hnone : members = [] := List.map_eq_nil_iff.mp hnil
    have hskip : skipWs (inner ++ [0x7D]) = [0x7D] := by
      rw [skipWs_append hi, skipWs_cons rfl]
    rw [scanKeys, hskip, hnone]
    simp
  next hne =>
    have hrounds : members.length ≤ (inner ++ [0x7D]).length + 1 := by
      have hlen := length_le_commaJoined (members.map Member.text)
      rw [List.length_map, ← hi] at hlen
      simp only [List.length_append]
      omega
    rw [hi] at hrounds ⊢
    rw [scanKeys_members (fun h => hne (List.map_eq_nil_iff.mpr h)) hv hrounds]
    simp only [scanned_eq_iff _ (show idField.length < 4 by decide)]

/-- The byte scan finds a top-level `_id` in exactly the texts that parse to an object with it. -/
theorem rawJsonHasId_iff (payload : Bytes) (h : Parses payload) :
    rawJsonHasId payload = true ↔ ParsesWithKey idField payload := by
  constructor
  · intro hid
    obtain ⟨i, hv, rfl⟩ := h
    obtain ⟨c, s, hcs, hc, hobject⟩ := first_byte hv
    have hopen : c = 0x7B := by
      by_contra hne
      rw [rawJsonHasId, trimAscii_text i hc hcs] at hid
      simp [hne] at hid
    obtain ⟨members, inner, hmv, hi, hval⟩ := hobject hopen
    exact ⟨i, members, inner, hmv, hi, hval, rfl, (rawJsonHasId_object hmv hi hval).mp hid⟩
  · rintro ⟨i, members, inner, hmv, hi, hval, rfl, hkey⟩
    exact (rawJsonHasId_object hmv hi hval).mpr hkey

theorem blank_nil : Blank [] := fun _ hb => absurd hb List.not_mem_nil

def oneMember (key : List Piece) : Member where
  before := []
  value := [0x31]
  after := []
  blank_before := blank_nil
  blank_after := blank_nil
  beforeKey := []
  key := key
  afterKey := []
  blank_beforeKey := blank_nil
  blank_afterKey := blank_nil

def idMembers : List Member :=
  [oneMember [.plain 0x61 (by decide)],
    oneMember [.scalar ⟨[0x30, 0x30, 0x35, 0x66], rfl, by decide +kernel⟩ (by decide),
      .plain 0x69 (by decide), .plain 0x64 (by decide)]]

def idText : Item :=
  ⟨[0x20], 0x7B :: commaJoined (idMembers.map Member.text) ++ [0x7D], [],
    fun b hb => by simp_all [isBlank], blank_nil⟩

/-- The field stands behind another one, and its first letter is escaped. -/
theorem idText_found : rawJsonHasId idText.text = true := by
  have hnumber : NumberText [] [0x31] [] [] :=
    ⟨.inl rfl, ⟨⟨by simp, by simp [isDigit]⟩, .inl rfl⟩, .inl rfl, .inl rfl⟩
  have hvalue : ∀ m ∈ idMembers, JsonValue m.value := by
    intro m hm
    rcases List.mem_cons.mp hm with rfl | hm
    · exact .number hnumber
    · cases List.mem_singleton.mp hm
      exact .number hnumber
  have hinside : Inside (idMembers.map Member.text) (commaJoined (idMembers.map Member.text)) := rfl
  exact (rawJsonHasId_iff idText.text ⟨idText, .object hvalue hinside, rfl⟩).mpr
    ⟨idText, idMembers, _, hvalue, hinside, rfl, rfl, _,
      List.mem_cons_of_mem _ (List.mem_singleton_self _), rfl⟩

end ZydecoDb
