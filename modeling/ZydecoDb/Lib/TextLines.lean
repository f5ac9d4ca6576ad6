import ZydecoDb.Lib.ByteOrder
import Mathlib.Tactic.Ring

namespace Lib

def newline : UInt8 := 10
def space : UInt8 := 32

def isSpace (b : UInt8) : Bool := b = space || (9 ≤ b && b ≤ 13)

def wordsFrom : Bytes → Bytes → List Bytes
  | word, [] => if word = [] then [] else [word]
  | word, b :: rest =>
    if isSpace b then if word = [] then wordsFrom [] rest else word :: wordsFrom [] rest
    else wordsFrom (word ++ [b]) rest

def words (t : Bytes) : List Bytes := wordsFrom [] t

theorem wordsFrom_append {w : Bytes} (hw : ∀ b ∈ w, isSpace b = false) (word rest : Bytes) :
    wordsFrom word (w ++ rest) = wordsFrom (word ++ w) rest := by
  induction w generalizing word with
  | nil => rw [List.nil_append, List.append_nil]
  | cons b w ih =>
    have hb := hw b List.mem_cons_self
    rw [List.cons_append, wordsFrom, hb, if_neg (by decide),
      ih (fun c hc => hw c (List.mem_cons_of_mem b hc)), List.append_assoc, List.singleton_append]

theorem words_cons {w : Bytes} (hw : ∀ b ∈ w, isSpace b = false) (hne : w ≠ []) (rest : Bytes) :
    words (w ++ space :: rest) = w :: words rest := by
  rw [words, wordsFrom_append hw, List.nil_append, wordsFrom, if_pos (by decide), if_neg hne]
  rfl

theorem words_single {w : Bytes} (hw : ∀ b ∈ w, isSpace b = false) (hne : w ≠ []) :
    words w = [w] := by
  have h := wordsFrom_append hw [] []
  rw [List.append_nil, List.nil_append, wordsFrom, if_neg hne] at h
  exact h

theorem words_append_word {t w : Bytes} (ht : ∀ b ∈ t.head?, isSpace b = false)
    (hw : ∀ b ∈ w, isSpace b = false) (hne : w ≠ []) (rest : Bytes) :
    ∃ ws v, words (t ++ (w ++ space :: rest)) = ws ++ (v ++ w) :: words rest ∧
      (ws = [] → v = t) := by
  -- read from the middle of a word, the text may also begin with white space
  have h : ∀ (t word : Bytes), ∃ ws v,
      wordsFrom word (t ++ (w ++ space :: rest)) = ws ++ (v ++ w) :: words rest ∧
        (ws = [] → v = word ++ t ∨ word = [] ∧ ∃ b ∈ t.head?, isSpace b = true) := by
    intro t
    induction t with
    | nil =>
      intro word
      have hword : word ++ w ≠ [] := fun h => hne (List.append_eq_nil_iff.mp h).2
      refine ⟨[], word, ?_, fun _ => Or.inl (List.append_nil word).symm⟩
      rw [List.nil_append, wordsFrom_append hw, wordsFrom, if_pos (by decide), if_neg hword]
      rfl
    | cons b t ih =>
      intro word
      rw [List.cons_append, wordsFrom]
      split
      next hb =>
        split
        next =>
          obtain ⟨ws, v, hwords, -⟩ := ih []
          exact ⟨ws, v, hwords, fun _ => Or.inr ⟨‹_›, b, rfl, hb⟩⟩
        next =>
          obtain ⟨ws, v, hwords, -⟩ := ih []
          exact ⟨word :: ws, v, by rw [hwords, List.cons_append], fun h => by cases h⟩
      next hb =>
        obtain ⟨ws, v, hwords, hv⟩ := ih (word ++ [b])
        refine ⟨ws, v, hwords, fun hws => ?_⟩
        rcases hv hws with hv | ⟨hnil, -⟩
        · exact Or.inl (by rw [hv, List.append_assoc, List.singleton_append])
        · exact absurd hnil (by simp)
  obtain ⟨ws, v, hwords, hv⟩ := h t []
  refine ⟨ws, v, hwords, fun hws => ?_⟩
  rcases hv hws with hv | ⟨-, b, hb, hspace⟩
  · exact hv
  · rw [ht b hb] at hspace
    cases hspace

def unlines (ls : List Bytes) (tail : Bytes) : Bytes := ls.flatMap (· ++ [newline]) ++ tail

theorem splitOn_append_cons {sep : UInt8} {l : Bytes} (hl : sep ∉ l) (rest : Bytes) :
    (l ++ sep :: rest).splitOn sep = l :: rest.splitOn sep :=
  List.splitOn_append_cons_of_forall_mem_beq_eq_false (fun b hb => by
    have hne : b ≠ sep := fun h => hl (h ▸ hb)
    simpa using hne) sep (beq_self_eq_true sep) rest

theorem splitOn_unlines {ls : List Bytes} {tail : Bytes} (hls : ∀ l ∈ ls, newline ∉ l)
    (ht : newline ∉ tail) : (unlines ls tail).splitOn newline = ls ++ [tail] := by
  induction ls with
  | nil =>
    rw [unlines, List.flatMap_nil, List.nil_append, List.nil_append]
    exact List.splitOn_eq_singleton ht
  | cons l ls ih =>
    have hrest := ih fun m hm => hls m (List.mem_cons_of_mem l hm)
    have hl := hls l List.mem_cons_self
    rw [unlines] at hrest
    rw [unlines, List.flatMap_cons, List.append_assoc, List.append_assoc, List.singleton_append,
      splitOn_append_cons hl, hrest, List.cons_append]

def decimalDigits : Nat → Nat → Bytes
  | 0, _ => []
  | f + 1, n =>
    if n < 10 then [UInt8.ofNat (48 + n)]
    else decimalDigits f (n / 10) ++ [UInt8.ofNat (48 + n % 10)]

def isDigit (b : UInt8) : Bool := 48 ≤ b && b ≤ 57

def digitsValue (ds : Bytes) : Nat := ds.foldl (fun n d => n * 10 + (d.toNat - 48)) 0

theorem digitsValue_concat (ds : Bytes) (d : UInt8) :
    digitsValue (ds ++ [d]) = digitsValue ds * 10 + (d.toNat - 48) := by
  simp [digitsValue]

theorem digitsValue_append (a b : Bytes) :
    digitsValue (a ++ b) = digitsValue a * 10 ^ b.length + digitsValue b := by
  induction b using List.reverseRecOn with
  | nil => rw [List.append_nil, List.length_nil, pow_zero, Nat.mul_one]; rfl
  | append_singleton b d ih =>
    rw [← List.append_assoc, digitsValue_concat, digitsValue_concat, ih, List.length_append,
      List.length_singleton, pow_succ]
    ring

theorem eq_zero_of_digitsValue {ds : Bytes} (hds : ∀ b ∈ ds, isDigit b = true)
    (h : digitsValue ds = 0) : ∀ b ∈ ds, b = 48 := by
  induction ds using List.reverseRecOn with
  | nil => simp
  | append_singleton ds d ih =>
    rw [digitsValue_concat] at h
    have hd := hds d (by simp)
    have hz : d.toNat ≤ 48 := by omega
    simp only [isDigit, Bool.and_eq_true, decide_eq_true_eq, UInt8.le_iff_toNat_le] at hd
    have heq : d = 48 := UInt8.toNat_inj.mp (Nat.le_antisymm hz hd.1)
    intro b hb
    rcases List.mem_append.mp hb with hb | hb
    · exact ih (fun c hc => hds c (List.mem_append_left _ hc)) (by omega) b hb
    · rw [List.mem_singleton.mp hb, heq]

theorem digitsValue_zeros {ds : Bytes} (h : ∀ b ∈ ds, b = 48) : digitsValue ds = 0 := by
  induction ds using List.reverseRecOn with
  | nil => rfl
  | append_singleton ds d ih =>
    have hd : d = 48 := h d (by simp)
    rw [digitsValue_concat, ih fun b hb => h b (List.mem_append_left _ hb), hd]
    rfl

theorem toNat_digit {d : Nat} (h : d < 10) : (UInt8.ofNat (48 + d)).toNat - 48 = d := by
  rw [UInt8.toNat_ofNat']
  omega

theorem isDigit_digit {d : Nat} (h : d < 10) : isDigit (UInt8.ofNat (48 + d)) = true := by
  interval_cases d <;> rfl

theorem digitsValue_decimalDigits {f n : Nat} (h : n < 10 ^ f) :
    digitsValue (decimalDigits f n) = n := by
  induction f generalizing n with
  | zero =>
    rw [pow_zero] at h
    rw [decimalDigits, digitsValue]
    exact (Nat.lt_one_iff.mp h).symm
  | succ f ih =>
    rw [decimalDigits]
    split
    next hn =>
      have hd := toNat_digit hn
      rw [digitsValue, List.foldl_cons, List.foldl_nil, hd, Nat.zero_mul, Nat.zero_add]
    next =>
      have hdiv : n / 10 < 10 ^ f := by
        rw [pow_succ] at h
        exact Nat.div_lt_of_lt_mul (by rw [Nat.mul_comm]; exact h)
      have hd := toNat_digit (Nat.mod_lt n (show 0 < 10 by decide))
      rw [digitsValue_concat, ih hdiv, hd]
      omega

theorem isDigit_decimalDigits {f n : Nat} : ∀ b ∈ decimalDigits f n, isDigit b = true := by
  induction f generalizing n with
  | zero => simp [decimalDigits]
  | succ f ih =>
    rw [decimalDigits]
    split
    next hn =>
      intro b hb
      rw [List.mem_singleton.mp hb]
      exact isDigit_digit hn
    next =>
      intro b hb
      rcases List.mem_append.mp hb with hb | hb
      · exact ih b hb
      · rw [List.mem_singleton.mp hb]
        exact isDigit_digit (Nat.mod_lt n (by decide))

theorem length_decimalDigits_le (f n : Nat) : (decimalDigits f n).length ≤ f := by
  induction f generalizing n with
  | zero => exact Nat.le_refl 0
  | succ f ih =>
    rw [decimalDigits]
    split
    next => exact Nat.succ_le_succ (Nat.zero_le f)
    next =>
      rw [List.length_append, List.length_singleton]
      exact Nat.succ_le_succ (ih _)

theorem decimalDigits_ne_nil (f n : Nat) : decimalDigits (f + 1) n ≠ [] := by
  rw [decimalDigits]
  split <;> simp

end Lib
