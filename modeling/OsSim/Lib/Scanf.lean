import Mathlib.Data.Int.Notation
import Mathlib.Data.List.Forall2

/-!
# Formatted input

What `fscanf` of the C standard does for the conversions `%s` and `%u` and for white
space in the format, in the C locale. A text is the list of its characters. A
conversion skips white space, reads the longest text that fits the conversion or
begins one that fits, and leaves the rest. If there is no character left, or if what has been
read does not fit, `fscanf` returns at once: the remaining conversions store nothing.

A reader sees a text as its words, which white space separates. A `%u` may stop inside of a
word and the next conversion goes on from there.

Results:
* `scanWord_cases`, `scanWord_of_words`: `%s` reads the next word.
* `scanInt_of_words`: `%u` reads the next word if it writes a number.
* `scanInts_of_words`: a format reads all its numbers if they come next.
-/

namespace OsSim.Scanf

/-! ## Conversions -/

/-- `isspace` in the C locale: a blank, or one of the five characters from 9 to 13. -/
def isSpace (c : Char) : Bool := c.toNat = 32 || (9 ≤ c.toNat && c.toNat ≤ 13)

def skipWhite (s : List Char) : List Char := s.dropWhile isSpace

/-- `%s`: the word and what is left, `none` at the end of the text. -/
def scanWord (s : List Char) : Option (List Char × List Char) :=
  match skipWhite s with
  | [] => none
  | c :: s => some ((c :: s).takeWhile (!isSpace ·), (c :: s).dropWhile (!isSpace ·))

/-- The optional sign of a number: whether it is a minus, and what is left. -/
def scanSign : List Char → Bool × List Char
  | '-' :: s => (true, s)
  | '+' :: s => (false, s)
  | s => (false, s)

/-- The number that digits write. -/
def decimal (digits : List Char) : ℕ := digits.foldl (fun v c => 10 * v + (c.toNat - 48)) 0

/-- `%u`: the number, `none` if there is none, and what is left. A sign without digits is read,
since it begins a number. -/
def scanInt (s : List Char) : Option ℤ × List Char :=
  let (neg, s) := scanSign (skipWhite s)
  let digits := s.takeWhile Char.isDigit
  let rest := s.dropWhile Char.isDigit
  if digits = [] then (none, rest)
  else (some (if neg then -(decimal digits : ℤ) else decimal digits), rest)

/-- The parts of a format that has no conversion but `%u`. -/
inductive Directive where
  | white
  | int

/-- `fscanf` with such a format: the numbers that are read, and what is left. -/
def scanInts : List Directive → List Char → List ℤ × List Char
  | [], s => ([], s)
  | .white :: fmt, s => scanInts fmt (skipWhite s)
  | .int :: fmt, s =>
    match scanInt s with
    | (none, s) => ([], s)
    | (some v, s) =>
      let (vs, s) := scanInts fmt s
      (v :: vs, s)

/-! ## Words -/

/-- The words of a text. -/
def words (s : List Char) : List (List Char) := (s.splitOnP isSpace).filter (· ≠ [])

/-- The words that write a number in decimal. -/
inductive Writes : List Char → ℤ → Prop
  | plain {digits} (hne : digits ≠ []) (h : ∀ c ∈ digits, c.isDigit) :
    Writes digits (decimal digits)
  | plus {digits} (hne : digits ≠ []) (h : ∀ c ∈ digits, c.isDigit) :
    Writes ('+' :: digits) (decimal digits)
  | minus {digits} (hne : digits ≠ []) (h : ∀ c ∈ digits, c.isDigit) :
    Writes ('-' :: digits) (-(decimal digits : ℤ))

theorem words_append_white (x : List Char) {c : Char} (hc : isSpace c) (y : List Char) :
    words (x ++ c :: y) = words x ++ words y := by
  rw [words, List.splitOnP_append_cons x y hc, List.filter_append]
  rfl

theorem words_cons_white {c : Char} (hc : isSpace c) (s : List Char) : words (c :: s) = words s :=
  words_append_white [] hc s

theorem words_skipWhite (s : List Char) : words (skipWhite s) = words s := by
  induction s with
  | nil => rfl
  | cons c s ih =>
    rw [skipWhite, List.dropWhile_cons]
    split_ifs with hc
    · rw [words_cons_white hc]
      exact ih
    · rfl

/-- What follows a word. -/
def Ends (s : List Char) : Prop := ∀ c ∈ s.head?, isSpace c

/-- The next word of a text without white space in front. -/
theorem words_append {w s : List Char} (hne : w ≠ []) (hw : ∀ c ∈ w, isSpace c = false)
    (hs : Ends s) : words (w ++ s) = w :: words s := by
  have hword : words w = [w] := by
    rw [words, List.splitOnP_eq_singleton hw]
    simp [hne]
  cases s with
  | nil => rw [List.append_nil, hword]; rfl
  | cons c s =>
    have hc : isSpace c := hs c rfl
    rw [words_append_white w hc, words_cons_white hc, hword, List.singleton_append]

theorem ends_dropWhile (s : List Char) : Ends (s.dropWhile (!isSpace ·)) := by
  intro c hc
  have := List.head?_dropWhile_not (!isSpace ·) s
  rw [hc] at this
  simpa using this

/-! ## What `%s` reads -/

/-- The next word stands behind the white space, if there is one. -/
theorem scanWord_cases (s : List Char) :
    (skipWhite s = [] ∧ scanWord s = none ∧ words s = []) ∨
      ∃ w rest, skipWhite s = w ++ rest ∧ Ends rest ∧ scanWord s = some (w, rest) ∧
        words s = w :: words rest := by
  rw [← words_skipWhite s]
  unfold scanWord
  cases hs : skipWhite s with
  | nil => exact .inl ⟨rfl, rfl, rfl⟩
  | cons c t =>
    have hc : isSpace c = false := by
      have := List.head?_dropWhile_not isSpace s
      rw [← skipWhite, hs] at this
      simpa using this
    have hne : (c :: t).takeWhile (!isSpace ·) ≠ [] := by simp [hc]
    have hword : ∀ a ∈ (c :: t).takeWhile (!isSpace ·), isSpace a = false := by
      intro a ha
      simpa using List.all_eq_true.mp List.all_takeWhile a ha
    have happ := List.takeWhile_append_dropWhile (p := (!isSpace ·)) (l := c :: t)
    refine .inr ⟨_, _, happ.symm, ends_dropWhile _, rfl, ?_⟩
    rw [← words_append hne hword (ends_dropWhile (c :: t)), happ]

theorem scanWord_of_words {s w : List Char} {ws : List (List Char)} (h : words s = w :: ws) :
    ∃ rest, skipWhite s = w ++ rest ∧ Ends rest ∧ scanWord s = some (w, rest) ∧
      words rest = ws := by
  obtain ⟨-, -, hwords⟩ | ⟨w', rest, hskip, hends, hscan, hwords⟩ := scanWord_cases s
  · rw [hwords] at h
    cases h
  · rw [hwords] at h
    cases h
    exact ⟨rest, hskip, hends, hscan, rfl⟩

/-! ## What `%u` reads -/

theorem not_isDigit_of_isSpace {c : Char} (h : isSpace c) : ¬ c.isDigit := by
  rw [Char.isDigit_iff_toNat]
  simp only [isSpace, Bool.or_eq_true, decide_eq_true_eq, Bool.and_eq_true] at h
  rintro ⟨h0, -⟩
  have hzero : '0'.toNat = 48 := rfl
  omega

theorem scanSign_digit {c : Char} (hc : c.isDigit) (s : List Char) :
    scanSign (c :: s) = (false, c :: s) := by
  unfold scanSign
  split
  · next heq =>
    cases heq
    exact absurd hc (by decide)
  · next heq =>
    cases heq
    exact absurd hc (by decide)
  · rfl

/-- The digits of a number that is followed by the end of a word. -/
theorem span_digits {digits rest : List Char} (h : ∀ c ∈ digits, c.isDigit) (hr : Ends rest) :
    (digits ++ rest).takeWhile Char.isDigit = digits ∧
      (digits ++ rest).dropWhile Char.isDigit = rest := by
  rw [List.takeWhile_append_of_pos h, List.dropWhile_append_of_pos h]
  cases rest with
  | nil => simp
  | cons c rest =>
    have hc := not_isDigit_of_isSpace (hr c rfl)
    simp [hc]

/-- `%u` on a word that writes a number. -/
theorem scanInt_writes {s w rest : List Char} {v : ℤ} (hw : Writes w v)
    (hs : skipWhite s = w ++ rest) (hr : Ends rest) : scanInt s = (some v, rest) := by
  unfold scanInt
  rw [hs]
  cases hw with
  | plain hne h =>
    obtain ⟨htake, hdrop⟩ := span_digits h hr
    obtain ⟨c, digits, rfl⟩ := List.exists_cons_of_ne_nil hne
    rw [List.cons_append, scanSign_digit (h c List.mem_cons_self), ← List.cons_append]
    simp only [htake, hdrop, if_neg hne]
    rfl
  | plus hne h =>
    obtain ⟨htake, hdrop⟩ := span_digits h hr
    simp only [List.cons_append, scanSign, htake, hdrop, if_neg hne]
    rfl
  | minus hne h =>
    obtain ⟨htake, hdrop⟩ := span_digits h hr
    simp only [List.cons_append, scanSign, htake, hdrop, if_neg hne]
    rfl

theorem scanInt_of_words {s w : List Char} {ws : List (List Char)} {v : ℤ}
    (h : words s = w :: ws) (hw : Writes w v) :
    ∃ rest, scanInt s = (some v, rest) ∧ words rest = ws := by
  obtain ⟨rest, hskip, hends, -, hrest⟩ := scanWord_of_words h
  exact ⟨rest, scanInt_writes hw hskip hends, hrest⟩

/-- At the end of a text nothing is read. -/
theorem scanInts_nil (fmt : List Directive) : scanInts fmt [] = ([], []) := by
  induction fmt with
  | nil => rfl
  | cons d fmt ih =>
    cases d with
    | white => exact ih
    | int => rfl

/-- The number of conversions of a format. -/
def conversions : List Directive → ℕ
  | [] => 0
  | .white :: fmt => conversions fmt
  | .int :: fmt => conversions fmt + 1

theorem scanInts_length_le (fmt : List Directive) (s : List Char) :
    (scanInts fmt s).1.length ≤ conversions fmt := by
  induction fmt generalizing s with
  | nil => exact Nat.le_refl 0
  | cons d fmt ih =>
    cases d with
    | white => exact ih (skipWhite s)
    | int =>
      rw [scanInts]
      rcases scanInt s with ⟨_ | v, rest⟩
      · exact Nat.zero_le _
      · exact Nat.succ_le_succ (ih rest)

/-- A format reads all its numbers if they are the next words. -/
theorem scanInts_of_words {fmt : List Directive} {s : List Char} {ns ws : List (List Char)}
    {vs : List ℤ} (h : words s = ns ++ ws) (hns : List.Forall₂ Writes ns vs)
    (hlen : vs.length = conversions fmt) :
    ∃ rest, scanInts fmt s = (vs, rest) ∧ words rest = ws := by
  induction fmt generalizing s ns vs with
  | nil =>
    obtain rfl := List.length_eq_zero_iff.mp hlen
    cases hns
    exact ⟨s, rfl, h⟩
  | cons d fmt ih =>
    cases d with
    | white => exact ih (by rw [words_skipWhite]; exact h) hns hlen
    | int =>
      cases hns with
      | nil => cases hlen
      | cons hw hns =>
        obtain ⟨rest, hscan, hrest⟩ := scanInt_of_words h hw
        obtain ⟨rest', hscan', hrest'⟩ := ih hrest hns (Nat.succ.inj hlen)
        refine ⟨rest', ?_, hrest'⟩
        rw [scanInts, hscan]
        simp only [hscan']

end OsSim.Scanf
