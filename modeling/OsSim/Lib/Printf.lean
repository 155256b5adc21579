import Mathlib.Data.Int.Notation
import Mathlib.Data.List.Basic

/-!
# Printing numbers and lines

Texts that are printed with `%d`, `%0wd`, `%0wx` and ends of lines can be read
in one way only: a number is determined by its digits, a field by the separator
behind it, and a line by its end.

Results:
* `padded_inj`, `decimal_inj`: numbers.
* `append_sep_inj`: fields.
* `lines_inj`, `existsUnique_lines`, `hasLine_lines`: lines.
-/

namespace OsSim.Printf

/-! ## Numbers -/

/-- `%0wd` and `%0wx`, in base `b`, of a number that is not negative. -/
def padded (b w n : ℕ) : List Char := (Nat.toDigits b n).leftpad w '0'

/-- `%d`. -/
def decimal (v : ℤ) : List Char :=
  if v < 0 then '-' :: Nat.toDigits 10 v.natAbs else Nat.toDigits 10 v.natAbs

/-- What a digit stands for. -/
def digitVal (c : Char) : ℕ := if c.toNat < 58 then c.toNat - 48 else c.toNat - 87

/-- What digits in base `b` stand for. -/
def value (b : ℕ) (digits : List Char) : ℕ := digits.foldl (fun v c => b * v + digitVal c) 0

theorem digitVal_digitChar : ∀ d < 16, digitVal (Nat.digitChar d) = d := by decide

variable {b : ℕ} (hb : 1 < b) (hb' : b ≤ 16)
include hb hb'

theorem value_toDigits (n : ℕ) : value b (Nat.toDigits b n) = n := by
  induction n using Nat.base_induction b hb with
  | single n hn =>
    rw [Nat.toDigits_of_lt_base hn]
    simpa [value] using digitVal_digitChar n (by omega)
  | digit n k hk hn ih =>
    rw [← Nat.toDigits_append_toDigits hb hn hk, Nat.toDigits_of_lt_base hk, value,
      List.foldl_append]
    rw [value] at ih
    rw [ih, List.foldl_cons, List.foldl_nil, digitVal_digitChar k (by omega)]

theorem value_padded (w n : ℕ) : value b (padded b w n) = n := by
  have hzeros : ∀ m, (List.replicate m '0').foldl (fun v c => b * v + digitVal c) 0 = 0 := by
    intro m
    induction m with
    | zero => rfl
    | succ m ih => exact ih
  rw [value, padded, List.leftpad, List.foldl_append, hzeros]
  exact value_toDigits hb hb' n

theorem padded_inj {w m n : ℕ} (h : padded b w m = padded b w n) : m = n := by
  rw [← value_padded hb hb' w m, h, value_padded hb hb']

theorem mem_toDigits {n : ℕ} {c : Char} (hc : c ∈ Nat.toDigits b n) :
    ∃ d < 16, c = Nat.digitChar d := by
  induction n using Nat.base_induction b hb with
  | single n hn =>
    rw [Nat.toDigits_of_lt_base hn, List.mem_singleton] at hc
    exact ⟨n, by omega, hc⟩
  | digit n k hk hn ih =>
    rw [← Nat.toDigits_append_toDigits hb hn hk, Nat.toDigits_of_lt_base hk, List.mem_append,
      List.mem_singleton] at hc
    obtain hc | hc := hc
    · exact ih hc
    · exact ⟨k, by omega, hc⟩

theorem mem_padded {w n : ℕ} {c : Char} (hc : c ∈ padded b w n) :
    ∃ d < 16, c = Nat.digitChar d := by
  rw [padded, List.leftpad, List.mem_append, List.mem_replicate] at hc
  obtain ⟨-, rfl⟩ | hc := hc
  · exact ⟨0, by omega, rfl⟩
  · exact mem_toDigits hb hb' hc

/-- A character that is no digit does not occur in a number. -/
theorem not_mem_padded {c : Char} (hc : ∀ d < 16, c ≠ Nat.digitChar d) (w n : ℕ) :
    c ∉ padded b w n := by
  intro hmem
  obtain ⟨d, hd, heq⟩ := mem_padded hb hb' hmem
  exact hc d hd heq

omit hb hb'

theorem mem_decimal {v : ℤ} {c : Char} (hc : c ∈ decimal v) :
    c = '-' ∨ ∃ d < 16, c = Nat.digitChar d := by
  unfold decimal at hc
  split at hc
  · obtain hc | hc := List.mem_cons.mp hc
    · exact .inl hc
    · exact .inr (mem_toDigits (by decide) (by decide) hc)
  · exact .inr (mem_toDigits (by decide) (by decide) hc)

theorem not_mem_decimal {c : Char} (hm : c ≠ '-') (hc : ∀ d < 16, c ≠ Nat.digitChar d) (v : ℤ) :
    c ∉ decimal v := by
  intro hmem
  obtain heq | ⟨d, hd, heq⟩ := mem_decimal hmem
  · exact hm heq
  · exact hc d hd heq

theorem decimal_inj {v w : ℤ} (h : decimal v = decimal w) : v = w := by
  have hminus : ∀ n, '-' ∉ Nat.toDigits 10 n := by
    intro n hmem
    obtain ⟨d, hd, heq⟩ := mem_toDigits (by decide) (by decide) hmem
    revert heq
    revert d
    decide
  have hdigits : ∀ m n, Nat.toDigits 10 m = Nat.toDigits 10 n → m = n := by
    intro m n heq
    rw [← value_toDigits (b := 10) (by decide) (by decide) m, heq,
      value_toDigits (by decide) (by decide)]
  unfold decimal at h
  split at h <;> split at h
  · have := hdigits _ _ (List.cons_inj_right '-' |>.mp h)
    omega
  · exact absurd (h ▸ List.mem_cons_self) (hminus _)
  · exact absurd (h ▸ List.mem_cons_self) (hminus _)
  · have := hdigits _ _ h
    omega

/-! ## Fields and lines -/

/-- A field ends at the first separator. -/
theorem append_sep_inj {c : Char} {x y z w : List Char} (hx : c ∉ x) (hy : c ∉ y)
    (h : x ++ c :: z = y ++ c :: w) : x = y ∧ z = w := by
  induction x generalizing y with
  | nil =>
    cases y with
    | nil => exact ⟨rfl, List.cons_inj_right c |>.mp h⟩
    | cons d y =>
      obtain rfl := (List.cons.inj h).1
      exact absurd List.mem_cons_self hy
  | cons d x ih =>
    cases y with
    | nil =>
      obtain rfl := (List.cons.inj h).1
      exact absurd List.mem_cons_self hx
    | cons e y =>
      obtain ⟨rfl, htail⟩ := List.cons.inj h
      obtain ⟨rfl, rfl⟩ :=
        ih (List.not_mem_of_not_mem_cons hx) (List.not_mem_of_not_mem_cons hy) htail
      exact ⟨rfl, rfl⟩

/-- Lines, each with its end. -/
def lines (ls : List (List Char)) : List Char := ls.flatMap (· ++ ['\n'])

/-- The text consists of lines, and one of them is `l`. -/
def HasLine (l text : List Char) : Prop :=
  ∃ ls, text = lines ls ∧ (∀ l ∈ ls, '\n' ∉ l) ∧ l ∈ ls

theorem lines_inj {ls ls' : List (List Char)} (h : ∀ l ∈ ls, '\n' ∉ l) (h' : ∀ l ∈ ls', '\n' ∉ l)
    (heq : lines ls = lines ls') : ls = ls' := by
  induction ls generalizing ls' with
  | nil =>
    cases ls' with
    | nil => rfl
    | cons l ls' => simp [lines] at heq
  | cons l ls ih =>
    cases ls' with
    | nil => simp [lines] at heq
    | cons l' ls' =>
      simp only [lines, List.flatMap_cons, List.append_assoc, List.singleton_append] at heq
      obtain ⟨rfl, htail⟩ := append_sep_inj (h l List.mem_cons_self) (h' l' List.mem_cons_self) heq
      rw [ih (fun l hl => h l (List.mem_cons_of_mem _ hl))
        (fun l hl => h' l (List.mem_cons_of_mem _ hl)) htail]

/-- A text that is printed line by line can be cut into lines in one way only. -/
theorem existsUnique_lines {ls : List (List Char)} (h : ∀ l ∈ ls, '\n' ∉ l) :
    ∃! ls', (∀ l ∈ ls', '\n' ∉ l) ∧ lines ls' = lines ls :=
  ⟨ls, ⟨h, rfl⟩, fun _ h' => lines_inj h'.1 h h'.2⟩

theorem hasLine_lines {l : List Char} {ls : List (List Char)} (h : ∀ l ∈ ls, '\n' ∉ l) :
    HasLine l (lines ls) ↔ l ∈ ls := by
  constructor
  · rintro ⟨ls', heq, h', hl⟩
    rwa [lines_inj h h' heq]
  · exact fun hl => ⟨ls, rfl, h, hl⟩

end OsSim.Printf
