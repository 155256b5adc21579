import Mathlib.Tactic.Ring
import Mathlib.Data.Nat.Bitwise

/-!
# Bit fields of machine words

Words are `BitVec w`. A field is the range of bits `l … h`; it is read and
written with a mask and a shift, as the C macros `GENMASK`, `SETBIT`,
`CLRBIT`, `SETVAL` and `GETVAL` do.

Results:
* `getval_genmask_toNat`: reading the field `l … h` is `v / 2^l mod 2^(h+1-l)`.
* `getval_setval_toNat`: reading a field that has just been written gives the
  written value, truncated to the width of the field.
* `and_setval_of_disjoint`, `getval_setval_of_disjoint`: writing one field
  leaves every disjoint field as it was.
* `EqOn.setval`, `EqOn.setbit`, `EqOn.clrbit`: words that agree on some bits agree
  after a write on these and on the written ones.
-/

namespace OsSim.BitField

variable {w : ℕ}

/-- `GENMASK(h, l)`: ones at the positions `l … h`. -/
def genmask (w h l : ℕ) : BitVec w :=
  (BitVec.allOnes w <<< l) &&& (BitVec.allOnes w >>> (w - h - 1))

/-- `SETBIT(v, mask)`. -/
def setbit (v mask : BitVec w) : BitVec w := v ||| mask

/-- `CLRBIT(v, mask)`. -/
def clrbit (v mask : BitVec w) : BitVec w := v &&& ~~~mask

/-- `SETVAL(v, value, mask, offst)`. -/
def setval (v value mask : BitVec w) (offst : ℕ) : BitVec w :=
  (v &&& ~~~mask) ||| ((value <<< offst) &&& mask)

/-- `GETVAL(v, mask, offst)`. -/
def getval (v mask : BitVec w) (offst : ℕ) : BitVec w := (v &&& mask) >>> offst

theorem getLsbD_genmask {h : ℕ} (hw : h < w) (l i : ℕ) :
    (genmask w h l).getLsbD i = (decide (l ≤ i) && decide (i ≤ h)) := by
  simp only [genmask, BitVec.getLsbD_and, BitVec.getLsbD_shiftLeft, BitVec.getLsbD_ushiftRight,
    BitVec.getLsbD_allOnes]
  rw [Bool.eq_iff_iff]
  simp only [Bool.and_eq_true, Bool.not_eq_true', decide_eq_true_eq, decide_eq_false_iff_not]
  omega

/-! ## Flags -/

theorem and_setbit_self (v mask : BitVec w) : setbit v mask &&& mask = mask := by
  apply BitVec.eq_of_getLsbD_eq
  intro i _
  simp only [setbit, BitVec.getLsbD_and, BitVec.getLsbD_or]
  cases v.getLsbD i <;> cases mask.getLsbD i <;> rfl

theorem and_clrbit_self (v mask : BitVec w) : clrbit v mask &&& mask = 0#w := by
  apply BitVec.eq_of_getLsbD_eq
  intro i hi
  simp only [clrbit, BitVec.getLsbD_and, BitVec.getLsbD_not, BitVec.getLsbD_zero]
  cases v.getLsbD i <;> cases mask.getLsbD i <;> simp

/-- Two masks without a common bit. -/
theorem getLsbD_of_disjoint {m m' : BitVec w} (h : m &&& m' = 0#w) (i : ℕ) :
    (m.getLsbD i && m'.getLsbD i) = false := by
  rw [← BitVec.getLsbD_and, h, BitVec.getLsbD_zero]

theorem and_setbit_of_disjoint {m m' : BitVec w} (h : m &&& m' = 0#w) (v : BitVec w) :
    setbit v m &&& m' = v &&& m' := by
  apply BitVec.eq_of_getLsbD_eq
  intro i _
  have := getLsbD_of_disjoint h i
  simp only [setbit, BitVec.getLsbD_and, BitVec.getLsbD_or]
  revert this
  cases v.getLsbD i <;> cases m.getLsbD i <;> cases m'.getLsbD i <;> simp

theorem and_clrbit_of_disjoint {m m' : BitVec w} (h : m &&& m' = 0#w) (v : BitVec w) :
    clrbit v m &&& m' = v &&& m' := by
  apply BitVec.eq_of_getLsbD_eq
  intro i hi
  have := getLsbD_of_disjoint h i
  simp only [clrbit, BitVec.getLsbD_and, BitVec.getLsbD_not, hi, decide_true, Bool.true_and]
  revert this
  cases v.getLsbD i <;> cases m.getLsbD i <;> cases m'.getLsbD i <;> simp

/-! ## Fields -/

theorem and_setval_of_disjoint {m m' : BitVec w} (h : m &&& m' = 0#w) (v x : BitVec w)
    (o : ℕ) : setval v x m o &&& m' = v &&& m' := by
  apply BitVec.eq_of_getLsbD_eq
  intro i hi
  have := getLsbD_of_disjoint h i
  simp only [setval, BitVec.getLsbD_and, BitVec.getLsbD_or, BitVec.getLsbD_not, hi, decide_true,
    Bool.true_and]
  revert this
  cases v.getLsbD i <;> cases m.getLsbD i <;> cases m'.getLsbD i <;> simp

theorem getval_setval_of_disjoint {m m' : BitVec w} (h : m &&& m' = 0#w) (v x : BitVec w)
    (o o' : ℕ) : getval (setval v x m o) m' o' = getval v m' o' := by
  simp only [getval, and_setval_of_disjoint h]

/-! ## Words that agree on a mask -/

/-- The words have the same bits where the mask has ones. -/
def EqOn (m a b : BitVec w) : Prop := a &&& m = b &&& m

namespace EqOn

variable {m k a b : BitVec w}

theorem refl (m a : BitVec w) : EqOn m a a := rfl

theorem symm (h : EqOn m a b) : EqOn m b a := Eq.symm h

theorem zero (a b : BitVec w) : EqOn 0#w a b := by simp [EqOn]

theorem getval (h : EqOn m a b) (o : ℕ) : BitField.getval a m o = BitField.getval b m o := by
  rw [BitField.getval, h, ← BitField.getval]

/-- Fewer bits. -/
theorem mono (h : EqOn m a b) (hk : k &&& ~~~m = 0#w) : EqOn k a b := by
  have hsub : m &&& k = k := by
    apply BitVec.eq_of_getLsbD_eq
    intro i hi
    have := congrArg (fun v : BitVec w => v.getLsbD i) hk
    simp only [BitVec.getLsbD_and, BitVec.getLsbD_not, hi, decide_true, Bool.true_and,
      BitVec.getLsbD_zero] at this ⊢
    revert this
    cases m.getLsbD i <;> cases k.getLsbD i <;> simp
  rw [EqOn, ← hsub, ← BitVec.and_assoc, ← BitVec.and_assoc, h]

/-- Words agree on the bits that are written, and on the others as before. -/
theorem setval (h : EqOn (~~~m &&& k) a b) (x : BitVec w) (o : ℕ) :
    EqOn k (BitField.setval a x m o) (BitField.setval b x m o) := by
  have hor : ∀ v : BitVec w, BitField.setval v x m o &&& k =
      (v &&& (~~~m &&& k)) ||| (x <<< o &&& m &&& k) := by
    intro v
    apply BitVec.eq_of_getLsbD_eq
    intro i _
    simp only [BitField.setval, BitVec.getLsbD_and, BitVec.getLsbD_or]
    cases v.getLsbD i <;> cases m.getLsbD i <;> cases k.getLsbD i <;> simp
  rw [EqOn, hor, hor, h]

theorem clrbit (h : EqOn (~~~m &&& k) a b) :
    EqOn k (BitField.clrbit a m) (BitField.clrbit b m) := by
  rw [EqOn, BitField.clrbit, BitField.clrbit, BitVec.and_assoc, BitVec.and_assoc]
  exact h

theorem setbit (h : EqOn (~~~m &&& k) a b) :
    EqOn k (BitField.setbit a m) (BitField.setbit b m) := by
  have hor : ∀ v : BitVec w, BitField.setbit v m &&& k = (v &&& (~~~m &&& k)) ||| (m &&& k) := by
    intro v
    apply BitVec.eq_of_getLsbD_eq
    intro i hi
    simp only [BitField.setbit, BitVec.getLsbD_and, BitVec.getLsbD_or, BitVec.getLsbD_not, hi,
      decide_true, Bool.true_and]
    cases v.getLsbD i <;> cases m.getLsbD i <;> cases k.getLsbD i <;> simp
  rw [EqOn, hor, hor, h]

end EqOn

/-- Masking a shifted word: the field `l … h` of `x`, moved down to bit 0. -/
theorem getLsbD_getval {h : ℕ} (hw : h < w) (v : BitVec w) (l i : ℕ) :
    (getval v (genmask w h l) l).getLsbD i = (v.getLsbD (l + i) && decide (l + i ≤ h)) := by
  simp [getval, getLsbD_genmask hw]

theorem getval_genmask_toNat {h l : ℕ} (hw : h < w) (hl : l ≤ h) (v : BitVec w) :
    (getval v (genmask w h l) l).toNat = v.toNat / 2 ^ l % 2 ^ (h + 1 - l) := by
  apply Nat.eq_of_testBit_eq
  intro i
  have := getLsbD_getval hw v l i
  rw [BitVec.getLsbD, BitVec.getLsbD] at this
  rw [this, Nat.testBit_mod_two_pow, ← Nat.shiftRight_eq_div_pow, Nat.testBit_shiftRight]
  rw [Bool.and_comm]
  congr 1
  rw [decide_eq_decide]
  omega

/-- Reading back the field that has just been written. -/
theorem getval_setval_toNat {h l : ℕ} (hw : h < w) (hl : l ≤ h) (v x : BitVec w) :
    (getval (setval v x (genmask w h l) l) (genmask w h l) l).toNat =
      x.toNat % 2 ^ (h + 1 - l) := by
  apply Nat.eq_of_testBit_eq
  intro i
  have := getLsbD_getval hw (setval v x (genmask w h l) l) l i
  rw [BitVec.getLsbD] at this
  rw [this, Nat.testBit_mod_two_pow]
  change _ = (decide (i < h + 1 - l) && x.getLsbD i)
  by_cases hi : l + i ≤ h
  · have h1 : i < h + 1 - l := by omega
    have h2 : l + i < w := by omega
    have h3 : ¬ l + i < l := by omega
    simp only [setval, BitVec.getLsbD_or, BitVec.getLsbD_and, BitVec.getLsbD_not,
      BitVec.getLsbD_shiftLeft, getLsbD_genmask hw]
    simp [hi, h1, h2, h3]
  · have h1 : ¬ i < h + 1 - l := by omega
    simp [hi, h1]

end OsSim.BitField
