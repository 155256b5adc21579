import Mathlib.Data.Int.Notation
import Mathlib.Data.List.Induction
import Mathlib.Logic.Function.Basic
import Mathlib.Tactic.SplitIfs

/-!
# Copy loops

A memory is a function of the cell. Turn `i` of a copy loop reads the cell `src i`
and writes what it holds to the cell `dst i`. A turn may read a cell that an
earlier turn has written, so the loop copies what the memory held at its beginning
only if the cells that are written and the cells that are read are apart.

Results:
* `copyLoop_of_ne`: cells that no turn writes are as before.
* `Apart.copyLoop`: the cells that are written hold what was to be copied.
* `apart_block`: two aligned blocks are apart, also if they are the same block.
-/

namespace OsSim.CopyLoop

variable {ι A β : Type*} {src dst : ι → A} {turns : List ι}

/-- No turn writes what another one writes or reads. -/
structure Apart (src dst : ι → A) (turns : List ι) : Prop where
  write : ∀ i ∈ turns, ∀ j ∈ turns, dst i = dst j → i = j
  read : ∀ i ∈ turns, ∀ j ∈ turns, dst i = src j → i = j

theorem Apart.of_append {i : ι} (h : Apart src dst (turns ++ [i])) : Apart src dst turns where
  write j hj k hk := h.write j (List.mem_append_left [i] hj) k (List.mem_append_left [i] hk)
  read j hj k hk := h.read j (List.mem_append_left [i] hj) k (List.mem_append_left [i] hk)

/-- Blocks `p` and `q` of `n` cells, in two arrays or in the same. -/
theorem apart_block {D : Type*} (d e : D) (p q : ℤ) (n : ℕ) :
    Apart (fun i : ℕ => (d, p * n + i)) (fun i : ℕ => (e, q * n + i)) (List.range n) where
  write i _ j _ h := by
    have heq : q * n + i = q * n + j := congrArg Prod.snd h
    omega
  read i hi j hj h := by
    rw [List.mem_range] at hi hj
    have heq : q * n + i = p * n + j := congrArg Prod.snd h
    have hmod : (i : ℤ) % n = (j : ℤ) % n := by
      rw [← Int.mul_add_emod_self_right q n i, heq, Int.mul_add_emod_self_right]
    rw [Int.emod_eq_of_lt (by omega) (by omega), Int.emod_eq_of_lt (by omega) (by omega)] at hmod
    omega

variable [DecidableEq A]

/-- One turn of the loop. -/
def copyTurn (src dst : ι → A) (m : A → β) (i : ι) : A → β :=
  Function.update m (dst i) (m (src i))

/-- The turns of a list, one after the other. -/
def copyLoop (src dst : ι → A) (m : A → β) (turns : List ι) : A → β :=
  turns.foldl (copyTurn src dst) m

@[simp] theorem copyLoop_nil (m : A → β) : copyLoop src dst m [] = m := rfl

theorem copyLoop_cons (m : A → β) (i : ι) :
    copyLoop src dst m (i :: turns) = copyLoop src dst (copyTurn src dst m i) turns := rfl

theorem copyLoop_append (m : A → β) (i : ι) :
    copyLoop src dst m (turns ++ [i]) = copyTurn src dst (copyLoop src dst m turns) i := by
  rw [copyLoop, List.foldl_append]
  rfl

/-- Cells that no turn writes are as before. -/
theorem copyLoop_of_ne (m : A → β) {a : A} (h : ∀ i ∈ turns, dst i ≠ a) :
    copyLoop src dst m turns a = m a := by
  induction turns generalizing m with
  | nil => rfl
  | cons i turns ih =>
    have hturn : copyTurn src dst m i a = m a :=
      Function.update_of_ne (h i List.mem_cons_self).symm ..
    rw [← hturn]
    exact ih _ fun j hj => h j (List.mem_cons_of_mem i hj)

/-- The next turn reads what was there at the beginning: if its cell has been written, then with
the value that it had. -/
theorem copyLoop_src (m : A → β) {i : ι} (h : Apart src dst (turns ++ [i]))
    (hloop : ∀ j ∈ turns, copyLoop src dst m turns (dst j) = m (src j)) :
    copyLoop src dst m turns (src i) = m (src i) := by
  by_cases hw : ∃ j ∈ turns, dst j = src i
  · obtain ⟨j, hj, heq⟩ := hw
    have hji : j = i := h.read j (List.mem_append_left [i] hj) i (by simp) heq
    calc copyLoop src dst m turns (src i) = copyLoop src dst m turns (dst j) := by rw [heq]
      _ = m (src j) := hloop j hj
      _ = m (src i) := by rw [hji]
  · exact copyLoop_of_ne m fun j hj heq => hw ⟨j, hj, heq⟩

/-- The cells that are written hold what was to be copied. -/
theorem Apart.copyLoop (h : Apart src dst turns) (m : A → β) :
    ∀ i ∈ turns, CopyLoop.copyLoop src dst m turns (dst i) = m (src i) := by
  induction turns using List.reverseRecOn with
  | nil => intro i hi; cases hi
  | append_singleton turns j ih =>
    have hloop := ih h.of_append
    intro i hi
    rw [copyLoop_append, copyTurn, Function.update_apply]
    split_ifs with heq
    · rw [copyLoop_src m h hloop, h.write i hi j (by simp) heq]
    · obtain hi | hi := List.mem_append.mp hi
      · exact hloop i hi
      · rw [List.mem_singleton.mp hi] at heq
        exact absurd rfl heq

-- the loop is not to be unrolled by unification
attribute [irreducible] copyLoop

end OsSim.CopyLoop
