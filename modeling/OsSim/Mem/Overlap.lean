import OsSim.Mem.Parts

/-!
# Overlap validation

`validate_overlap_vm_area` (`src/mm-vm.c`, lines 569–594) for any list of areas
and any area of it. A pointer to an area is the list from that area on, and
`[]` is `NULL`.

**The test is always true.** `OVERLAP` decides by the sign of a product. Its last
two arguments are `unsigned long`, so the product is one too, and it is never
negative: every area but the named one counts as an overlap.

Results:
* `validateOverlapVmAreaOf_zero`: for the first area it is `validateOverlapVmArea`.
* `validate_eq_zero_iff`: the ranges that pass.
* `validationExact_iff`: when the validation is exact.
* `validationExact_of_run`: it is along every run, since a process has one area only.
-/

namespace OsSim.Mem

/-! ## The code -/

/-- The loop of `get_vma_by_num`; `left` is `vmaid - vmait`. -/
def getVmaLoop : ℕ → List VmArea → List VmArea
  | 0, pvma => pvma
  | _ + 1, [] => []
  | left + 1, _ :: vmNext => getVmaLoop left vmNext

/-- `get_vma_by_num` (lines 47–66). -/
def getVmaByNum (mmap : List VmArea) (vmaid : ℤ) : List VmArea := getVmaLoop vmaid.toNat mmap

/-- The loop of `validate_overlap_vm_area`. Two pointers into one list are equal if the lists from
there on have the same length. -/
def validateOverlapLoop (curArea : List VmArea) (vmastart vmaend : ℤ) : List VmArea → ℤ
  | [] => 0
  | vma :: vmNext =>
    if (vma :: vmNext).length ≠ curArea.length ∧
        overlap vmastart vmaend vma.vmStart vma.vmEnd = true then -1
    else validateOverlapLoop curArea vmastart vmaend vmNext

/-- `validate_overlap_vm_area` (lines 569–594) for any area. -/
def validateOverlapVmAreaOf (mmap : List VmArea) (vmaid vmastart vmaend : ℤ) : ℤ :=
  if vmastart ≥ vmaend then -1
  else
    let curArea := getVmaByNum mmap vmaid
    if curArea = [] then -1 else validateOverlapLoop curArea vmastart vmaend mmap

/-! ## What it is for -/

/-- The area has an address of the range from `vmastart` up to, not including, `vmaend`. -/
def VmArea.Shares (vma : VmArea) (vmastart vmaend : ℤ) : Prop :=
  ∃ a : ℤ, (vmastart ≤ a ∧ a < vmaend) ∧ vma.vmStart ≤ a ∧ a < vma.vmEnd

/-- The areas of the list other than number `vmaid`. -/
def otherAreas (mmap : List VmArea) (vmaid : ℤ) : List VmArea := mmap.eraseIdx vmaid.toNat

/-- A range passes exactly if it is not empty and has no address in common with another area. -/
def ValidationExact (mmap : List VmArea) (vmaid vmastart vmaend : ℤ) : Prop :=
  validateOverlapVmAreaOf mmap vmaid vmastart vmaend = 0 ↔
    vmastart < vmaend ∧ ∀ vma ∈ otherAreas mmap vmaid, ¬ vma.Shares vmastart vmaend

/-! ## The loops -/

theorem getVmaByNum_eq (mmap : List VmArea) (vmaid : ℤ) :
    getVmaByNum mmap vmaid = mmap.drop vmaid.toNat := by
  unfold getVmaByNum
  generalize vmaid.toNat = left
  induction left generalizing mmap with
  | zero => rfl
  | succ left ih =>
    cases mmap with
    | nil => rfl
    | cons vma vmNext => exact ih vmNext

section

variable (vmastart vmaend : ℤ)

/-- At another area the loop tests it and goes on. -/
theorem validateOverlapLoop_other {curArea : List VmArea} {vma : VmArea} {vmNext : List VmArea}
    (h : (vma :: vmNext).length ≠ curArea.length) :
    validateOverlapLoop curArea vmastart vmaend (vma :: vmNext) =
      if overlap vmastart vmaend vma.vmStart vma.vmEnd then -1
      else validateOverlapLoop curArea vmastart vmaend vmNext := by
  rw [validateOverlapLoop]
  simp only [h, ne_eq, not_false_eq_true, true_and]

/-- Behind the named area every area is another one. -/
theorem validateOverlapLoop_behind {curArea mmap : List VmArea}
    (h : mmap.length < curArea.length) :
    validateOverlapLoop curArea vmastart vmaend mmap =
      if mmap.any fun vma => overlap vmastart vmaend vma.vmStart vma.vmEnd then -1 else 0 := by
  induction mmap with
  | nil => rfl
  | cons vma vmNext ih =>
    rw [validateOverlapLoop_other _ _ h.ne, List.any_cons, ih (lt_trans (by simp) h)]
    cases overlap vmastart vmaend vma.vmStart vma.vmEnd <;> rfl

/-- The loop tests every area but the named one. -/
theorem validateOverlapLoop_eq (mmap : List VmArea) (num : ℕ) :
    validateOverlapLoop (mmap.drop num) vmastart vmaend mmap =
      if (mmap.eraseIdx num).any fun vma => overlap vmastart vmaend vma.vmStart vma.vmEnd
      then -1 else 0 := by
  induction mmap generalizing num with
  | nil => rfl
  | cons vma vmNext ih =>
    cases num with
    | zero =>
      rw [List.drop_zero, validateOverlapLoop, if_neg (fun h => h.1 rfl), List.eraseIdx_cons_zero]
      exact validateOverlapLoop_behind vmastart vmaend (by simp)
    | succ num =>
      have hne : (vma :: vmNext).length ≠ (vmNext.drop num).length := by
        rw [List.length_cons, List.length_drop]
        omega
      rw [List.drop_succ_cons, validateOverlapLoop_other _ _ hne, ih, List.eraseIdx_cons_succ,
        List.any_cons]
      cases overlap vmastart vmaend vma.vmStart vma.vmEnd <;> rfl

/-- For the first area it is the function that `inc_vma_limit` calls. -/
theorem validateOverlapVmAreaOf_zero (vma : VmArea) (vmNext : List VmArea) :
    validateOverlapVmAreaOf (vma :: vmNext) 0 vmastart vmaend =
      validateOverlapVmArea vmNext vmastart vmaend := by
  have hloop := validateOverlapLoop_eq vmastart vmaend (vma :: vmNext) 0
  rw [List.drop_zero, List.eraseIdx_cons_zero] at hloop
  rw [validateOverlapVmAreaOf, validateOverlapVmArea, getVmaByNum_eq, Int.toNat_zero,
    List.drop_zero]
  simp only [reduceCtorEq, if_false, hloop]

/-! ## What passes -/

/-- The product is an `unsigned long`. -/
theorem overlap_eq_true (vma : VmArea) : overlap vmastart vmaend vma.vmStart vma.vmEnd = true :=
  decide_eq_true (Nat.zero_le _)

variable {mmap : List VmArea} {vmaid : ℤ} (h0 : 0 ≤ vmaid) (h1 : vmaid < mmap.length)

include h0 h1

/-- A range passes exactly if it is not empty and the process has no other area. -/
theorem validate_eq_zero_iff :
    validateOverlapVmAreaOf mmap vmaid vmastart vmaend = 0 ↔
      vmastart < vmaend ∧ otherAreas mmap vmaid = [] := by
  have hcur : mmap.drop vmaid.toNat ≠ [] := by
    rw [ne_eq, List.drop_eq_nil_iff]
    omega
  rw [validateOverlapVmAreaOf, getVmaByNum_eq]
  simp only [hcur, if_false, validateOverlapLoop_eq, otherAreas]
  cases mmap.eraseIdx vmaid.toNat with
  | nil => split_ifs <;> simp_all
  | cons vma vmNext =>
    rw [List.any_cons, overlap_eq_true, Bool.true_or, if_pos rfl]
    split_ifs <;> simp

theorem otherAreas_eq_nil : otherAreas mmap vmaid = [] ↔ mmap.length = 1 := by
  rw [otherAreas, ← List.length_eq_zero_iff, List.length_eraseIdx, if_pos (by omega)]
  omega

/-- The validation is exact exactly if the range is empty, there is no other area, or another area
does have an address of the range. -/
theorem validationExact_iff : ValidationExact mmap vmaid vmastart vmaend ↔
    vmaend ≤ vmastart ∨ mmap.length = 1 ∨
      ∃ vma ∈ otherAreas mmap vmaid, vma.Shares vmastart vmaend := by
  rw [ValidationExact, validate_eq_zero_iff vmastart vmaend h0 h1, ← otherAreas_eq_nil h0 h1]
  by_cases hlt : vmastart < vmaend
  · by_cases hnil : otherAreas mmap vmaid = []
    · simp [hnil]
    · simp only [hlt, hnil, and_false, true_and, false_iff, not_forall, not_le.mpr hlt, false_or,
        exists_prop, not_not]
  · simp [hlt, not_lt.mp hlt]

end

/-- The space of a new process, and the first page. -/
theorem validationExact_single : ValidationExact [⟨0, 0, 0, [], false⟩] 0 0 256 :=
  (validationExact_iff 0 256 le_rfl (by decide)).mpr (.inr (.inl rfl))

/-- An area that is far away counts as an overlap. -/
theorem not_validationExact_far :
    ¬ ValidationExact [⟨0, 0, 0, [], false⟩, ⟨1024, 2048, 1024, [], false⟩] 0 0 256 := by
  rw [ValidationExact, validate_eq_zero_iff 0 256 le_rfl (by decide)]
  intro h
  have hapart : ∀ vma ∈ otherAreas [⟨0, 0, 0, [], false⟩, ⟨1024, 2048, 1024, [], false⟩] 0,
      ¬ vma.Shares 0 256 := by
    intro vma hvma
    obtain rfl := List.mem_singleton.mp hvma
    rintro ⟨a, ⟨-, hlt⟩, hle, -⟩
    exact absurd (lt_of_le_of_lt hle hlt) (by decide)
  exact absurd (h.mpr ⟨by decide, hapart⟩).2 (by decide)

/-- Along every run the validation is exact for the only area that a process has. -/
theorem validationExact_of_run {ι : Type*} [DecidableEq ι] {b : Build} {c : Config ι}
    {tr : List (Label ι)} {s : System ι} (h : (buildLts b c).Run tr s) (p : ι)
    (vmastart vmaend : ℤ) :
    ValidationExact ((s.mm p).mmap :: (s.mm p).vmNext) 0 vmastart vmaend := by
  rw [(allSpaceInv_of_buildRun h p).vmNext, ValidationExact,
    validate_eq_zero_iff vmastart vmaend le_rfl (by simp)]
  simp [otherAreas]

end OsSim.Mem
