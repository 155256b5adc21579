import OsSim.Lib.Lts
import OsSim.Mem.Instr
import Mathlib.Data.Fintype.Basic

/-!
# Runs of the memory system

Any number of processes execute their instructions one whole instruction at a
time, in any order, on shared devices and a shared TLB. `Config` is what `main`
and the loader set up; a label of a run records the process, the instruction,
the uninitialised frame numbers that it may read, and its outcome.

Results:
* `sbrk_of_not_breakOk`: an `ALLOC` that is not `BreakOk` takes the break beyond
  `2^22`, so runs in which every break stays within `2^22` are those whose
  `ALLOC`s are `BreakOk`.
* `run_of_runAll`, `exists_run_of_runAll`: executing labels gives a run.
-/

namespace OsSim.Mem

variable {ι : Type*} [DecidableEq ι]

/-! ## Configurations -/

/-- The sizes of the devices, the TLB and the pids of the processes. -/
structure Config (ι : Type*) where
  ramSz : ℤ
  swpSz : Fin pagingMaxMmswp → ℤ
  tlbEntries : List TlbEntry
  rand : ℕ → ℕ
  pid : ι → BitVec 32
  entries_ne : tlbEntries ≠ []
  entries_invalid : ∀ e ∈ tlbEntries, ¬ e.Valid
  pid_lt : ∀ p, (pid p).toNat < 2 ^ 31
  pid_inj : Function.Injective pid

/-- The devices that `main` initialises, and `init_mm` for every process, on zeroed memory. -/
def Config.init (c : Config ι) : System ι where
  mram := initMemphy Memphy.zero [] c.ramSz 1
  mswp i := initMemphy Memphy.zero [] (c.swpSz i) 1
  tlb := ⟨c.tlbEntries, c.rand⟩
  pid := c.pid
  mm _ := initMm Mm.zero

/-- An instruction that a process executes, and its outcome. -/
structure Label (ι : Type*) where
  proc : ι
  ins : Inst
  raw : List ℤ := []
  out : Outcome

/-- The memory system: a step is one whole instruction of one process. -/
def memLts (c : Config ι) : Lts (System ι) (Label ι) where
  init s := s = c.init
  step s a s' := run s a.proc a.ins a.raw = .ok (a.out, s')

/-- The same for either build. -/
def buildLts (b : Build) (c : Config ι) : Lts (System ι) (Label ι) where
  init s := s = c.init
  step s a s' := b.run s a.proc a.ins a.raw = .ok (a.out, s')

/-- `ALLOC`s ask for 1 to `2^22` bytes, and every break stays within `2^22`. -/
def BreaksOk (_ : System ι) (a : Label ι) (s' : System ι) : Prop :=
  (a.ins.opcode = .ALLOC → 1 ≤ a.ins.arg0.toNat ∧ a.ins.arg0.toNat ≤ 2 ^ 22) ∧
    ∀ p, (s'.mm p).mmap.sbrk ≤ 2 ^ 22

omit [DecidableEq ι] in
instance [Fintype ι] (s : System ι) (a : Label ι) (s' : System ι) : Decidable (BreaksOk s a s') :=
  inferInstanceAs (Decidable (_ ∧ _))

/-- `ALLOC`s ask for 1 to `2^22` bytes. -/
def SizesOk (_ : System ι) (a : Label ι) (_ : System ι) : Prop :=
  a.ins.opcode = .ALLOC → 1 ≤ a.ins.arg0.toNat ∧ a.ins.arg0.toNat ≤ 2 ^ 22

omit [DecidableEq ι] in
instance (s : System ι) (a : Label ι) (s' : System ι) : Decidable (SizesOk s a s') :=
  inferInstanceAs (Decidable (_ → _))

/-- Executing the labels of a run one after the other; `none` if an outcome is not the one of the
label, or a step does not meet `ok`. -/
def runAll (ok : System ι → Label ι → System ι → Bool) :
    System ι → List (Label ι) → Option (System ι)
  | s, [] => some s
  | s, a :: tr =>
    match run s a.proc a.ins a.raw with
    | .error _ => none
    | .ok (o, s') => if o = a.out ∧ ok s a s' = true then runAll ok s' tr else none

theorem path_of_runAll {c : Config ι} {ok : System ι → Label ι → System ι → Bool}
    {tr : List (Label ι)} {s t : System ι} (h : runAll ok s tr = some t) :
    ((memLts c).guard fun s a s' => ok s a s' = true).Path s tr t := by
  induction tr generalizing s with
  | nil =>
    cases h
    exact .nil
  | cons a tr ih =>
    unfold runAll at h
    split at h
    · cases h
    · next o s' hrun =>
      split_ifs at h with hok
      refine .cons ⟨?_, hok.2⟩ (ih h)
      change run s a.proc a.ins a.raw = .ok (a.out, s')
      rw [← hok.1]
      exact hrun

/-- A run that has been executed. -/
theorem run_of_runAll {c : Config ι} {P : System ι → Label ι → System ι → Prop}
    {ok : System ι → Label ι → System ι → Bool} (hok : ∀ s a s', ok s a s' = true → P s a s')
    {tr : List (Label ι)} {t : System ι} (h : runAll ok c.init tr = some t) :
    ((memLts c).guard P).Run tr t :=
  Lts.Run.guard_mono hok ⟨c.init, rfl, path_of_runAll h⟩

/-- A run that has been executed and whose last state passes a test. -/
theorem exists_run_of_runAll (c : Config ι) (P : System ι → Label ι → System ι → Prop)
    [∀ s a s', Decidable (P s a s')] (tr : List (Label ι)) (test : System ι → Bool)
    (h : (runAll (fun s a s' => decide (P s a s')) c.init tr).any test = true) :
    ∃ s, ((memLts c).guard P).Run tr s ∧ test s = true := by
  obtain ⟨s, hs, htest⟩ := (Option.any_eq_true _ _).mp h
  exact ⟨s, run_of_runAll (fun _ _ _ => of_decide_eq_true) hs, htest⟩

/-! ## A configuration with two processes -/

theorem not_valid_zero : ¬ TlbEntry.Valid 0 := by
  unfold TlbEntry.Valid
  decide

/-- Two processes with a RAM of `ramSz` bytes, one swap device of `swpSz` bytes, and a TLB of
`CPUTLB_FIXED_TLBSZ` bytes. -/
def Config.two (ramSz swpSz : ℤ) : Config (Fin 2) where
  ramSz := ramSz
  swpSz i := if i = 0 then swpSz else 0
  tlbEntries := List.replicate 8192 0
  rand _ := 0
  pid p := BitVec.ofNat 32 (p + 1)
  entries_ne := List.ne_nil_of_length_pos (by rw [List.length_replicate]; norm_num)
  entries_invalid _ he := List.eq_of_mem_replicate he ▸ not_valid_zero
  pid_lt := by decide
  pid_inj := by
    unfold Function.Injective
    decide

/-! ## The break after an `ALLOC` -/

/-- An `ALLOC` that is not `BreakOk` takes the break beyond `2^22`. -/
theorem sbrk_of_not_breakOk {s s' : System ι} {p : ι} {ins : Inst} {raw : List ℤ} {o : Outcome}
    (h : ProcOk s p) (hop : ins.opcode = .ALLOC) (hn1 : 1 ≤ ins.arg0.toNat)
    (hn : ins.arg0.toNat ≤ 2 ^ 22) (hbrk : ¬ BreakOk (s.mm p) ins.arg0.toNat)
    (hrun : run s p ins raw = .ok (o, s')) : 2 ^ 22 < (s'.mm p).mmap.sbrk := by
  obtain ⟨hno, hgt⟩ := not_or.mp hbrk
  replace hno : ¬ Fitting (s.mm p) (argInt ins.arg0) := by
    rw [argInt_eq (show ins.arg0.toNat < 2 ^ 31 by omega), fitting_iff h.mm.spaceInv (by omega)]
    exact hno
  have hbound := h.mm.bound
  have hsz := alignedSize_le hn
  cases executed_of_run hrun with
  | alloc _ hid _ hr =>
    obtain ⟨ret, addr, s1, mm, hspace, hpaged, -⟩ := tlballoc_space h.mm.spaceInv hid hr
    rw [hpaged.space.mmap, System.setMm_self]
    have hsize : argInt ins.arg0 = ins.arg0.toNat := argInt_eq (by omega)
    cases hspace with
    | reused hfit => exact absurd hfit hno
    | reuseFailed hfit => exact absurd hfit hno
    | @raised n hn' =>
      obtain rfl : ins.arg0.toNat = n := by exact_mod_cast hsize.symm.trans hn'
      exact not_le.mp hgt
    | @raiseFailed n hn' =>
      obtain rfl : ins.arg0.toNat = n := by exact_mod_cast hsize.symm.trans hn'
      exact not_le.mp hgt
    | refused _ hge =>
      have := hge _ hsize hn1
      omega
  | compute hop' | free hop' | read hop' | write hop' =>
    rw [hop] at hop'
    cases hop'

end OsSim.Mem
