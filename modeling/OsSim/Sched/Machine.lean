import OsSim.Mem.Transparency
import OsSim.Sched.Dispatch

/-!
# The simulator executes the programs

The threads of `os.c` together with the memory system: when a CPU comes to `run(proc)`,
the instruction at `proc->pc` takes its step on the devices, the TLB and the page table of
the process (`src/cpu.c`, lines 50–104). Any number of CPUs interleave in any way, so the
instructions of the processes are mixed in an order that nobody can tell, and the pages
that they use are moved by each other's instructions.

A memory instruction is one step here, and no two of them overlap. In the source `tlballoc`,
`tlbfree_data` and `tlbwrite` take `tlb_lock`, but `tlbread` does not, so on several CPUs its
accesses may come between those of another instruction. The results do not cover this.

Specification: the meaning of a program alone, on a memory that has the bytes of its
regions and nothing else.

Results:
* `osRun_of_machine`, `memRun_of_machine`: both components take their own runs.
* `memTrace_ins`: the instructions that the memory system gets of one process are a prefix
  of its program.
* `meaning_of_run`: the bytes that a process reads are those that its program alone says.
-/

namespace OsSim.Sched

open Mem (Inst Byte)

/-! ## Specification: one program alone -/

/-- The bytes stored by region id and offset. -/
abbrev Flat := ℕ → ℕ → Option Byte

/-- `ALLOC` makes a new region, `WRITE` stores a byte. -/
def flatStep (m : Flat) (ins : Inst) : Flat := fun r off =>
  match ins.opcode with
  | .ALLOC => if r = ins.arg1.toNat then none else m r off
  | .WRITE =>
    if r = ins.arg1.toNat ∧ off = ins.arg2.toNat then some (ins.arg0.setWidth 8) else m r off
  | _ => m r off

/-- What the `READ`s of a program fetch, from the bytes `m` on; `none` where nothing has been
stored. -/
def meaningFrom (m : Flat) : List Inst → List (Option Byte)
  | [] => []
  | ins :: code =>
    (if ins.opcode = .READ then [m ins.arg0.toNat ins.arg1.toNat] else []) ++
      meaningFrom (flatStep m ins) code

/-- What the `READ`s of a program fetch. -/
def meaning (code : List Inst) : List (Option Byte) := meaningFrom (fun _ _ => none) code

def flat (code : List Inst) : Flat := code.foldl flatStep fun _ _ => none

theorem meaning_snoc (code : List Inst) (ins : Inst) :
    meaning (code ++ [ins]) = meaning code ++
      if ins.opcode = .READ then [flat code ins.arg0.toNat ins.arg1.toNat] else [] := by
  have hfrom : ∀ m, meaningFrom m (code ++ [ins]) = meaningFrom m code ++
      if ins.opcode = .READ then [code.foldl flatStep m ins.arg0.toNat ins.arg1.toNat]
      else [] := by
    induction code with
    | nil =>
      intro m
      simp [meaningFrom]
    | cons i code ih =>
      intro m
      rw [List.cons_append, meaningFrom, ih, meaningFrom, List.append_assoc, List.foldl_cons]
  exact hfrom _

theorem flat_snoc (code : List Inst) (ins : Inst) :
    flat (code ++ [ins]) = flatStep (flat code) ins := by
  rw [flat, List.foldl_append]
  rfl

/-! ## The machine -/

/-- The threads of `n` CPUs and of the loader, and the memory of `m` processes. -/
structure Machine (n m : ℕ) where
  os : State n
  mem : Mem.System (Fin m)

/-- A step of a thread that executes no instruction, or a whole instruction of a process on a
CPU. -/
inductive MachineLabel (n m : ℕ)
  | thread (e : Label n)
  | run (k : Fin n) (a : Mem.Label (Fin m))

/-- `run` executes an instruction. -/
def Label.executes {n : ℕ} : Label n → Bool
  | .cpu _ (.run _ (some _)) => true
  | _ => false

namespace MachineLabel

variable {n m : ℕ}

/-- The step of the threads. -/
def os : MachineLabel n m → Label n
  | .thread e => e
  | .run k a => .cpu k (.run a.proc (some a.ins))

/-- The instruction. -/
def mem : MachineLabel n m → Option (Mem.Label (Fin m))
  | .thread _ => none
  | .run _ a => some a

/-- A condition on the instructions. -/
def MemOk (ok : Mem.System (Fin m) → Mem.Label (Fin m) → Mem.System (Fin m) → Prop)
    (s : Machine n m) (l : MachineLabel n m) (s' : Machine n m) : Prop :=
  ∀ a, l.mem = some a → ok s.mem a s'.mem

end MachineLabel

/-- The state after a step, `none` where it is not possible. -/
def Machine.exec {n m : ℕ} (c : Config) (g : Grain) (s : Machine n m) :
    MachineLabel n m → Option (Machine n m)
  | .thread e => if e.executes then none else (s.os.exec c g e).map fun os => ⟨os, s.mem⟩
  | .run k a =>
    match s.os.exec c g (.cpu k (.run a.proc (some a.ins))) with
    | none => none
    | some os =>
      match Mem.run s.mem a.proc a.ins a.raw with
      | .error _ => none
      | .ok (o, mem) => if o = a.out then some ⟨os, mem⟩ else none

/-- The simulator on a configuration, with devices, a TLB and pids. -/
def machineLts (c : Config) (g : Grain) (mc : Mem.Config (Fin c.numProcesses)) :
    Lts (Machine c.numCpus c.numProcesses) (MachineLabel c.numCpus c.numProcesses) :=
  .ofFn ⟨.init c.numCpus, mc.init⟩ (Machine.exec c g)

/-! ## The two components -/

variable {n m : ℕ} {c : Config} {g : Grain} {mc : Mem.Config (Fin c.numProcesses)}

theorem Machine.exec_cases {s s' : Machine n m} {l : MachineLabel n m}
    (h : s.exec c g l = some s') :
    s.os.exec c g l.os = some s'.os ∧
      ((l.mem = none ∧ l.os.executes = false ∧ s'.mem = s.mem) ∨
        ∃ k a, l = .run k a ∧ Mem.run s.mem a.proc a.ins a.raw = .ok (a.out, s'.mem)) := by
  cases l with
  | thread e =>
    simp only [Machine.exec] at h
    split at h
    · cases h
    · rename_i he
      obtain ⟨os, hos, rfl⟩ := Option.map_eq_some_iff.mp h
      exact ⟨hos, .inl ⟨rfl, Bool.eq_false_iff.mpr he, rfl⟩⟩
  | run k a =>
    simp only [Machine.exec] at h
    split at h
    · cases h
    · rename_i os hos
      split at h
      · cases h
      · rename_i o mem hrun
        split at h
        · rename_i ho
          cases h
          exact ⟨hos, .inr ⟨k, a, rfl, ho ▸ hrun⟩⟩
        · cases h

/-- The instructions that the memory system gets. -/
def memTrace (tr : List (MachineLabel n m)) : List (Mem.Label (Fin m)) :=
  tr.filterMap MachineLabel.mem

theorem osRun_of_machine {tr : List (MachineLabel c.numCpus c.numProcesses)}
    {s : Machine c.numCpus c.numProcesses} (h : (machineLts c g mc).Run tr s) :
    (osLts c g).Run (tr.map MachineLabel.os) s.os := by
  refine h.history (I := fun tr s => (osLts c g).Run (tr.map MachineLabel.os) s.os) ?_ ?_
  · rintro s rfl
    exact .init rfl
  · intro tr s l s' ih hst
    rw [List.map_append]
    exact ih.step (Machine.exec_cases hst).1

theorem memRun_of_machine
    {ok : Mem.System (Fin c.numProcesses) → Mem.Label (Fin c.numProcesses) →
      Mem.System (Fin c.numProcesses) → Prop}
    {tr : List (MachineLabel c.numCpus c.numProcesses)} {s : Machine c.numCpus c.numProcesses}
    (h : ((machineLts c g mc).guard (MachineLabel.MemOk ok)).Run tr s) :
    ((Mem.memLts mc).guard ok).Run (memTrace tr) s.mem := by
  refine h.history (I := fun tr s => ((Mem.memLts mc).guard ok).Run (memTrace tr) s.mem) ?_ ?_
  · rintro s rfl
    exact .init rfl
  · rintro tr s l s' ih ⟨hst, hok⟩
    rw [memTrace, List.filterMap_append]
    obtain ⟨hl, -, hmem⟩ | ⟨k, a, rfl, hrun⟩ := (Machine.exec_cases hst).2
    · rw [List.filterMap_cons_none hl, List.filterMap_nil, List.append_nil, hmem]
      exact ih
    · exact Lts.Run.step (L := (Mem.memLts mc).guard ok) ih ⟨hrun, hok a rfl⟩

/-- The instructions of process `p`. -/
def insOf (p : Fin m) (tr : List (Mem.Label (Fin m))) : List Inst :=
  (tr.filter fun a => a.proc = p).map Mem.Label.ins

theorem executed_of_not_executes {e : Label n} (p : ℕ) (h : e.executes = false) :
    executed p [e] = [] := by
  cases e with
  | cpu k a =>
    cases a with
    | run q o =>
      cases o with
      | none => simp [executed]
      | some ins => cases h
    | _ => rfl
  | ld time a => rfl

/-- The memory system gets the instructions that the threads execute. -/
theorem executed_os {tr : List (MachineLabel c.numCpus c.numProcesses)}
    {s : Machine c.numCpus c.numProcesses} (h : (machineLts c g mc).Run tr s)
    (p : Fin c.numProcesses) : executed p (tr.map MachineLabel.os) = insOf p (memTrace tr) := by
  refine h.history (I := fun tr _ =>
    executed p (tr.map MachineLabel.os) = insOf p (memTrace tr)) (fun _ _ => rfl) ?_
  intro tr s l s' ih hst
  rw [List.map_append, memTrace, List.filterMap_append, insOf, List.filter_append, List.map_append]
  rw [executed, List.filterMap_append]
  refine congrArg₂ (· ++ ·) ih ?_
  obtain ⟨hl, he, -⟩ | ⟨k, a, rfl, -⟩ := (Machine.exec_cases hst).2
  · rw [List.filterMap_cons_none hl]
    exact executed_of_not_executes p he
  · by_cases hp : a.proc = p
    · simp [MachineLabel.os, MachineLabel.mem, hp]
    · have hne : ¬ (a.proc : ℕ) = p := fun h => hp (Fin.ext h)
      simp [MachineLabel.os, MachineLabel.mem, hp, hne]

/-- The instructions that the memory system has got of a process are the first `pc` of its
program. -/
theorem memTrace_ins {tr : List (MachineLabel c.numCpus c.numProcesses)}
    {s : Machine c.numCpus c.numProcesses} (h : (machineLts c g mc).Run tr s)
    (p : Fin c.numProcesses) : insOf p (memTrace tr) = (c.code p).take (s.os.pcb p).pc := by
  have hrun := osRun_of_machine h
  have hinv := inv_of_run hrun
  rw [← executed_os h, (history_of_run hrun).executed]
  by_cases hp : (p : ℕ) < s.os.ld.loaded c
  · rw [hinv.code_eq p hp]
  · rw [hinv.pc_eq p (by omega)]
    rfl

/-! ## What the processes read -/

/-- The bytes that process `p` has fetched, in order. -/
def fetched (p : Fin m) (tr : List (Mem.Label (Fin m))) : List (Option Byte) :=
  (tr.filter fun a => a.proc = p ∧ a.ins.opcode = .READ).map fun a => a.out.data

/-- A byte fetched is the one expected, where one is expected. -/
def Agrees (expected actual : Option Byte) : Prop := ∀ b, expected = some b → actual = some b

/-- As long as its instructions succeed, a process sees the memory of its program alone. -/
theorem lastStored_eq_flat {p : Fin m} {tr : List (Mem.Label (Fin m))}
    (hok : ∀ a ∈ tr, a.proc = p → a.out.stat = 0) :
    Mem.lastStored tr p = flat (insOf p tr) := by
  induction tr using List.reverseRecOn with
  | nil => rfl
  | append_singleton tr a ih =>
    specialize ih fun b hb => hok b (by simp [hb])
    funext r off
    have hold : Mem.lastStored tr p r off = flat (insOf p tr) r off := by rw [ih]
    rw [Mem.lastStored_snoc]
    by_cases hp : a.proc = p
    · have hstat : a.out.stat = 0 := hok a (by simp) hp
      have hins : insOf p (tr ++ [a]) = insOf p tr ++ [a.ins] := by simp [insOf, hp]
      rw [hins, flat_snoc]
      unfold Mem.storeStep flatStep
      cases a.ins.opcode
      all_goals simp only [hstat, hp, true_and, hold]
    · have hins : insOf p (tr ++ [a]) = insOf p tr := by simp [insOf, hp]
      rw [hins, ← hold]
      unfold Mem.storeStep
      simp only [Ne.symm hp, false_and, and_false, if_false]
      split
      all_goals rfl

/-- Where every `READ` fetches the byte stored last, each process reads what its program says. -/
theorem agrees_of_readsBack {p : Fin m} {tr : List (Mem.Label (Fin m))} (h : Mem.ReadsBack tr)
    (hok : ∀ a ∈ tr, a.proc = p → a.out.stat = 0) :
    List.Forall₂ Agrees (meaning (insOf p tr)) (fetched p tr) := by
  induction tr using List.reverseRecOn with
  | nil => exact .nil
  | append_singleton tr a ih =>
    have hok' : ∀ b ∈ tr, b.proc = p → b.out.stat = 0 := fun b hb => hok b (by simp [hb])
    have hback : Mem.ReadBack (Mem.lastStored tr) a := h tr a [] rfl
    specialize ih (fun pre b post heq => h pre b (post ++ [a]) (by simp [heq])) hok'
    by_cases hp : a.proc = p
    · have hins : insOf p (tr ++ [a]) = insOf p tr ++ [a.ins] := by simp [insOf, hp]
      rw [hins, meaning_snoc]
      by_cases hop : a.ins.opcode = .READ
      · have hf : fetched p (tr ++ [a]) = fetched p tr ++ [a.out.data] := by
          simp [fetched, hp, hop]
        rw [hf, if_pos hop]
        refine List.rel_append ih (.cons (fun b hb => ?_) .nil)
        subst hp
        rw [← lastStored_eq_flat hok'] at hb
        exact hback hop (hok a (by simp) rfl) b hb
      · have hf : fetched p (tr ++ [a]) = fetched p tr := by simp [fetched, hop]
        rwa [hf, if_neg hop, List.append_nil]
    · have hins : insOf p (tr ++ [a]) = insOf p tr := by simp [insOf, hp]
      have hf : fetched p (tr ++ [a]) = fetched p tr := by simp [fetched, hp]
      rwa [hins, hf]

/-- Whatever the CPUs, the other processes and the pages that are moved do in between: a process
whose instructions succeed fetches the bytes that its program alone says, as far as it has been
executed, and when it is freed all of it has been executed. -/
theorem meaning_of_run (hram : Mem.numfp mc.ramSz ≤ 8192)
    {tr : List (MachineLabel c.numCpus c.numProcesses)} {s : Machine c.numCpus c.numProcesses}
    (h : ((machineLts c g mc).guard (MachineLabel.MemOk Mem.TransparentOk)).Run tr s)
    (p : Fin c.numProcesses) (hok : ∀ a ∈ memTrace tr, a.proc = p → a.out.stat = 0) :
    List.Forall₂ Agrees (meaning ((c.code p).take (s.os.pcb p).pc)) (fetched p (memTrace tr)) ∧
      (s.os.freed p = true → (s.os.pcb p).pc = (c.code p).length) := by
  have hrun := osRun_of_machine h.of_guard
  refine ⟨?_, fun hfreed => ?_⟩
  · rw [← memTrace_ins h.of_guard]
    exact agrees_of_readsBack (Mem.storedInv_of_run hram (memRun_of_machine h)).reads hok
  · have hinv := inv_of_run hrun
    obtain ⟨hadded, hpc⟩ := hinv.freed p hfreed
    rw [hpc, hinv.code_eq p (hadded.trans_le (LdLoc.added_le_loaded c _))]

/-! ## A run -/

instance MachineLabel.decidableMemOk
    (ok : Mem.System (Fin m) → Mem.Label (Fin m) → Mem.System (Fin m) → Prop)
    [∀ s a s', Decidable (ok s a s')] (s : Machine n m) (l : MachineLabel n m) (s' : Machine n m) :
    Decidable (MachineLabel.MemOk ok s l s') :=
  match l with
  | .thread _ => isTrue fun _ h => by cases h
  | .run _ a => decidable_of_iff (ok s.mem a s'.mem)
      ⟨fun h b hb => by cases hb; exact h, fun h => h a rfl⟩

/-- One CPU; a process that stores a byte and reads it, and another one. -/
def Config.twoPrograms : Config where
  timeSlot := 2
  numCpus := 1
  ldProcesses := [⟨[⟨.ALLOC, 256, 0, 0⟩, ⟨.WRITE, 7, 0, 5⟩, ⟨.READ, 0, 5, 0⟩], 0, 0⟩,
    ⟨[⟨.ALLOC, 256, 0, 0⟩, ⟨.WRITE, 9, 0, 5⟩], 0, 0⟩]

/-- The programs take turns on CPU `k`, and both store a byte at the same address. -/
def takesTurns {n m : ℕ} (k : Fin n) (p p' : Fin m) : List (MachineLabel n m) :=
  [.thread (.ld 0 .step), .thread (.ld 0 .step), .thread (.ld 0 (.add 0)),
    .thread (.ld 0 .nextSlot), .thread (.ld 0 .ret), .thread (.ld 0 .step), .thread (.ld 0 .step),
    .thread (.ld 0 (.add 1)),
    .thread (.cpu k .step), .thread (.cpu k (.get (some 0))), .thread (.cpu k .step),
    .run k ⟨p, ⟨.ALLOC, 256, 0, 0⟩, [], ⟨0, none⟩⟩,
    .thread (.cpu k .nextSlot), .thread (.cpu k .ret), .thread (.cpu k .step),
    .thread (.cpu k .step), .run k ⟨p, ⟨.WRITE, 7, 0, 5⟩, [], ⟨0, none⟩⟩,
    .thread (.cpu k .nextSlot), .thread (.cpu k .ret), .thread (.cpu k (.put 0)),
    .thread (.cpu k (.get (some 1))), .thread (.cpu k .step),
    .run k ⟨p', ⟨.ALLOC, 256, 0, 0⟩, [], ⟨0, none⟩⟩,
    .thread (.cpu k .nextSlot), .thread (.cpu k .ret), .thread (.cpu k .step),
    .thread (.cpu k .step), .run k ⟨p', ⟨.WRITE, 9, 0, 5⟩, [], ⟨0, none⟩⟩,
    .thread (.cpu k .nextSlot), .thread (.cpu k .ret), .thread (.cpu k (.free 1)),
    .thread (.cpu k (.get (some 0))), .thread (.cpu k .step),
    .run k ⟨p, ⟨.READ, 0, 5, 0⟩, [], ⟨0, some 7⟩⟩,
    .thread (.cpu k .nextSlot), .thread (.cpu k .ret), .thread (.cpu k (.free 0))]

theorem meaning_takesTurns : ∃ s : Machine 1 2,
    ((machineLts .twoPrograms .call (Mem.Config.two 512 256)).guard
      (MachineLabel.MemOk Mem.TransparentOk)).Run (takesTurns (n := 1) (m := 2) 0 0 1) s ∧
    s.os.freed 0 = true ∧
    fetched 0 (memTrace (takesTurns (n := 1) (m := 2) 0 0 1)) = [some 7] ∧
    List.Forall₂ Agrees (meaning ((Config.twoPrograms.code 0).take (s.os.pcb 0).pc))
      (fetched 0 (memTrace (takesTurns (n := 1) (m := 2) 0 0 1))) ∧
    (s.os.freed 0 = true → (s.os.pcb 0).pc = (Config.twoPrograms.code 0).length) := by
  obtain ⟨s, hrun, htest⟩ := Lts.exists_guarded_run_of_filter
    (⟨.init 1, (Mem.Config.two 512 256).init⟩ : Machine 1 2) (Machine.exec .twoPrograms .call)
    (MachineLabel.MemOk Mem.TransparentOk) (takesTurns 0 0 1) (fun s => s.os.freed 0)
    (by decide +kernel)
  have hok : ∀ a ∈ memTrace (takesTurns (n := 1) (m := 2) 0 0 1), a.proc = 0 → a.out.stat = 0 := by
    decide
  refine ⟨s, hrun, htest, by decide, ?_⟩
  exact @meaning_of_run .twoPrograms .call (Mem.Config.two 512 256) (by decide) _ _ hrun
    (0 : Fin 2) hok

end OsSim.Sched
