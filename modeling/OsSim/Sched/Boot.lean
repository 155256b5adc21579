import OsSim.Loader.Program
import OsSim.Loader.ReadConfig
import OsSim.Sched.Dispatch

/-!
# From files to runs

`main` reads the configuration file, and `ld_routine` calls `load` on the file of one
process after the other (`src/os.c`, lines 121–174 and 250–262). What the CPUs execute is
what these files say: `executed_of_files` goes from the texts to the instructions that a
run of the threads has executed.

Results:
* `loadAll_of_programs`: complete program files are loaded as they are written.
* `executed_of_files`: in every run, the instructions executed of each process are the
  first ones of the program in its file.
-/

namespace OsSim.Sched

open Loader (Stop OsConfig ConfigText IsConfig IsProgram HoldsInst Raw RawProcess readConfig load)
open Mem (InsOpcode)

/-! ## `main` and `ld_routine` -/

/-- The files: the text at a path, if there is one. -/
abbrev Files := List Char → Option (List Char)

/-- `"input/"`. -/
def inputDir : List Char := "input/".toList

/-- The path that `main` makes of its argument (lines 258–261), with 100 characters for it. -/
def configPath (arg : List Char) : Except Stop (List Char) :=
  if (inputDir ++ arg).length < 100 then .ok (inputDir ++ arg) else .error .undefined

/-- The calls of `load` in `ld_routine`, with `avail_pid` at process `i`. -/
def loadAll (raw : ℕ → Raw) (files : Files) : ℕ → BitVec 32 → List Loader.LdProcess →
    Except Stop (List LdProcess)
  | _, _, [] => .ok []
  | i, availPid, p :: ps => do
    let (proc, availPid) ← load availPid (raw i) (files p.path)
    let rest ← loadAll raw files (i + 1) availPid ps
    return { code := proc.code.text, startTime := p.startTime, prio := p.prio } :: rest

/-- What `main` and `ld_routine` read before the threads can have executed everything. The first
`avail_pid` is 1. -/
def boot (rawConf : ℕ → RawProcess) (raw : ℕ → Raw) (files : Files) (arg : List Char) :
    Except Stop (OsConfig × Config) := do
  let path ← configPath arg
  let conf ← readConfig rawConf (files path)
  let ps ← loadAll raw files 0 1 conf.ldProcesses
  return (conf, { timeSlot := conf.timeSlot, numCpus := conf.numCpus.toNat, ldProcesses := ps })

/-! ## Complete files -/

/-- What a program file says: a priority, and instructions with their arguments. -/
structure ProgramText where
  priority : ℤ
  code : List (InsOpcode × List ℤ)

/-- The file of a process is a complete program. -/
def HasProgram (files : Files) (p : Loader.LdProcess) (prog : ProgramText) : Prop :=
  ∃ text, files p.path = some text ∧ IsProgram text prog.priority prog.code ∧
    Loader.Fits prog.priority prog.code

/-- The process has the program that is written, and what the configuration says of it. -/
structure Loaded (p : LdProcess) (line : Loader.LdProcess) (prog : ProgramText) : Prop where
  code : List.Forall₂ HoldsInst p.code prog.code
  startTime : p.startTime = line.startTime
  prio : p.prio = line.prio

/-- Complete programs are loaded as they are written, in their order. -/
theorem loadAll_of_programs {files : Files} {lines : List Loader.LdProcess}
    {progs : List ProgramText} (h : List.Forall₂ (HasProgram files) lines progs) (raw : ℕ → Raw)
    (i : ℕ) (availPid : BitVec 32) :
    ∃ ps, loadAll raw files i availPid lines = .ok ps ∧ ps.length = lines.length ∧
      ∀ (j : ℕ) line prog, lines[j]? = some line → progs[j]? = some prog →
        ∃ p, ps[j]? = some p ∧ Loaded p line prog := by
  induction h generalizing i availPid with
  | nil => exact ⟨[], rfl, rfl, by simp⟩
  | @cons line prog lines progs hprog _ ih =>
    obtain ⟨text, htext, hisprog, hfit⟩ := hprog
    obtain ⟨proc, hload, hholds⟩ := hisprog.load_eq hfit availPid (raw i)
    obtain ⟨ps, hps, hlen, hall⟩ := ih (i + 1) (availPid + 1)
    refine ⟨⟨proc.code.text, line.startTime, line.prio⟩ :: ps, ?_, by simp [hlen], ?_⟩
    · rw [loadAll, htext, hload]
      simp only [bind, Except.bind, hps]
      rfl
    · rintro (_ | j) line' prog' hl hp
      · obtain rfl := Option.some.inj hl
        obtain rfl := Option.some.inj hp
        exact ⟨_, rfl, hholds.text, rfl, rfl⟩
      · exact hall j line' prog' hl hp

/-- A process of the threads is the one that is written in line `line` of the configuration and in
the program file `prog`. -/
structure Runs (c : Config) (p : ℕ) (line : Loader.Line) (prog : ProgramText) : Prop where
  code : List.Forall₂ HoldsInst (c.code p) prog.code
  prio : c.prio p = line.prio.toNat % 2 ^ 32
  startTime : c.startTime p = line.startTime.toNat

/-- The threads run what is written in the configuration and in the program files. -/
structure Boots (conf : ConfigText) (progs : List ProgramText) (c : Config) : Prop where
  timeSlot : c.timeSlot = conf.timeSlot
  numCpus : c.numCpus = conf.numCpus.toNat
  numProcesses : c.numProcesses = conf.lines.length
  runs : ∀ (p : ℕ) line prog, conf.lines[p]? = some line → progs[p]? = some prog →
    Runs c p line prog

/-- Complete files, and a path that fits. -/
structure CompleteFiles (files : Files) (arg : List Char) (conf : ConfigText)
    (progs : List ProgramText) : Prop where
  path : (inputDir ++ arg).length < 100
  config : ∃ text, files (inputDir ++ arg) = some text ∧ IsConfig text conf
  fits : conf.Fits
  programs : List.Forall₂ (HasProgram files) (conf.lines.map Loader.Line.ldProcess) progs

section

variable {files : Files} {arg : List Char} {conf : ConfigText} {progs : List ProgramText}

/-- Complete files are read as they are written, whatever is in the memory that is not
initialised. -/
theorem CompleteFiles.boot_eq (h : CompleteFiles files arg conf progs) (rawConf : ℕ → RawProcess)
    (raw : ℕ → Raw) : ∃ c, boot rawConf raw files arg = .ok (conf.osConfig, c) ∧
      Boots conf progs c := by
  obtain ⟨text, htext, hconf⟩ := h.config
  obtain ⟨ps, hps, hlen, hall⟩ := loadAll_of_programs h.programs raw 0 1
  have hread := Loader.readConfig_of_isConfig hconf h.fits rawConf
  have hlines : conf.osConfig.ldProcesses = conf.lines.map Loader.Line.ldProcess := rfl
  refine ⟨⟨conf.timeSlot, conf.numCpus.toNat, ps⟩, ?_, rfl, rfl, hlen.trans (by simp), ?_⟩
  · unfold boot configPath
    rw [if_pos h.path]
    simp only [bind, Except.bind, htext, hread, hlines, hps]
    rfl
  · intro p line prog hline hprog
    obtain ⟨q, hq, hloaded⟩ := hall p line.ldProcess prog (by simp [hline]) hprog
    refine ⟨?_, ?_, ?_⟩
    · simp only [Config.code, hq, Option.map_some, Option.getD_some]
      exact hloaded.code
    · simp only [Config.prio, hq, Option.map_some, Option.getD_some, hloaded.prio]
      rfl
    · simp only [Config.startTime, hq, Option.map_some, Option.getD_some, hloaded.startTime]
      rfl

/-- From complete files to what is executed: `main` and the loader read them, and in every run of
the threads the instructions executed of a process are the first `pc` that are written in its file,
all of them once it has been freed. -/
theorem executed_of_files (h : CompleteFiles files arg conf progs) (rawConf : ℕ → RawProcess)
    (raw : ℕ → Raw) : ∃ c, boot rawConf raw files arg = .ok (conf.osConfig, c) ∧
      Boots conf progs c ∧
      ∀ (g : Grain) tr s, (osLts c g).Run tr s → ∀ (p : ℕ) prog, progs[p]? = some prog →
        List.Forall₂ HoldsInst (executed p tr) (prog.code.take (s.pcb p).pc) ∧
          (s.freed p = true → (s.pcb p).pc = prog.code.length) := by
  obtain ⟨c, hboot, hc⟩ := h.boot_eq rawConf raw
  refine ⟨c, hboot, hc, fun g tr s hrun p prog hprog => ?_⟩
  have hlen : p < conf.lines.length := by
    have := (List.getElem?_eq_some_iff.mp hprog).1
    have := h.programs.length_eq
    simp only [List.length_map] at this
    omega
  have hcode := (hc.runs p _ prog (List.getElem?_eq_getElem hlen) hprog).code
  have hinv := inv_of_run hrun
  refine ⟨?_, fun hfreed => ?_⟩
  · rw [(history_of_run hrun).executed]
    by_cases hp : p < s.ld.loaded c
    · rw [hinv.code_eq p hp]
      exact List.forall₂_take _ hcode
    · rw [hinv.pc_eq p (by omega)]
      exact .nil
  · obtain ⟨hadded, hpc⟩ := hinv.freed p hfreed
    rw [hpc, hinv.code_eq p (hadded.trans_le (LdLoc.added_le_loaded c _)), hcode.length_eq]

end

/-- A configuration of one process, and its program. -/
def oneFile : Files := fun path =>
  if path = "input/os_1".toList then some "2 1 1\n512 256 0 0 0\n0 p0s 3\n".toList
  else if path = "input/proc/p0s".toList then some "1 2\ncalc\nalloc 256 0\n".toList
  else none

def oneFileConf : ConfigText where
  timeSlot := 2
  numCpus := 1
  memramsz := 512
  memswpsz := [256, 0, 0, 0]
  lines := [⟨0, ['p', '0', 's'], 3⟩]

def oneFileProgram : ProgramText := ⟨1, [(.CALC, []), (.ALLOC, [256, 0])]⟩

theorem completeFiles_oneFile :
    CompleteFiles oneFile "os_1".toList oneFileConf [oneFileProgram] where
  path := by decide
  config := by
    refine ⟨_, rfl, ⟨["2".toList, "1".toList, "1".toList],
      ["512".toList, "256".toList, "0".toList, "0".toList, "0".toList],
      ["0".toList, "p0s".toList, "3".toList], by decide +kernel, ?_, ?_, ?_⟩, rfl⟩
    · refine .cons ?_ (.cons ?_ (.cons ?_ .nil)) <;>
        exact Loader.writes_of_decimal (by decide) (by decide) (by decide)
    · refine .cons ?_ (.cons ?_ (.cons ?_ (.cons ?_ (.cons ?_ .nil)))) <;>
        exact Loader.writes_of_decimal (by decide) (by decide) (by decide)
    · refine .cons ?_ rfl ?_ (.nil _) <;>
        exact Loader.writes_of_decimal (by decide) (by decide) (by decide)
  fits := by
    have hline : (⟨0, ['p', '0', 's'], 3⟩ : Loader.Line).Fits :=
      ⟨by decide, by decide, Loader.noNul_of_all (by decide), by decide⟩
    exact ⟨by decide, by decide, by decide, by decide, by decide,
      List.forall_mem_singleton.mpr hline⟩
  programs := by
    refine .cons ⟨_, rfl, ⟨"1".toList, "2".toList, ["calc".toList, "alloc".toList, "256".toList,
      "0".toList], by decide +kernel, ?_, ?_, ?_⟩, ?_⟩ .nil
    · exact Loader.writes_of_decimal (by decide) (by decide) (by decide)
    · exact Loader.writes_of_decimal (by decide) (by decide) (by decide)
    · refine @Loader.Instructions.cons .CALC [] [] _ _ rfl .nil ?_
      refine @Loader.Instructions.cons .ALLOC _ ["256".toList, "0".toList] [] _ rfl ?_ (.nil _)
      refine .cons ?_ (.cons ?_ .nil) <;>
        exact Loader.writes_of_decimal (by decide) (by decide) (by decide)
    · exact ⟨by decide, by decide, by decide⟩

theorem executed_of_oneFile : ∃ c,
    boot (fun _ => ⟨0, 0, []⟩) (fun _ => ⟨0, 0, [], fun _ => ⟨.CALC, 0, 0, 0⟩⟩) oneFile
      "os_1".toList = .ok (oneFileConf.osConfig, c) ∧
    Boots oneFileConf [oneFileProgram] c ∧
    ∀ (g : Grain) tr s, (osLts c g).Run tr s → ∀ (p : ℕ) prog,
      [oneFileProgram][p]? = some prog →
        List.Forall₂ HoldsInst (executed p tr) (prog.code.take (s.pcb p).pc) ∧
          (s.freed p = true → (s.pcb p).pc = prog.code.length) :=
  executed_of_files completeFiles_oneFile _ _

end OsSim.Sched
