import OsSim.Loader.Load

/-!
# Configuration files

`read_config` (`src/os.c`, lines 176–248) in the build of `os-cfg.h`: with priorities, with
a line of memory sizes, and with a fixed size of the TLB. A configuration file is

    timeSlot numCpus numProcesses
    memramsz memswpsz[0] memswpsz[1] memswpsz[2] memswpsz[3]

and one line `startTime name prio` for each process, all in words that are separated by
white space. The number of processes that the first line promises is not compared with the
lines that follow, and no value is checked.

Results:
* `readConfig_of_isConfig`: a complete file is read as it is written.
* `readConfig_exits_iff`: no file that can be opened is refused.
-/

namespace OsSim.Loader

open Scanf

/-! ## `read_config` -/

/-- The number is an `int`. -/
abbrev IsInt (v : ℤ) : Prop := -2 ^ 31 ≤ v ∧ v < 2 ^ 31

/-- The number is an `unsigned long`. -/
abbrev IsULong (v : ℤ) : Prop := 0 ≤ v ∧ v < 2 ^ 64

/-- What `ld_processes` holds of one process. -/
structure LdProcess where
  path : List Char
  startTime : ℕ
  prio : ℕ
  deriving DecidableEq, Repr

/-- The variables that `read_config` assigns. -/
structure OsConfig where
  timeSlot : ℤ
  numCpus : ℤ
  numProcesses : ℤ
  tlbsz : ℤ
  memramsz : ℤ
  memswpsz : List ℤ
  ldProcesses : List LdProcess
  deriving DecidableEq, Repr

/-- The contents of the memory that `read_config` does not initialise, for one process:
`start_time[i]`, `prio[i]` and the buffer `proc`. -/
structure RawProcess where
  startTime : ℕ
  prio : ℕ
  proc : List Char

/-- `fscanf(file, fmt, …)` into objects of type `int`: the numbers, and the file. -/
def scanIntObjs (fmt : List Directive) (file : List Char) : Except Stop (List ℤ × List Char) :=
  let (vs, file) := scanInts fmt file
  if ∀ v ∈ vs, IsInt v then .ok (vs, file) else .error .undefined

/-- The loop over `memswpsz` (lines 222–223); the array is zero before. -/
def readSwpSizes : ℕ → List Char → Except Stop (List ℤ × List Char)
  | 0, file => .ok ([], file)
  | left + 1, file => do
    let (vs, file) ← scanIntObjs [.int] file
    let (sizes, file) ← readSwpSizes left file
    return (vs[0]?.getD 0 :: sizes, file)

/-- What `fscanf(file, "%lu %s %lu\n", …)` (line 241) reads, and the file. -/
def scanLine (file : List Char) : (Option ℤ × Option (List Char) × Option ℤ) × List Char :=
  match scanInt file with
  | (none, file) => ((none, none, none), file)
  | (some start, file) =>
    match scanWord file with
    | none => ((some start, none, none), [])
    | some (word, file) =>
      match scanInt file with
      | (none, file) => ((some start, some word, none), file)
      | (some prio, file) => ((some start, some word, some prio), skipWhite file)

/-- `"input/proc/"`. -/
def procDir : List Char := "input/proc/".toList

/-- `strcat(ld_processes.path[i], proc)` (line 246), with 100 characters for the path. -/
def catPath (proc : List Char) : Except Stop (List Char) :=
  if proc.any (fun c => c.toNat == 0) = true ∧ (procDir ++ cString proc).length < 100 then
    .ok (procDir ++ cString proc)
  else .error .undefined

/-- The body of the loop over the processes (lines 236–246), with `char proc[100]`. -/
def readProcess (raw : RawProcess) (file : List Char) : Except Stop (LdProcess × List Char) :=
  let ((start, word, prio), file) := scanLine file
  if (∀ v ∈ start, IsULong v) ∧ (∀ w ∈ word, w.length < 100) ∧ ∀ v ∈ prio, IsULong v then do
    let path ← catPath ((word.map (· ++ [Char.ofNat 0])).getD raw.proc)
    return ({ path
              startTime := (start.map Int.toNat).getD raw.startTime
              prio := (prio.map Int.toNat).getD raw.prio }, file)
  else .error .undefined

/-- The loop over the processes (lines 234–247), from process `i` on. -/
def readProcesses (raw : ℕ → RawProcess) (i : ℕ) : ℕ → List Char → Except Stop (List LdProcess)
  | 0, _ => .ok []
  | left + 1, file => do
    let (p, file) ← readProcess (raw i) file
    let ps ← readProcesses raw (i + 1) left file
    return p :: ps

/-- `read_config`, with the text of the file, if it can be opened. The `static` variables are zero
before. -/
def readConfig (raw : ℕ → RawProcess) (file : Option (List Char)) : Except Stop OsConfig :=
  match file with
  | none => .error .exits
  | some file => do
    let (header, file) ← scanIntObjs [.int, .white, .int, .white, .int, .white] file
    let numProcesses := header[2]?.getD 0
    let (ram, file) ← scanIntObjs [.int, .white] file
    let (swp, file) ← readSwpSizes 4 file
    let ps ← readProcesses raw 0 numProcesses.toNat (skipWhite file)
    return { timeSlot := header[0]?.getD 0
             numCpus := header[1]?.getD 0
             numProcesses
             tlbsz := 0x10000
             memramsz := ram[0]?.getD 0
             memswpsz := swp
             ldProcesses := ps }

/-! ## Configuration files -/

/-- What a configuration file says of one process: start time, name and priority. -/
structure Line where
  startTime : ℤ
  name : List Char
  prio : ℤ

/-- What a configuration file says. -/
structure ConfigText where
  timeSlot : ℤ
  numCpus : ℤ
  memramsz : ℤ
  memswpsz : List ℤ
  lines : List Line

/-- The words begin with lines of processes. -/
inductive Lines : List (List Char) → List Line → Prop
  | nil (ws) : Lines ws []
  | cons {t name p ws l ls} (ht : Writes t l.startTime) (hname : name = l.name)
    (hp : Writes p l.prio) (h : Lines ws ls) : Lines (t :: name :: p :: ws) (l :: ls)

/-- The text is a header, the memory sizes, and as many lines as the header says. -/
structure IsConfig (text : List Char) (conf : ConfigText) : Prop where
  words : ∃ header sizes body, words text = header ++ (sizes ++ body) ∧
    List.Forall₂ Writes header [conf.timeSlot, conf.numCpus, (conf.lines.length : ℤ)] ∧
    List.Forall₂ Writes sizes (conf.memramsz :: conf.memswpsz) ∧ Lines body conf.lines
  swaps : conf.memswpsz.length = 4

/-- A line fits into the variables: the numbers are `unsigned long`, and the path has 100 characters
with the one that ends it. -/
structure Line.Fits (l : Line) : Prop where
  startTime : IsULong l.startTime
  prio : IsULong l.prio
  noNul : ∀ c ∈ l.name, c.toNat ≠ 0
  short : (procDir ++ l.name).length < 100

structure ConfigText.Fits (conf : ConfigText) : Prop where
  timeSlot : IsInt conf.timeSlot
  numCpus : IsInt conf.numCpus
  numProcesses : IsInt conf.lines.length
  memramsz : IsInt conf.memramsz
  memswpsz : ∀ v ∈ conf.memswpsz, IsInt v
  lines : ∀ l ∈ conf.lines, l.Fits

/-- What `read_config` is to make of a line. -/
def Line.ldProcess (l : Line) : LdProcess := ⟨procDir ++ l.name, l.startTime.toNat, l.prio.toNat⟩

/-- What `read_config` is to make of a configuration file. -/
def ConfigText.osConfig (conf : ConfigText) : OsConfig where
  timeSlot := conf.timeSlot
  numCpus := conf.numCpus
  numProcesses := conf.lines.length
  tlbsz := 0x10000
  memramsz := conf.memramsz
  memswpsz := conf.memswpsz
  ldProcesses := conf.lines.map Line.ldProcess

/-! ## One call of `fscanf` -/

section

variable {file rest : List Char} {ws ns : List (List Char)}

/-- A format of numbers reads them if they come next and are `int`s. -/
theorem scanIntObjs_of_words (fmt : List Directive) {vs : List ℤ} (h : words file = ns ++ ws)
    (hns : List.Forall₂ Writes ns vs) (hlen : vs.length = conversions fmt)
    (hfit : ∀ v ∈ vs, IsInt v) :
    ∃ rest, scanIntObjs fmt file = .ok (vs, rest) ∧ words rest = ws := by
  obtain ⟨rest, hscan, hrest⟩ := scanInts_of_words h hns hlen
  refine ⟨rest, ?_, hrest⟩
  rw [scanIntObjs, hscan]
  exact if_pos hfit

theorem readSwpSizes_of_words {vs : List ℤ} (h : words file = ns ++ ws)
    (hns : List.Forall₂ Writes ns vs) (hfit : ∀ v ∈ vs, IsInt v) :
    ∃ rest, readSwpSizes vs.length file = .ok (vs, rest) ∧ words rest = ws := by
  induction hns generalizing file with
  | nil => exact ⟨file, rfl, h⟩
  | @cons n v ns vs hn hns ih =>
    obtain ⟨hv, hvs⟩ := List.forall_mem_cons.mp hfit
    obtain ⟨rest, hscan, hrest⟩ := scanIntObjs_of_words [.int] (show words file = [n] ++ _ from h)
      (.cons hn .nil) rfl (List.forall_mem_singleton.mpr hv)
    obtain ⟨rest', hread, hrest'⟩ := ih hrest hvs
    refine ⟨rest', ?_, hrest'⟩
    rw [List.length_cons, readSwpSizes, hscan]
    simp only [bind, Except.bind, hread]
    rfl

theorem scanLine_of_words {t name p : List Char} {start prio : ℤ}
    (h : words file = t :: name :: p :: ws) (ht : Writes t start) (hp : Writes p prio) :
    ∃ rest, scanLine file = ((some start, some name, some prio), rest) ∧ words rest = ws := by
  obtain ⟨rest1, hstart, hrest1⟩ := scanInt_of_words h ht
  obtain ⟨rest2, -, -, hword, hrest2⟩ := scanWord_of_words hrest1
  obtain ⟨rest3, hprio, hrest3⟩ := scanInt_of_words hrest2 hp
  refine ⟨skipWhite rest3, ?_, by rw [words_skipWhite, hrest3]⟩
  unfold scanLine
  rw [hstart]
  simp only [hword, hprio]

/-! ## The lines of the processes -/

theorem cString_append_nul {name : List Char} (h : ∀ c ∈ name, c.toNat ≠ 0) :
    cString (name ++ [Char.ofNat 0]) = name := by
  unfold cString
  rw [List.takeWhile_append_of_pos (by simpa using h)]
  simp

theorem Line.Fits.catPath {l : Line} (h : l.Fits) :
    catPath (l.name ++ [Char.ofNat 0]) = .ok (procDir ++ l.name) := by
  unfold Loader.catPath
  rw [cString_append_nul h.noNul]
  exact if_pos ⟨by simp, h.short⟩

/-- A line is read as it is written, whatever the memory holds. -/
theorem readProcess_line {t name p : List Char} {l : Line}
    (h : words file = t :: name :: p :: ws) (ht : Writes t l.startTime) (hname : name = l.name)
    (hp : Writes p l.prio) (hfit : l.Fits) (raw : RawProcess) :
    ∃ rest, readProcess raw file = .ok (l.ldProcess, rest) ∧ words rest = ws := by
  obtain ⟨rest, hscan, hrest⟩ := scanLine_of_words h ht hp
  refine ⟨rest, ?_, hrest⟩
  have hshort : l.name.length < 100 := by
    have := hfit.short
    rw [List.length_append] at this
    omega
  subst hname
  unfold readProcess
  rw [hscan]
  simp only [Option.mem_some_iff, forall_eq', Option.map_some, Option.getD_some, hfit.catPath]
  rw [if_pos ⟨hfit.startTime, hshort, hfit.prio⟩]
  rfl

theorem readProcesses_lines {ls : List Line} (hl : Lines ws ls) (hfit : ∀ l ∈ ls, l.Fits)
    (raw : ℕ → RawProcess) (i : ℕ) (h : words file = ws) :
    readProcesses raw i ls.length file = .ok (ls.map Line.ldProcess) := by
  induction hl generalizing file i with
  | nil ws => rfl
  | cons ht hname hp _ ih =>
    obtain ⟨hfl, hfls⟩ := List.forall_mem_cons.mp hfit
    obtain ⟨rest, hread, hrest⟩ := readProcess_line h ht hname hp hfl (raw i)
    rw [List.length_cons, readProcesses, hread]
    simp only [bind, Except.bind, ih hfls (i + 1) hrest]
    rfl

end

/-! ## A file -/

/-- A complete configuration file whose values fit is read as it is written, whatever is in the
memory that `read_config` does not initialise. -/
theorem readConfig_of_isConfig {text : List Char} {conf : ConfigText} (h : IsConfig text conf)
    (hfit : conf.Fits) (raw : ℕ → RawProcess) :
    readConfig raw (some text) = .ok conf.osConfig := by
  obtain ⟨header, sizes, body, hwords, hheader, hsizes, hlines⟩ := h.words
  obtain ⟨rest1, hscan1, hrest1⟩ := scanIntObjs_of_words
    [.int, .white, .int, .white, .int, .white] hwords hheader rfl (by
      simpa using ⟨hfit.timeSlot, hfit.numCpus, hfit.numProcesses⟩)
  cases hsizes with
  | @cons m _ ms _ hm hms =>
    obtain ⟨rest2, hscan2, hrest2⟩ := scanIntObjs_of_words [.int, .white]
      (show words rest1 = [m] ++ _ from hrest1) (.cons hm .nil) rfl (by simpa using hfit.memramsz)
    obtain ⟨rest3, hscan3, hrest3⟩ := readSwpSizes_of_words hrest2 hms hfit.memswpsz
    have hread := readProcesses_lines hlines hfit.lines raw 0
      ((words_skipWhite rest3).trans hrest3)
    rw [h.swaps] at hscan3
    have hn : (([conf.timeSlot, conf.numCpus, (conf.lines.length : ℤ)] : List ℤ)[2]?.getD
        0).toNat = conf.lines.length := rfl
    unfold readConfig
    simp only [bind, Except.bind, hscan1, hscan2, hscan3]
    rw [hn, hread]
    rfl

theorem writes_of_decimal {w : List Char} {v : ℤ} (hne : w ≠ []) (h : w.all Char.isDigit = true)
    (hv : (decimal w : ℤ) = v) : Writes w v := hv ▸ .plain hne (List.all_eq_true.mp h)

theorem noNul_of_all {w : List Char} (h : w.all (fun c => c.toNat != 0) = true) :
    ∀ c ∈ w, c.toNat ≠ 0 := fun c hc => bne_iff_ne.mp (List.all_eq_true.mp h c hc)

/-- `input/os_0_mlq_paging`. -/
def pagingText : List Char := "6 2 2\n1048576 16777216 0 0 0\n0 p0s 0\n2 p1s 15".toList

def pagingConf : ConfigText where
  timeSlot := 6
  numCpus := 2
  memramsz := 1048576
  memswpsz := [16777216, 0, 0, 0]
  lines := [⟨0, ['p', '0', 's'], 0⟩, ⟨2, ['p', '1', 's'], 15⟩]

theorem isConfig_pagingText : IsConfig pagingText pagingConf where
  words := by
    refine ⟨["6".toList, "2".toList, "2".toList],
      ["1048576".toList, "16777216".toList, "0".toList, "0".toList, "0".toList],
      ["0".toList, "p0s".toList, "0".toList, "2".toList, "p1s".toList, "15".toList],
      by decide +kernel, ?_, ?_, ?_⟩
    · refine .cons ?_ (.cons ?_ (.cons ?_ .nil)) <;>
        exact writes_of_decimal (by decide) (by decide) (by decide)
    · refine .cons ?_ (.cons ?_ (.cons ?_ (.cons ?_ (.cons ?_ .nil)))) <;>
        exact writes_of_decimal (by decide) (by decide) (by decide)
    · refine .cons ?_ rfl ?_ (.cons ?_ rfl ?_ (.nil _)) <;>
        exact writes_of_decimal (by decide) (by decide) (by decide)
  swaps := rfl

theorem fits_pagingConf : pagingConf.Fits where
  timeSlot := by decide
  numCpus := by decide
  numProcesses := by decide
  memramsz := by decide
  memswpsz := by decide
  lines := by
    have h0 : (⟨0, ['p', '0', 's'], 0⟩ : Line).Fits :=
      ⟨by decide, by decide, noNul_of_all (by decide), by decide⟩
    have h1 : (⟨2, ['p', '1', 's'], 15⟩ : Line).Fits :=
      ⟨by decide, by decide, noNul_of_all (by decide), by decide⟩
    exact List.forall_mem_cons.mpr ⟨h0, List.forall_mem_singleton.mpr h1⟩

theorem readConfig_pagingText : readConfig (fun _ => ⟨0, 0, []⟩) (some pagingText) =
    .ok { timeSlot := 6
          numCpus := 2
          numProcesses := 2
          tlbsz := 65536
          memramsz := 1048576
          memswpsz := [16777216, 0, 0, 0]
          ldProcesses := [⟨"input/proc/p0s".toList, 0, 0⟩, ⟨"input/proc/p1s".toList, 2, 15⟩] } :=
  readConfig_of_isConfig isConfig_pagingText fits_pagingConf _

/-! ## Files that are not complete -/

theorem scanIntObjs_ne_exits (fmt : List Directive) (file : List Char) :
    scanIntObjs fmt file ≠ .error .exits := by
  unfold scanIntObjs
  simp only
  split_ifs <;> nofun

theorem readSwpSizes_ne_exits (left : ℕ) (file : List Char) :
    readSwpSizes left file ≠ .error .exits := by
  induction left generalizing file with
  | zero => nofun
  | succ left ih =>
    rw [readSwpSizes, Ne, bind_eq_error_iff]
    rintro (h | ⟨_, -, h⟩)
    · exact scanIntObjs_ne_exits _ _ h
    · obtain h | ⟨_, -, h⟩ := bind_eq_error_iff.mp h
      · exact ih _ h
      · cases h

theorem readProcess_ne_exits (raw : RawProcess) (file : List Char) :
    readProcess raw file ≠ .error .exits := by
  unfold readProcess
  simp only
  split_ifs
  · rw [Ne, bind_eq_error_iff]
    rintro (h | ⟨_, -, h⟩)
    · unfold catPath at h
      split_ifs at h
      cases h
    · cases h
  · nofun

theorem readProcesses_ne_exits (raw : ℕ → RawProcess) (i left : ℕ) (file : List Char) :
    readProcesses raw i left file ≠ .error .exits := by
  induction left generalizing i file with
  | zero => nofun
  | succ left ih =>
    rw [readProcesses, Ne, bind_eq_error_iff]
    rintro (h | ⟨_, -, h⟩)
    · exact readProcess_ne_exits _ _ h
    · obtain h | ⟨_, -, h⟩ := bind_eq_error_iff.mp h
      · exact ih _ _ h
      · cases h

/-- `read_config` exits only if the file cannot be opened: whatever the file says, nothing in it is
refused. -/
theorem readConfig_exits_iff (raw : ℕ → RawProcess) (file : Option (List Char)) :
    readConfig raw file = .error .exits ↔ file = none := by
  constructor
  · intro h
    cases file with
    | none => rfl
    | some file =>
      obtain h | ⟨_, -, h⟩ := bind_eq_error_iff.mp h
      · exact absurd h (scanIntObjs_ne_exits _ _)
      obtain h | ⟨_, -, h⟩ := bind_eq_error_iff.mp h
      · exact absurd h (scanIntObjs_ne_exits _ _)
      obtain h | ⟨_, -, h⟩ := bind_eq_error_iff.mp h
      · exact absurd h (readSwpSizes_ne_exits _ _)
      obtain h | ⟨_, -, h⟩ := bind_eq_error_iff.mp h
      · exact absurd h (readProcesses_ne_exits _ _ _ _)
      · cases h
  · rintro rfl
    rfl

end OsSim.Loader
