import OsSim.Lib.Scanf
import OsSim.Mem.CpuTlb

/-!
# The program loader

Models of `src/loader.c`: the text of a process file becomes a process. `load` never
looks at what `fscanf` returns, so a conversion that fails leaves what was there before:
the word that was read last in `opcode`, and in the structs what `malloc` returned.
This is `Raw`. `malloc` does not fail.

`fscanf` is undefined where a word does not fit into `opcode` or a number does not fit
into an `unsigned int`.

Results:
* `loadInst_ok_iff`, `loadInst_exits_iff`: what one turn of the loop can do.
* `load_length`: whatever the text is, there are as many instructions as `size` says.
-/

namespace OsSim.Loader

open Scanf Mem

/-! ## Data -/

/-- How a call of `load` can fail to return. -/
inductive Stop where
  | exits
  | undefined
  deriving DecidableEq, Repr

/-- `struct code_seg_t`. -/
structure CodeSeg where
  text : List Inst
  size : BitVec 32
  deriving DecidableEq, Repr

/-- What `load` assigns of a `struct pcb_t`, besides the page table. -/
structure Pcb where
  pid : BitVec 32
  priority : BitVec 32
  code : CodeSeg
  pc : BitVec 32
  bp : BitVec 32
  deriving DecidableEq, Repr

/-- The contents of the variables that `load` does not initialise. -/
structure Raw where
  priority : BitVec 32
  size : BitVec 32
  opcode : List Char
  text : ℕ → Inst

/-- `PAGE_SIZE`. -/
def pageSize : BitVec 32 := 1#32 <<< 10

/-! ## Opcodes -/

/-- `OPT_CALC`. -/
def optCalc : List Char := "calc".toList

/-- `OPT_ALLOC`. -/
def optAlloc : List Char := "alloc".toList

/-- `OPT_FREE`. -/
def optFree : List Char := "free".toList

/-- `OPT_READ`. -/
def optRead : List Char := "read".toList

/-- `OPT_WRITE`. -/
def optWrite : List Char := "write".toList

/-- The string in a buffer: the characters in front of the first NUL. -/
def cString (buf : List Char) : List Char := buf.takeWhile (·.toNat ≠ 0)

/-- `get_opcode` (lines 15–42). -/
def getOpcode (opt : List Char) : Except Stop InsOpcode :=
  if cString opt = optCalc then .ok .CALC
  else if cString opt = optAlloc then .ok .ALLOC
  else if cString opt = optFree then .ok .FREE
  else if cString opt = optRead then .ok .READ
  else if cString opt = optWrite then .ok .WRITE
  else .error .exits

/-! ## `load` -/

/-- The number is an `unsigned int`. -/
abbrev Representable (v : ℤ) : Prop := 0 ≤ v ∧ v < 2 ^ 32

/-- `fscanf(file, fmt, …)` into objects of type `uint32_t`: what it stores, and the file. -/
def scanUints (fmt : List Directive) (file : List Char) :
    Except Stop (List (BitVec 32) × List Char) :=
  let (vs, file) := scanInts fmt file
  if ∀ v ∈ vs, Representable v then .ok (vs.map (BitVec.ofInt 32), file)
  else .error .undefined

/-- `fscanf(file, "%s", opcode)` (line 70), with `char opcode[10]`. -/
def scanOpcode (opcode file : List Char) : Except Stop (List Char × List Char) :=
  match scanWord file with
  | none => .ok (opcode, [])
  | some (word, file) => if word.length < 10 then .ok (word, file) else .error .undefined

/-- The format of the arguments in the `switch` (lines 72–98). -/
def argFormat : InsOpcode → List Directive
  | .CALC => []
  | .ALLOC => [.int, .white, .int, .white]
  | .FREE => [.int, .white]
  | .READ => [.int, .white, .int, .white, .int, .white]
  | .WRITE => [.int, .white, .int, .white, .int, .white]

/-- The first arguments of an instruction become `args`, as many as there are. -/
def setArgs (inst : Inst) (args : List (BitVec 32)) : Inst :=
  { inst with
    arg0 := args[0]?.getD inst.arg0
    arg1 := args[1]?.getD inst.arg1
    arg2 := args[2]?.getD inst.arg2 }

/-- The body of the loop (lines 70–98), on the slot of the instruction, the buffer and the file. -/
def loadInst (slot : Inst) (opcode file : List Char) :
    Except Stop (Inst × List Char × List Char) := do
  let (opcode, file) ← scanOpcode opcode file
  let op ← getOpcode opcode
  let (args, file) ← scanUints (argFormat op) file
  return (setArgs { slot with opcode := op } args, opcode, file)

/-- The loop (lines 68–99) over the slots of `text`. -/
def loadText : List Inst → List Char → List Char → Except Stop (List Inst)
  | [], _, _ => .ok []
  | slot :: slots, opcode, file => do
    let (inst, opcode, file) ← loadInst slot opcode file
    let text ← loadText slots opcode file
    return inst :: text

/-- `load` (lines 44–101), with `avail_pid` and the text of the file at `path`, if there is one: the
process and the next `avail_pid`. -/
def load (availPid : BitVec 32) (raw : Raw) (file : Option (List Char)) :
    Except Stop (Pcb × BitVec 32) :=
  match file with
  | none => .error .exits
  | some file => do
    let (header, file) ← scanUints [.int, .white, .int] file
    let priority := header[0]?.getD raw.priority
    let size := header[1]?.getD raw.size
    let text ← loadText ((List.range size.toNat).map raw.text) raw.opcode file
    return ({ pid := availPid, priority, code := { text, size }, pc := 0, bp := pageSize },
      availPid + 1)

/-! ## One step -/

theorem bind_eq_ok_iff {ε α β : Type} {x : Except ε α} {f : α → Except ε β} {b : β} :
    x >>= f = .ok b ↔ ∃ a, x = .ok a ∧ f a = .ok b := by
  cases x with
  | error e => exact ⟨nofun, nofun⟩
  | ok a => exact ⟨fun h => ⟨a, rfl, h⟩, by rintro ⟨_, ⟨⟩, h⟩; exact h⟩

theorem bind_eq_error_iff {ε α β : Type} {x : Except ε α} {f : α → Except ε β} {e : ε} :
    x >>= f = .error e ↔ x = .error e ∨ ∃ a, x = .ok a ∧ f a = .error e := by
  cases x with
  | error e' => simp [bind, Except.bind]
  | ok a => simp [bind, Except.bind]

theorem scanUints_eq {fmt : List Directive} {file rest : List Char} {vs : List ℤ}
    (h : scanInts fmt file = (vs, rest)) :
    scanUints fmt file = if ∀ v ∈ vs, Representable v then
      .ok (vs.map (BitVec.ofInt 32), rest) else .error .undefined := by
  rw [scanUints, h]

/-- Only the opcodes make `load` exit. -/
theorem scanUints_ne_exits (fmt : List Directive) (file : List Char) :
    scanUints fmt file ≠ .error .exits := by
  rw [scanUints_eq rfl]
  split_ifs <;> nofun

theorem scanOpcode_ne_exits (opcode file : List Char) :
    scanOpcode opcode file ≠ .error .exits := by
  unfold scanOpcode
  cases scanWord file with
  | none => nofun
  | some res =>
    simp only
    split_ifs <;> nofun

theorem scanOpcode_word {file word rest : List Char} (h : scanWord file = some (word, rest))
    (hlen : word.length < 10) (opcode : List Char) :
    scanOpcode opcode file = .ok (word, rest) := by
  rw [scanOpcode, h]
  exact if_pos hlen

/-- The buffer holds the next word, or what it held, at the end of the text. -/
theorem scanOpcode_cases {opcode file opcode' rest : List Char}
    (h : scanOpcode opcode file = .ok (opcode', rest)) :
    (scanWord file = some (opcode', rest) ∧ opcode'.length < 10) ∨
      (scanWord file = none ∧ opcode' = opcode ∧ rest = []) := by
  unfold scanOpcode at h
  cases hscan : scanWord file with
  | none =>
    rw [hscan] at h
    cases h
    exact .inr ⟨rfl, rfl, rfl⟩
  | some res =>
    rw [hscan] at h
    simp only at h
    split_ifs at h with hlen
    cases h
    exact .inl ⟨rfl, hlen⟩

theorem loadInst_ok_iff {slot inst : Inst} {opcode file opcode' rest' : List Char} :
    loadInst slot opcode file = .ok (inst, opcode', rest') ↔
      ∃ rest op args, scanOpcode opcode file = .ok (opcode', rest) ∧ getOpcode opcode' = .ok op ∧
        scanUints (argFormat op) rest = .ok (args, rest') ∧
        inst = setArgs { slot with opcode := op } args := by
  unfold loadInst
  simp only [bind_eq_ok_iff]
  constructor
  · rintro ⟨⟨_, rest⟩, hscan, op, hop, ⟨args, _⟩, hargs, ⟨⟩⟩
    exact ⟨rest, op, args, hscan, hop, hargs, rfl⟩
  · rintro ⟨rest, op, args, hscan, hop, hargs, rfl⟩
    exact ⟨(opcode', rest), hscan, op, hop, (args, rest'), hargs, rfl⟩

/-- An instruction makes `load` exit exactly if `get_opcode` does. -/
theorem loadInst_exits_iff {slot : Inst} {opcode file : List Char} :
    loadInst slot opcode file = .error .exits ↔
      ∃ opcode' rest, scanOpcode opcode file = .ok (opcode', rest) ∧
        getOpcode opcode' = .error .exits := by
  unfold loadInst
  simp only [bind_eq_error_iff]
  constructor
  · rintro (h | ⟨⟨opcode', rest⟩, hscan, hop | ⟨op, -, h | ⟨_, -, ⟨⟩⟩⟩⟩)
    · exact absurd h (scanOpcode_ne_exits opcode file)
    · exact ⟨opcode', rest, hscan, hop⟩
    · exact absurd h (scanUints_ne_exits _ _)
  · rintro ⟨opcode', rest, hscan, hop⟩
    exact .inr ⟨(opcode', rest), hscan, .inl hop⟩

theorem loadText_cons_ok_iff {slot : Inst} {slots text : List Inst} {opcode file : List Char} :
    loadText (slot :: slots) opcode file = .ok text ↔
      ∃ inst opcode' rest text', loadInst slot opcode file = .ok (inst, opcode', rest) ∧
        loadText slots opcode' rest = .ok text' ∧ text = inst :: text' := by
  rw [loadText, bind_eq_ok_iff]
  simp only [bind_eq_ok_iff]
  constructor
  · rintro ⟨⟨inst, opcode', rest⟩, hinst, text', htext, ⟨⟩⟩
    exact ⟨inst, opcode', rest, text', hinst, htext, rfl⟩
  · rintro ⟨inst, opcode', rest, text', hinst, htext, rfl⟩
    exact ⟨(inst, opcode', rest), hinst, text', htext, rfl⟩

theorem loadText_cons_exits_iff {slot : Inst} {slots : List Inst} {opcode file : List Char} :
    loadText (slot :: slots) opcode file = .error .exits ↔
      loadInst slot opcode file = .error .exits ∨
        ∃ inst opcode' rest, loadInst slot opcode file = .ok (inst, opcode', rest) ∧
          loadText slots opcode' rest = .error .exits := by
  rw [loadText, bind_eq_error_iff]
  simp only [bind_eq_error_iff]
  constructor
  · rintro (h | ⟨⟨inst, opcode', rest⟩, hinst, htext | ⟨_, -, ⟨⟩⟩⟩)
    · exact .inl h
    · exact .inr ⟨inst, opcode', rest, hinst, htext⟩
  · rintro (h | ⟨inst, opcode', rest, hinst, htext⟩)
    · exact .inl h
    · exact .inr ⟨(inst, opcode', rest), hinst, .inl htext⟩

/-! ## The size -/

theorem loadText_length {slots text : List Inst} {opcode file : List Char}
    (h : loadText slots opcode file = .ok text) : text.length = slots.length := by
  induction slots generalizing opcode file text with
  | nil =>
    cases h
    rfl
  | cons slot slots ih =>
    obtain ⟨inst, opcode', rest, text', -, htext, rfl⟩ := loadText_cons_ok_iff.mp h
    rw [List.length_cons, List.length_cons, ih htext]

/-- Whatever the text is, there are as many instructions as `size` says, so `run` finds one at
every `pc` below it. -/
theorem load_length {availPid next : BitVec 32} {raw : Raw} {file : Option (List Char)} {proc : Pcb}
    (h : load availPid raw file = .ok (proc, next)) :
    proc.code.text.length = proc.code.size.toNat := by
  cases file with
  | none => cases h
  | some file =>
    obtain ⟨⟨header, rest⟩, -, hload⟩ := bind_eq_ok_iff.mp h
    obtain ⟨text, htext, hproc⟩ := bind_eq_ok_iff.mp hload
    cases hproc
    rw [loadText_length htext, List.length_map, List.length_range]

end OsSim.Loader
