import OsSim.Loader.Load

/-!
# The programs that are loaded

A process file is a header `priority size` and `size` instructions, in words that are
separated by white space. `load` is to accept the complete programs and to load the
instructions that they write.

**Truncated and misaligned programs are accepted.** `load` exits where it comes to a word
that is no opcode. It goes on where a conversion of `fscanf` fails: at the end of the
text the last opcode is loaded again, and arguments that are missing are what `malloc`
left. It also takes a number for one that is only the beginning of a word.

Results:
* `loadText_instructions`: the instructions of a complete program are loaded.
* `loadText_of_unknownWord`, `unknownWord_of_loadText`: where `load` exits.
* `acceptsExactly_iff`: the texts on which `load` does what it is for.
-/

namespace OsSim.Loader

open Scanf Mem

/-! ## Programs -/

/-- The word of an opcode. -/
def opcodeWord : InsOpcode → List Char
  | .CALC => optCalc
  | .ALLOC => optAlloc
  | .FREE => optFree
  | .READ => optRead
  | .WRITE => optWrite

/-- The number of arguments of an opcode. -/
def arity : InsOpcode → ℕ
  | .CALC => 0
  | .ALLOC => 2
  | .FREE => 1
  | .READ => 3
  | .WRITE => 3

/-- The words begin with instructions, each an opcode with its arguments. -/
inductive Instructions : List (List Char) → List (InsOpcode × List ℤ) → Prop
  | nil (ws) : Instructions ws []
  | cons {op args ns ws code} (hlen : args.length = arity op) (hns : List.Forall₂ Writes ns args)
    (h : Instructions ws code) : Instructions (opcodeWord op :: (ns ++ ws)) ((op, args) :: code)

/-- A header, and at least as many instructions as it says. -/
structure IsProgram (text : List Char) (priority : ℤ) (code : List (InsOpcode × List ℤ)) :
    Prop where
  header : ∃ p s body, words text = p :: s :: body ∧ Writes p priority ∧
    Writes s code.length ∧ Instructions body code

/-- All numbers of the program fit into an `unsigned int`. -/
structure Fits (priority : ℤ) (code : List (InsOpcode × List ℤ)) : Prop where
  priority : Representable priority
  size : Representable code.length
  args : ∀ ins ∈ code, ∀ v ∈ ins.2, Representable v

/-- The instruction is the one that is written. -/
def HoldsInst (inst : Inst) (ins : InsOpcode × List ℤ) : Prop :=
  inst.opcode = ins.1 ∧
    ([inst.arg0, inst.arg1, inst.arg2].map fun arg => (arg.toNat : ℤ)).take ins.2.length = ins.2

/-- The process is the one that is written. -/
structure Holds (proc : Pcb) (priority : ℤ) (code : List (InsOpcode × List ℤ)) : Prop where
  priority : (proc.priority.toNat : ℤ) = priority
  size : (proc.code.size.toNat : ℤ) = code.length
  text : List.Forall₂ HoldsInst proc.code.text code

/-- Whatever the memory holds that `load` does not initialise: it returns if the text is a complete
program, exits otherwise, and what it returns is that program. -/
structure AcceptsExactly (text : List Char) : Prop where
  sound : ∀ availPid raw proc next, load availPid raw (some text) = .ok (proc, next) →
    ∃ priority code, IsProgram text priority code ∧ Holds proc priority code
  accepts : (∃ priority code, IsProgram text priority code) →
    ∀ availPid raw, ∃ res, load availPid raw (some text) = .ok res
  rejects : (¬ ∃ priority code, IsProgram text priority code) →
    ∀ availPid raw, load availPid raw (some text) = .error .exits

/-! ## Where an unknown word stops `load` -/

/-- One of the first `n` words that stand where an opcode is read is none, and up to there all
numbers fit. -/
inductive UnknownWord : ℕ → List Char → Prop
  | here {n file word rest} (hscan : scanWord file = some (word, rest)) (hlen : word.length < 10)
    (hop : getOpcode word = .error .exits) : UnknownWord (n + 1) file
  | later {n file word rest op args rest'} (hscan : scanWord file = some (word, rest))
    (hlen : word.length < 10) (hop : getOpcode word = .ok op)
    (hargs : scanUints (argFormat op) rest = .ok (args, rest')) (h : UnknownWord n rest') :
    UnknownWord (n + 1) file

/-- The header is there, and an unknown word before `size` instructions have been read. -/
def StopsAtWord (text : List Char) : Prop :=
  ∃ priority size rest, scanUints [.int, .white, .int] text = .ok ([priority, size], rest) ∧
    UnknownWord size.toNat rest

theorem Instructions.length_le {ws : List (List Char)} {code : List (InsOpcode × List ℤ)}
    (h : Instructions ws code) : code.length ≤ ws.length := by
  induction h with
  | nil => exact Nat.zero_le _
  | cons _ _ _ ih =>
    simp only [List.length_cons, List.length_append]
    omega

/-! ## One instruction of a program -/

section

variable {op : InsOpcode} {args : List ℤ} {ns ws : List (List Char)} {file : List Char}

theorem getOpcode_opcodeWord (op : InsOpcode) : getOpcode (opcodeWord op) = .ok op := by
  cases op <;> rfl

theorem opcodeWord_length (op : InsOpcode) : (opcodeWord op).length < 10 := by
  cases op <;> decide

theorem conversions_argFormat (op : InsOpcode) : conversions (argFormat op) = arity op := by
  cases op <;> rfl

theorem arity_le (op : InsOpcode) : arity op ≤ 3 := by
  cases op <;> decide

theorem toNat_ofInt {v : ℤ} (h : Representable v) : ((BitVec.ofInt 32 v).toNat : ℤ) = v := by
  obtain ⟨h0, h1⟩ := h
  rw [BitVec.toNat_ofInt]
  omega

/-- Where an opcode stands next, it is read. -/
theorem scanOpcode_instruction (opcode : List Char) (hw : words file = opcodeWord op :: ws) :
    ∃ rest, scanOpcode opcode file = .ok (opcodeWord op, rest) ∧ words rest = ws := by
  obtain ⟨rest, -, -, hscan, hrest⟩ := scanWord_of_words hw
  exact ⟨rest, scanOpcode_word hscan (opcodeWord_length op) opcode, hrest⟩

/-- Where the arguments of an opcode stand next, they are read. -/
theorem scanInts_instruction (hlen : args.length = arity op) (hns : List.Forall₂ Writes ns args)
    (hw : words file = ns ++ ws) :
    ∃ rest, scanInts (argFormat op) file = (args, rest) ∧ words rest = ws :=
  scanInts_of_words hw hns (hlen.trans (conversions_argFormat op).symm)

/-- The arguments that are set come first. -/
theorem take_setArgs (inst : Inst) {args : List (BitVec 32)} (h : args.length ≤ 3) :
    [(setArgs inst args).arg0, (setArgs inst args).arg1, (setArgs inst args).arg2].take
      args.length = args := by
  rcases args with _ | ⟨a, _ | ⟨b, _ | ⟨c, _ | ⟨d, args⟩⟩⟩⟩
  · rfl
  · rfl
  · rfl
  · rfl
  · simp only [List.length_cons] at h
    omega

theorem holdsInst_setArgs (slot : Inst) (hlen : args.length = arity op)
    (hfit : ∀ v ∈ args, Representable v) :
    HoldsInst (setArgs { slot with opcode := op } (args.map (BitVec.ofInt 32))) (op, args) := by
  have hle : (args.map (BitVec.ofInt 32)).length ≤ 3 := by
    rw [List.length_map, hlen]
    exact arity_le op
  have htake := take_setArgs { slot with opcode := op } hle
  rw [List.length_map] at htake
  refine ⟨rfl, ?_⟩
  rw [← List.map_take, htake, List.map_map]
  calc args.map _ = args.map fun v => v :=
        List.map_congr_left fun v hv => toNat_ofInt (hfit v hv)
    _ = args := List.map_id' args

theorem loadInst_instruction (slot : Inst) (opcode : List Char) (hlen : args.length = arity op)
    (hns : List.Forall₂ Writes ns args) (hfit : ∀ v ∈ args, Representable v)
    (hw : words file = opcodeWord op :: (ns ++ ws)) :
    ∃ inst rest, loadInst slot opcode file = .ok (inst, opcodeWord op, rest) ∧
      words rest = ws ∧ HoldsInst inst (op, args) := by
  obtain ⟨rest, hscan, hrest⟩ := scanOpcode_instruction opcode hw
  obtain ⟨rest', hints, hrest'⟩ := scanInts_instruction hlen hns hrest
  have hargs := scanUints_eq hints
  rw [if_pos hfit] at hargs
  refine ⟨_, rest', loadInst_ok_iff.mpr ?_, hrest', holdsInst_setArgs slot hlen hfit⟩
  exact ⟨rest, op, _, hscan, getOpcode_opcodeWord op, hargs, rfl⟩

end

/-! ## Complete programs -/

/-- The instructions of a complete program are loaded, whatever was in the slots and the buffer. -/
theorem loadText_instructions {ws : List (List Char)} {code : List (InsOpcode × List ℤ)}
    (h : Instructions ws code) (hfit : ∀ ins ∈ code, ∀ v ∈ ins.2, Representable v)
    {slots : List Inst} (hslots : slots.length = code.length) (opcode : List Char)
    {file : List Char} (hw : words file = ws) :
    ∃ text, loadText slots opcode file = .ok text ∧ List.Forall₂ HoldsInst text code := by
  induction h generalizing slots opcode file with
  | nil ws =>
    obtain rfl := List.length_eq_zero_iff.mp hslots
    exact ⟨[], rfl, .nil⟩
  | cons hlen hns h ih =>
    cases slots with
    | nil => simp at hslots
    | cons slot slots =>
      obtain ⟨inst, rest, hinst, hrest, hholds⟩ := loadInst_instruction slot opcode hlen hns
        (hfit _ List.mem_cons_self) hw
      obtain ⟨text, htext, hall⟩ := ih (fun ins hins => hfit ins (List.mem_cons_of_mem _ hins))
        (by simpa using hslots) _ hrest
      exact ⟨inst :: text, loadText_cons_ok_iff.mpr ⟨inst, _, rest, text, hinst, htext, rfl⟩,
        .cons hholds hall⟩

/-! ## Unknown words -/

theorem not_unknownWord_nil (n : ℕ) : ¬ UnknownWord n [] := by
  rintro (⟨⟨⟩⟩ | ⟨⟨⟩⟩)

/-- A complete program has no unknown word. -/
theorem Instructions.not_unknownWord {ws : List (List Char)} {code : List (InsOpcode × List ℤ)}
    (h : Instructions ws code) {file : List Char} (hw : words file = ws) :
    ¬ UnknownWord code.length file := by
  induction h generalizing file with
  | nil ws => rintro ⟨⟩
  | cons hlen hns h ih =>
    intro hu
    obtain ⟨rest, -, -, hscan, hrest⟩ := scanWord_of_words hw
    cases hu with
    | here hscan' _ hop =>
      rw [hscan] at hscan'
      cases hscan'
      rw [getOpcode_opcodeWord] at hop
      cases hop
    | later hscan' _ hop hargs hu =>
      rw [hscan] at hscan'
      cases hscan'
      rw [getOpcode_opcodeWord] at hop
      cases hop
      obtain ⟨rest', hints, hrest'⟩ := scanInts_instruction hlen hns hrest
      rw [scanUints_eq hints] at hargs
      split_ifs at hargs
      cases hargs
      exact ih hrest' hu

theorem loadText_of_unknownWord {n : ℕ} {file : List Char} (h : UnknownWord n file)
    {slots : List Inst} (hslots : slots.length = n) (opcode : List Char) :
    loadText slots opcode file = .error .exits := by
  induction h generalizing slots opcode with
  | @here n file word rest hscan hlen hop =>
    obtain ⟨slot, slots, rfl⟩ := List.exists_cons_of_length_eq_add_one hslots
    have hinst : loadInst slot opcode file = .error .exits :=
      loadInst_exits_iff.mpr ⟨word, rest, scanOpcode_word hscan hlen opcode, hop⟩
    exact loadText_cons_exits_iff.mpr (.inl hinst)
  | @later n file word rest op args rest' hscan hlen hop hargs _ ih =>
    obtain ⟨slot, slots, rfl⟩ := List.exists_cons_of_length_eq_add_one hslots
    have hinst : loadInst slot opcode file =
        .ok (setArgs { slot with opcode := op } args, word, rest') :=
      loadInst_ok_iff.mpr ⟨rest, op, args, scanOpcode_word hscan hlen opcode, hop, hargs, rfl⟩
    have htext : loadText slots word rest' = .error .exits := ih (by simpa using hslots) word
    exact loadText_cons_exits_iff.mpr (.inr ⟨_, word, rest', hinst, htext⟩)

/-- If the buffer holds an opcode, `load` exits only at an unknown word: at the end of the text the
buffer stays as it is. -/
theorem unknownWord_of_loadText {slots : List Inst} {opcode file : List Char} {op : InsOpcode}
    (hop : getOpcode opcode = .ok op) (h : loadText slots opcode file = .error .exits) :
    UnknownWord slots.length file := by
  induction slots generalizing opcode file op with
  | nil => cases h
  | cons slot slots ih =>
    obtain hinst | ⟨inst, opcode', rest', hinst, htext⟩ := loadText_cons_exits_iff.mp h
    · obtain ⟨word, rest, hscan, hop'⟩ := loadInst_exits_iff.mp hinst
      obtain ⟨hscan, hlen⟩ | ⟨-, rfl, -⟩ := scanOpcode_cases hscan
      · exact .here hscan hlen hop'
      · rw [hop] at hop'
        cases hop'
    · obtain ⟨rest, op', args, hscan, hop', hargs, -⟩ := loadInst_ok_iff.mp hinst
      have hunknown := ih hop' htext
      obtain ⟨hscan, hlen⟩ | ⟨-, -, rfl⟩ := scanOpcode_cases hscan
      · exact .later hscan hlen hop' hargs hunknown
      · rw [scanUints_eq (scanInts_nil _)] at hargs
        split_ifs at hargs
        cases hargs
        exact absurd hunknown (not_unknownWord_nil _)

/-! ## `load` -/

/-- Where the header is complete, `load` reads the instructions behind it. -/
theorem load_of_header {text rest : List Char} {priority size : BitVec 32}
    (h : scanUints [.int, .white, .int] text = .ok ([priority, size], rest)) (availPid : BitVec 32)
    (raw : Raw) :
    load availPid raw (some text) =
      (loadText ((List.range size.toNat).map raw.text) raw.opcode rest).map fun insts =>
        ({ pid := availPid, priority, code := { text := insts, size }, pc := 0, bp := pageSize },
          availPid + 1) := by
  unfold load
  simp only [h]
  rfl

/-- The header of a complete program. -/
theorem IsProgram.scanInts_header {text : List Char} {priority : ℤ}
    {code : List (InsOpcode × List ℤ)} (h : IsProgram text priority code) :
    ∃ rest, scanInts [.int, .white, .int] text = ([priority, (code.length : ℤ)], rest) ∧
      Instructions (words rest) code := by
  obtain ⟨p, s, body, hw, hp, hs, hcode⟩ := h.header
  have hpair : words text = [p, s] ++ body := hw
  obtain ⟨rest, hscan, rfl⟩ := scanInts_of_words hpair (.cons hp (.cons hs .nil))
    (rfl : _ = conversions [.int, .white, .int])
  exact ⟨rest, hscan, hcode⟩

/-- A complete program whose numbers fit is loaded. -/
theorem IsProgram.load_eq {text : List Char} {priority : ℤ} {code : List (InsOpcode × List ℤ)}
    (h : IsProgram text priority code) (hfit : Fits priority code) (availPid : BitVec 32)
    (raw : Raw) :
    ∃ proc, load availPid raw (some text) = .ok (proc, availPid + 1) ∧
      Holds proc priority code := by
  obtain ⟨rest, hscan, hcode⟩ := h.scanInts_header
  have hheader := scanUints_eq hscan
  rw [if_pos (List.forall_mem_cons.mpr ⟨hfit.priority, List.forall_mem_singleton.mpr hfit.size⟩)]
    at hheader
  have hsize := toNat_ofInt hfit.size
  have hslots : ((List.range (BitVec.ofInt 32 (code.length : ℤ)).toNat).map raw.text).length =
      code.length := by
    rw [List.length_map, List.length_range]
    omega
  obtain ⟨insts, htext, hall⟩ := loadText_instructions hcode hfit.args hslots raw.opcode rfl
  have hload := load_of_header hheader availPid raw
  rw [htext] at hload
  exact ⟨_, hload, toNat_ofInt hfit.priority, hsize, hall⟩

/-- What an `unsigned int` holds fits. -/
theorem representable_toNat (x : BitVec 32) : Representable x.toNat := by
  have := x.isLt
  constructor <;> omega

theorem representable_args {text : List Inst} {code : List (InsOpcode × List ℤ)}
    (h : List.Forall₂ HoldsInst text code) : ∀ ins ∈ code, ∀ v ∈ ins.2, Representable v := by
  induction h with
  | nil => nofun
  | cons hinst _ ih =>
    refine List.forall_mem_cons.mpr ⟨fun v hv => ?_, ih⟩
    rw [← hinst.2] at hv
    obtain ⟨arg, -, rfl⟩ := List.mem_map.mp (List.mem_of_mem_take hv)
    exact representable_toNat arg

theorem Holds.fits {proc : Pcb} {priority : ℤ} {code : List (InsOpcode × List ℤ)}
    (h : Holds proc priority code) : Fits priority code where
  priority := h.priority ▸ representable_toNat _
  size := h.size ▸ representable_toNat _
  args := representable_args h.text

/-! ## Where `load` exits -/

/-- An unknown word makes `load` exit. -/
theorem StopsAtWord.load_eq {text : List Char} (h : StopsAtWord text) (availPid : BitVec 32)
    (raw : Raw) : load availPid raw (some text) = .error .exits := by
  obtain ⟨priority, size, rest, hheader, hword⟩ := h
  rw [load_of_header hheader, loadText_of_unknownWord hword (by simp)]
  rfl

/-- A text with an unknown word is not a complete program. -/
theorem StopsAtWord.not_isProgram {text : List Char} (h : StopsAtWord text) :
    ¬ ∃ priority code, IsProgram text priority code := by
  rintro ⟨priority, code, hprog⟩
  obtain ⟨_, size, _, hheader, hword⟩ := h
  obtain ⟨rest, hscan, hcode⟩ := hprog.scanInts_header
  rw [scanUints_eq hscan] at hheader
  split_ifs at hheader with hfit
  cases hheader
  have hsize := toNat_ofInt (hfit code.length (by simp))
  rw [show (BitVec.ofInt 32 (code.length : ℤ)).toNat = code.length by omega] at hword
  exact hcode.not_unknownWord rfl hword

/-- With an opcode in the buffer and no size, `load` exits only at an unknown word. -/
theorem stopsAtWord_of_load {text : List Char} {availPid : BitVec 32} {raw : Raw} {op : InsOpcode}
    (hop : getOpcode raw.opcode = .ok op) (hsize : raw.size = 0)
    (h : load availPid raw (some text) = .error .exits) : StopsAtWord text := by
  obtain hscan | ⟨⟨header, rest⟩, hscan, hload⟩ := bind_eq_error_iff.mp h
  · exact absurd hscan (scanUints_ne_exits _ _)
  · obtain htext | ⟨_, -, ⟨⟩⟩ := bind_eq_error_iff.mp hload
    have hlen : header.length ≤ 2 := by
      have hle := scanInts_length_le [.int, .white, .int] text
      rw [scanUints_eq (Prod.mk.eta).symm] at hscan
      split_ifs at hscan
      cases hscan
      rw [List.length_map]
      exact hle
    have hword := unknownWord_of_loadText hop htext
    rw [List.length_map, List.length_range] at hword
    rcases header with _ | ⟨priority, _ | ⟨size, _ | ⟨x, header⟩⟩⟩
    · simp [hsize] at hword
      cases hword
    · simp [hsize] at hword
      cases hword
    · exact ⟨priority, size, rest, hscan, hword⟩
    · simp only [List.length_cons] at hlen
      omega

/-! ## The texts on which `load` does what it is for -/

theorem IsProgram.acceptsExactly {text : List Char} {priority : ℤ}
    {code : List (InsOpcode × List ℤ)} (h : IsProgram text priority code)
    (hfit : Fits priority code) : AcceptsExactly text where
  sound availPid raw proc next hload := by
    obtain ⟨proc', heq, hholds⟩ := h.load_eq hfit availPid raw
    rw [heq] at hload
    cases hload
    exact ⟨priority, code, h, hholds⟩
  accepts _ availPid raw := by
    obtain ⟨proc, heq, -⟩ := h.load_eq hfit availPid raw
    exact ⟨(proc, availPid + 1), heq⟩
  rejects hno := absurd ⟨priority, code, h⟩ hno

theorem StopsAtWord.acceptsExactly {text : List Char} (h : StopsAtWord text) :
    AcceptsExactly text where
  sound availPid raw proc next hload := by
    rw [h.load_eq availPid raw] at hload
    cases hload
  accepts hprog := absurd hprog h.not_isProgram
  rejects _ := h.load_eq

/-- `load` accepts exactly the complete programs, and loads them, on the complete programs whose
numbers fit and on the texts with an unknown word where an opcode is read. -/
theorem acceptsExactly_iff (text : List Char) :
    AcceptsExactly text ↔
      (∃ priority code, IsProgram text priority code ∧ Fits priority code) ∨ StopsAtWord text := by
  constructor
  · intro h
    -- the memory that makes `load` go on: an opcode in the buffer, and no size
    let raw : Raw := ⟨0, 0, optCalc, fun _ => ⟨.CALC, 0, 0, 0⟩⟩
    by_cases hprog : ∃ priority code, IsProgram text priority code
    · obtain ⟨⟨proc, next⟩, hload⟩ := h.accepts hprog 0 raw
      obtain ⟨priority, code, hprog, hholds⟩ := h.sound 0 raw proc next hload
      exact .inl ⟨priority, code, hprog, hholds.fits⟩
    · exact .inr (stopsAtWord_of_load (getOpcode_opcodeWord .CALC) rfl (h.rejects hprog 0 raw))
  · rintro (⟨priority, code, hprog, hfit⟩ | hstop)
    · exact hprog.acceptsExactly hfit
    · exact hstop.acceptsExactly

/-- A text with one instruction that says it has two. -/
theorem not_acceptsExactly_truncated : ¬ AcceptsExactly "1 2\ncalc\n".toList := by
  intro h
  let slot : Inst := ⟨.CALC, 0, 0, 0⟩
  have hload : load 1 ⟨0, 0, [], fun _ => slot⟩ (some "1 2\ncalc\n".toList) =
      .ok ({ pid := 1, priority := 1, code := { text := [slot, slot], size := 2 }, pc := 0,
             bp := pageSize }, 2) := by
    decide
  obtain ⟨priority, code, hprog, hholds⟩ := h.sound _ _ _ _ hload
  obtain ⟨p, s, body, hw, -, -, hcode⟩ := hprog.header
  have hwords : words "1 2\ncalc\n".toList = [['1'], ['2'], ['c', 'a', 'l', 'c']] := by decide
  rw [hwords] at hw
  cases hw
  have hsize : (2 : ℤ) = code.length := hholds.size
  have hle : code.length ≤ 1 := hcode.length_le
  omega

end OsSim.Loader
