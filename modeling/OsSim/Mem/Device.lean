import OsSim.Lib.Lts
import OsSim.Mem.Memphy

/-!
# Accesses to a device

`MEMPHY_read` and `MEMPHY_write` on a device made by `init_memphy`
(`src/mm-memphy.c`): the cells are indexed on a random access device, and a
sequential device is accessed through `MEMPHY_seq_read` and `MEMPHY_seq_write`, which
first move the cursor.

**The mode test is the wrong way round.** The comment at the test of
`MEMPHY_seq_read` and `MEMPHY_seq_write` says "not compatible mode for sequential
read", but `!mp->rdmflg` holds on the sequential devices and not on the others.

Results:
* `cursor_memphyMvCsr`: the cursor ends at the address, whatever the device.
* `storage_of_run`: the cells of a random access device after any accesses.
* `refused_of_run`: a sequential device refuses every access and stays as it was made.
* `storesBytes_iff`: which devices store bytes.
-/

namespace OsSim.Mem

/-! ## What a device is for -/

/-- A call of `MEMPHY_read` or `MEMPHY_write`. -/
inductive Access where
  | read (addr : ℤ)
  | write (addr : ℤ) (data : Byte)

def Access.addr : Access → ℤ
  | .read addr => addr
  | .write addr _ => addr

/-- The byte that an access writes at an address. -/
def Access.dataAt (a : ℤ) : Access → Option Byte
  | .read _ => none
  | .write addr data => if addr = a then some data else none

/-- The byte last written at an address, 0 if there is none. -/
def lastWritten (tr : List Access) (a : ℤ) : Byte := (tr.reverse.findSome? (Access.dataAt a)).getD 0

theorem lastWritten_append (tr : List Access) (acc : Access) (a : ℤ) :
    lastWritten (tr ++ [acc]) a = (acc.dataAt a).getD (lastWritten tr a) := by
  rw [lastWritten, List.reverse_append, List.reverse_singleton, List.singleton_append,
    List.findSome?_cons]
  cases acc.dataAt a <;> rfl

/-- The status that a call returns, the byte that is read, and the device after it. -/
def Memphy.access (mp : Memphy) : Access → ℤ × Option Byte × Memphy
  | .read addr => memphyRead mp addr
  | .write addr data => ((memphyWrite mp addr data).1, none, (memphyWrite mp addr data).2)

/-- The addresses of a device. -/
def Memphy.Inside (mp : Memphy) (addr : ℤ) : Prop := 0 ≤ addr ∧ addr < mp.maxsz

/-- A device and any accesses at its addresses. -/
def deviceLts (mp : Memphy) : Lts Memphy Access where
  init s := s = mp
  step s acc s' := s.Inside acc.addr ∧ s' = (s.access acc).2.2

/-- The access does what it is for on a device that holds `bytes`. -/
structure Serves (mp : Memphy) (bytes : ℤ → Byte) (acc : Access) : Prop where
  status : (mp.access acc).1 = 0
  value : ∀ addr, acc = .read addr → (mp.access acc).2.1 = some (bytes addr)
  only : ∀ a, acc.dataAt a = none → (mp.access acc).2.2.storage a = mp.storage a
  seek : mp.rdmflg = 0 → (mp.access acc).2.2.cursor = acc.addr

/-- After any accesses, a device holds what has been written last. -/
def StoresBytes (mp : Memphy) : Prop :=
  ∀ tr s, (deviceLts mp).Run tr s → ∀ acc, s.Inside acc.addr → Serves s (lastWritten tr) acc

/-! ## The cursor -/

theorem iterate_cursor {maxsz : ℤ} (n : ℕ) (h : n < maxsz) :
    (fun c => (c + 1).tmod maxsz)^[n] 0 = (n : ℤ) := by
  induction n with
  | zero => rfl
  | succ n ih =>
    push_cast at h
    rw [Function.iterate_succ_apply', ih (by omega), Int.tmod_eq_of_lt (by omega) h]
    push_cast
    rfl

/-- `MEMPHY_mv_csr` moves the cursor to the address. -/
theorem cursor_memphyMvCsr {mp : Memphy} {addr : ℤ} (h : mp.Inside addr) :
    (memphyMvCsr mp addr).cursor = addr := by
  obtain ⟨h0, h1⟩ := h
  rw [memphyMvCsr, min_eq_left h1.le]
  have hnat : (addr.toNat : ℤ) = addr := Int.toNat_of_nonneg h0
  rw [iterate_cursor addr.toNat (by omega), hnat]

/-- On a random access device, where nothing calls it, `MEMPHY_seq_read` works. -/
theorem memphySeqRead_random {mp : Memphy} (h : mp.rdmflg ≠ 0) {addr : ℤ} (ha : mp.Inside addr) :
    (memphySeqRead mp addr).1 = 0 ∧ (memphySeqRead mp addr).2.1 = some (mp.storage addr) ∧
      (memphySeqRead mp addr).2.2.cursor = addr := by
  rw [memphySeqRead, if_neg h]
  exact ⟨rfl, rfl, cursor_memphyMvCsr ha⟩

/-- On a random access device, where nothing calls it, `MEMPHY_seq_write` works. -/
theorem memphySeqWrite_random {mp : Memphy} (h : mp.rdmflg ≠ 0) {addr : ℤ} (ha : mp.Inside addr)
    (value : Byte) :
    (memphySeqWrite mp addr value).1 = 0 ∧
      (memphySeqWrite mp addr value).2.storage = Function.update mp.storage addr value ∧
      (memphySeqWrite mp addr value).2.cursor = addr := by
  rw [memphySeqWrite, if_neg h]
  exact ⟨rfl, rfl, cursor_memphyMvCsr ha⟩

/-! ## One access -/

section

variable {mp : Memphy}

/-- On a random access device an access succeeds and changes the cells as it says. -/
theorem access_random (h : mp.rdmflg ≠ 0) (acc : Access) :
    (mp.access acc).1 = 0 ∧
      (∀ addr, acc = .read addr → (mp.access acc).2.1 = some (mp.storage addr)) ∧
      (mp.access acc).2.2 = { mp with storage := fun a => (acc.dataAt a).getD (mp.storage a) } := by
  cases acc with
  | read addr =>
    rw [Memphy.access, memphyRead_random h]
    refine ⟨rfl, ?_, rfl⟩
    rintro _ ⟨⟩
    rfl
  | write addr data =>
    rw [Memphy.access, memphyWrite_random h]
    refine ⟨rfl, by rintro _ ⟨⟩, ?_⟩
    simp only [Memphy.mk.injEq, and_true]
    funext a
    rw [Function.update_apply, Access.dataAt]
    by_cases ha : a = addr
    · rw [if_pos ha, if_pos ha.symm]
      rfl
    · rw [if_neg ha, if_neg (Ne.symm ha)]
      rfl

/-- A sequential device refuses an access. -/
theorem access_sequential (h : mp.rdmflg = 0) (acc : Access) : mp.access acc = (-1, none, mp) := by
  cases acc with
  | read addr => rw [Memphy.access, memphyRead, if_neg (not_not.mpr h), memphySeqRead, if_pos h]
  | write addr data =>
    rw [Memphy.access, memphyWrite, if_neg (not_not.mpr h), memphySeqWrite, if_pos h]

/-- No access changes the mode or the size of a device. -/
theorem access_fields (mp : Memphy) (acc : Access) :
    (mp.access acc).2.2.rdmflg = mp.rdmflg ∧ (mp.access acc).2.2.maxsz = mp.maxsz := by
  by_cases h : mp.rdmflg = 0
  · rw [access_sequential h]
    exact ⟨rfl, rfl⟩
  · rw [(access_random h acc).2.2]
    exact ⟨rfl, rfl⟩

end

/-! ## Runs -/

section

variable {mp s : Memphy} {tr : List Access}

theorem fields_of_run (h : (deviceLts mp).Run tr s) :
    s.rdmflg = mp.rdmflg ∧ s.maxsz = mp.maxsz := by
  refine h.invariant (I := fun s => s.rdmflg = mp.rdmflg ∧ s.maxsz = mp.maxsz) ?_ ?_
  · rintro s rfl
    exact ⟨rfl, rfl⟩
  · rintro s acc _ ⟨hr, hm⟩ ⟨-, rfl⟩
    obtain ⟨hr', hm'⟩ := access_fields s acc
    exact ⟨hr'.trans hr, hm'.trans hm⟩

/-- The cells of a random access device hold what has been written last. -/
theorem storage_of_run (hr : mp.rdmflg ≠ 0) (h0 : mp.storage = fun _ => 0)
    (h : (deviceLts mp).Run tr s) : s.rdmflg ≠ 0 ∧ s.storage = lastWritten tr := by
  refine h.history (I := fun tr s => s.rdmflg ≠ 0 ∧ s.storage = lastWritten tr) ?_ ?_
  · rintro s rfl
    exact ⟨hr, h0⟩
  · rintro tr s acc _ ⟨hs, hst⟩ ⟨-, rfl⟩
    rw [(access_random hs acc).2.2]
    refine ⟨hs, ?_⟩
    funext a
    rw [lastWritten_append, ← hst]

/-- A sequential device refuses every access and stays as it was made. -/
theorem refused_of_run (hr : mp.rdmflg = 0) (h : (deviceLts mp).Run tr s) :
    s = mp ∧ ∀ acc, s.access acc = (-1, none, s) := by
  have hs : s = mp := by
    refine h.invariant (I := fun s => s = mp) (fun _ hs => hs) ?_
    rintro s acc _ rfl ⟨-, rfl⟩
    rw [access_sequential hr]
  exact ⟨hs, fun acc => access_sequential (hs ▸ hr) acc⟩

/-- A random access device with cleared cells stores bytes. -/
theorem storesBytes_random (hr : mp.rdmflg ≠ 0) (h0 : mp.storage = fun _ => 0) :
    StoresBytes mp := by
  intro tr s h acc _
  obtain ⟨hs, hst⟩ := storage_of_run hr h0 h
  obtain ⟨hstat, hval, hdev⟩ := access_random hs acc
  refine ⟨hstat, fun addr hread => hst ▸ hval addr hread, fun a ha => ?_, fun h0 => absurd h0 hs⟩
  rw [hdev]
  simp only [ha, Option.getD_none]

/-- A sequential device that has an address does not. -/
theorem not_storesBytes (hr : mp.rdmflg = 0) (hm : 0 < mp.maxsz) : ¬ StoresBytes mp := by
  intro hstores
  have hread := (hstores [] mp (.init rfl) (.read 0) ⟨le_rfl, hm⟩).status
  rw [access_sequential hr] at hread
  cases hread

end

/-! ## Devices made by `init_memphy` -/

theorem storage_initMemphy (raw : Memphy) (next : List ℤ) (maxSize randomflg : ℤ) :
    (initMemphy raw next maxSize randomflg).storage = fun _ => 0 := by
  unfold initMemphy memphyFormat
  simp only
  split_ifs <;> rfl

theorem rdmflg_initMemphy_eq_zero {raw : Memphy} {next : List ℤ} {maxSize randomflg : ℤ} :
    (initMemphy raw next maxSize randomflg).rdmflg = 0 ↔ randomflg = 0 := by
  unfold initMemphy
  simp only
  split_ifs <;> simp_all

/-- A device stores bytes exactly if it is a random access device or has no address. -/
theorem storesBytes_iff (raw : Memphy) (next : List ℤ) (maxSize randomflg : ℤ) :
    StoresBytes (initMemphy raw next maxSize randomflg) ↔ randomflg ≠ 0 ∨ maxSize ≤ 0 := by
  constructor
  · intro h
    by_contra hno
    obtain ⟨hr, hm⟩ := not_or.mp hno
    exact not_storesBytes (rdmflg_initMemphy_eq_zero.mpr (not_not.mp hr))
      (by rw [maxsz_initMemphy]; omega) h
  · rintro (hr | hm)
    · exact storesBytes_random (mt rdmflg_initMemphy_eq_zero.mp hr) (storage_initMemphy ..)
    · intro tr s h acc hin
      have hin' : s.maxsz ≤ 0 := by rw [(fields_of_run h).2, maxsz_initMemphy]; exact hm
      exact absurd hin.2 (by have := hin.1; omega)

/-- The sequential device of one page. -/
theorem not_storesBytes_sequential : ¬ StoresBytes (initMemphy Memphy.zero [] 256 0) :=
  not_storesBytes (rdmflg_initMemphy_eq_zero.mpr rfl) (by rw [maxsz_initMemphy]; decide)

end OsSim.Mem
