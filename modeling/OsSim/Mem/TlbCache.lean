import OsSim.Mem.Bits
import Mathlib.Data.List.Basic

/-!
# The TLB cache

Models of `src/cpu-tlbcache.c` with the entry layout of
`include/cpu-tlbcache.h`: a fully associative cache of 64-bit entries. The
three operations scan the entries from index 0; a write replaces the entry of
its key, else the first invalid entry, else a random one. The values that
`rand()` will return are part of the state.

Results:
* `tlbValid_setTlbEntry`, `tlbTag_setTlbEntry`, `tlbPid_setTlbEntry`,
  `tlbFrmnum_setTlbEntry`: the fields of a written entry.
* `TlbUnique`: at most one valid entry for each key; kept by the operations.
* `tlbCacheWrite_spec`, `tlbCacheInvalidate_spec`: the valid entries after an
  operation. Invalidation stops at the first match, so that no entry of the key
  is left rests on `TlbUnique`.
-/

namespace OsSim.Mem

open BitField

/-- `TLB_entry_t`. -/
abbrev TlbEntry := BitVec 64

/-! ## Entry layout -/

/-- `TLB_ENTRY_VALID_MASK`. -/
def tlbEntryValidMask : BitVec 64 := 1#64 <<< 59

/-- `TLB_ENTRY_TAG_MASK`. -/
def tlbEntryTagMask : BitVec 64 := genmask 64 58 45

/-- `TLB_ENTRY_PID_MASK`. -/
def tlbEntryPidMask : BitVec 64 := genmask 64 44 13

/-- `TLB_ENTRY_FRMNUM_MASK`. -/
def tlbEntryFrmnumMask : BitVec 64 := genmask 64 12 0

/-- `TLB_VALID(x)`. -/
def tlbValid (x : TlbEntry) : BitVec 64 := getval x tlbEntryValidMask 59

/-- `TLB_TAG(x)`. -/
def tlbTag (x : TlbEntry) : BitVec 64 := getval x tlbEntryTagMask 45

/-- `TLB_PID(x)`. -/
def tlbPid (x : TlbEntry) : BitVec 64 := getval x tlbEntryPidMask 13

/-- `TLB_FRMNUM(x)`. -/
def tlbFrmnum (x : TlbEntry) : BitVec 64 := getval x tlbEntryFrmnumMask 0

/-- `SET_TLB_VALID(x, value)`. -/
def setTlbValid (x : TlbEntry) (value : ℤ) : TlbEntry :=
  setval x (BitVec.ofInt 64 value) tlbEntryValidMask 59

/-- `set_TLB_entry` (lines 38–44). -/
def setTlbEntry (valid pgnum pid frmnum : ℤ) : TlbEntry :=
  let entry := setTlbValid 0 valid
  let entry := setval entry (BitVec.ofInt 64 pgnum) tlbEntryTagMask 45
  let entry := setval entry (BitVec.ofInt 64 pid) tlbEntryPidMask 13
  setval entry (BitVec.ofInt 64 frmnum) tlbEntryFrmnumMask 0

/-! ## Operations -/

/-- The TLB's `memphy_struct`, seen through `(TLB_entry_t *)mp->storage`, with the values that
`rand()` will return. -/
structure Tlb where
  entries : List TlbEntry
  rand : ℕ → ℕ

/-- The comparison of `tlb_cache_read` and `tlb_cache_write`. -/
def tlbHit (pid pgnum : ℤ) (entry : TlbEntry) : Bool :=
  tlbValid entry != 0 && tlbTag entry == BitVec.ofInt 64 pgnum &&
    tlbPid entry == BitVec.ofInt 64 pid

/-- The comparison of `tlb_cache_invalidate`. -/
def tlbInvalidates (pid pgnum : ℤ) (entry : TlbEntry) : Bool :=
  tlbValid entry != 0 && tlbPid entry == BitVec.ofInt 64 pid &&
    (decide (pgnum < 0) || tlbTag entry == BitVec.ofInt 64 pgnum)

/-- `tlb_cache_read` (lines 53–77): `*frmnum`; the status is always 0. -/
def tlbCacheRead (tlb : Tlb) (pid pgnum : ℤ) : ℤ :=
  match tlb.entries.find? (tlbHit pid pgnum) with
  | some entry => (tlbFrmnum entry).toNat
  | none => -1

/-- `tlb_cache_write` (lines 86–137); the status is always 0. -/
def tlbCacheWrite (tlb : Tlb) (pid pgnum value : ℤ) : Tlb :=
  let entry := setTlbEntry 1 pgnum pid value
  match tlb.entries.findIdx? (tlbHit pid pgnum) with
  | some index => { tlb with entries := tlb.entries.set index entry }
  | none =>
    match tlb.entries.findIdx? (fun entry => tlbValid entry == 0) with
    | some index => { tlb with entries := tlb.entries.set index entry }
    | none =>
      let r := tlb.rand 0 % tlb.entries.length
      { entries := tlb.entries.set r entry, rand := fun n => tlb.rand (n + 1) }

/-- `tlb_cache_invalidate` (lines 140–172): the status and the cache. -/
def tlbCacheInvalidate (tlb : Tlb) (pid pgnum : ℤ) : ℤ × Tlb :=
  if pgnum = -1 then
    (if tlb.entries.any (tlbInvalidates pid pgnum) then 0 else -1,
      { tlb with entries := tlb.entries.map fun entry =>
          if tlbInvalidates pid pgnum entry then setTlbValid entry 0 else entry })
  else
    match tlb.entries.findIdx? (tlbInvalidates pid pgnum) with
    | some index =>
      (0, { tlb with entries := tlb.entries.modify index (setTlbValid · 0) })
    | none => (-1, tlb)

/-! ## The fields of a written entry -/

theorem tlbEntryValidMask_eq : tlbEntryValidMask = genmask 64 59 59 := by decide

theorem tlbValid_setTlbEntry (pgnum pid frmnum : ℤ) :
    tlbValid (setTlbEntry 1 pgnum pid frmnum) = 1 := by
  unfold tlbValid setTlbEntry setTlbValid
  simp only
  rw [getval_setval_of_disjoint (by decide), getval_setval_of_disjoint (by decide),
    getval_setval_of_disjoint (by decide)]
  decide

theorem tlbTag_setTlbEntry_mod (valid pgnum pid frmnum : ℤ) :
    ((tlbTag (setTlbEntry valid pgnum pid frmnum)).toNat : ℤ) = pgnum % 2 ^ 14 := by
  unfold tlbTag setTlbEntry
  simp only
  rw [getval_setval_of_disjoint (by decide), getval_setval_of_disjoint (by decide)]
  unfold tlbEntryTagMask
  rw [getval_setval_toNat (by norm_num) (by norm_num), BitVec.toNat_ofInt]
  omega

theorem tlbPid_setTlbEntry_mod (valid pgnum pid frmnum : ℤ) :
    ((tlbPid (setTlbEntry valid pgnum pid frmnum)).toNat : ℤ) = pid % 2 ^ 32 := by
  unfold tlbPid setTlbEntry
  simp only
  rw [getval_setval_of_disjoint (by decide)]
  unfold tlbEntryPidMask
  rw [getval_setval_toNat (by norm_num) (by norm_num), BitVec.toNat_ofInt]
  omega

theorem tlbFrmnum_setTlbEntry_mod (valid pgnum pid frmnum : ℤ) :
    ((tlbFrmnum (setTlbEntry valid pgnum pid frmnum)).toNat : ℤ) = frmnum % 2 ^ 13 := by
  unfold tlbFrmnum setTlbEntry
  simp only
  unfold tlbEntryFrmnumMask
  rw [getval_setval_toNat (by norm_num) (by norm_num), BitVec.toNat_ofInt]
  omega

theorem tlbTag_setTlbEntry {pgnum : ℤ} (h0 : 0 ≤ pgnum) (h1 : pgnum < 2 ^ 14)
    (valid pid frmnum : ℤ) : tlbTag (setTlbEntry valid pgnum pid frmnum) =
      BitVec.ofInt 64 pgnum := by
  have h := tlbTag_setTlbEntry_mod valid pgnum pid frmnum
  rw [← BitVec.toNat_inj, BitVec.toNat_ofInt]
  omega

theorem tlbPid_setTlbEntry {pid : ℤ} (h0 : 0 ≤ pid) (h1 : pid < 2 ^ 32)
    (valid pgnum frmnum : ℤ) : tlbPid (setTlbEntry valid pgnum pid frmnum) =
      BitVec.ofInt 64 pid := by
  have h := tlbPid_setTlbEntry_mod valid pgnum pid frmnum
  rw [← BitVec.toNat_inj, BitVec.toNat_ofInt]
  omega

theorem tlbValid_setTlbValid_zero (entry : TlbEntry) : tlbValid (setTlbValid entry 0) = 0 := by
  unfold tlbValid setTlbValid
  rw [tlbEntryValidMask_eq, ← BitVec.toNat_inj, getval_setval_toNat (by norm_num) (by norm_num)]
  rfl

theorem tlbTag_lt (entry : TlbEntry) : (tlbTag entry).toNat < 2 ^ 14 := by
  unfold tlbTag tlbEntryTagMask
  rw [getval_genmask_toNat (by norm_num) (by norm_num)]
  omega

/-! ## Uniqueness -/

/-- The valid bit of an entry is set. -/
def TlbEntry.Valid (entry : TlbEntry) : Prop := tlbValid entry ≠ 0

/-- The key of an entry. -/
def TlbEntry.key (entry : TlbEntry) : BitVec 64 × BitVec 64 := (tlbPid entry, tlbTag entry)

/-- The key `(pid, pgnum)` as the comparisons see it. -/
def tlbKey (pid pgnum : ℤ) : BitVec 64 × BitVec 64 := (BitVec.ofInt 64 pid, BitVec.ofInt 64 pgnum)

/-- At most one valid entry for each key. -/
def TlbUnique (tlb : Tlb) : Prop :=
  ∀ (i j : ℕ) (e e' : TlbEntry), tlb.entries[i]? = some e → tlb.entries[j]? = some e' →
    e.Valid → e'.Valid → e.key = e'.key → i = j

theorem tlbHit_iff (pid pgnum : ℤ) (entry : TlbEntry) :
    tlbHit pid pgnum entry = true ↔ entry.Valid ∧ entry.key = tlbKey pid pgnum := by
  simp only [tlbHit, TlbEntry.Valid, TlbEntry.key, tlbKey, Bool.and_eq_true, bne_iff_ne,
    beq_iff_eq, Prod.mk.injEq]
  tauto

theorem tlbInvalidates_iff {pgnum : ℤ} (h : 0 ≤ pgnum) (pid : ℤ) (entry : TlbEntry) :
    tlbInvalidates pid pgnum entry = true ↔ entry.Valid ∧ entry.key = tlbKey pid pgnum := by
  simp only [tlbInvalidates, TlbEntry.Valid, TlbEntry.key, tlbKey, Bool.and_eq_true, bne_iff_ne,
    beq_iff_eq, Prod.mk.injEq, Bool.or_eq_true, decide_eq_true_eq]
  constructor
  · rintro ⟨⟨h1, h2⟩, h3 | h3⟩
    · omega
    · exact ⟨h1, h2, h3⟩
  · rintro ⟨h1, h2, h3⟩
    exact ⟨⟨h1, h2⟩, Or.inr h3⟩

theorem key_setTlbEntry {pid pgnum : ℤ} (hp0 : 0 ≤ pid) (hp1 : pid < 2 ^ 32) (hg0 : 0 ≤ pgnum)
    (hg1 : pgnum < 2 ^ 14) (frmnum : ℤ) :
    (setTlbEntry 1 pgnum pid frmnum).key = tlbKey pid pgnum := by
  rw [TlbEntry.key, tlbPid_setTlbEntry hp0 hp1, tlbTag_setTlbEntry hg0 hg1, tlbKey]

/-- What is left after an entry is overwritten at an index such that no other valid entry has
the new entry's key. -/
theorem set_spec {entries : List TlbEntry} {rand rand' : ℕ → ℕ} {index : ℕ} {new : TlbEntry}
    (hu : TlbUnique ⟨entries, rand⟩)
    (hother : ∀ (j : ℕ) (e : TlbEntry),
      entries[j]? = some e → e.Valid → e.key = new.key → j = index) :
    TlbUnique ⟨entries.set index new, rand'⟩ ∧
      ∀ e ∈ entries.set index new, e.Valid → e = new ∨ (e ∈ entries ∧ e.key ≠ new.key) := by
  have hget : ∀ (j : ℕ) (e : TlbEntry), (entries.set index new)[j]? = some e →
      (j = index ∧ e = new) ∨ (j ≠ index ∧ entries[j]? = some e) := by
    intro j e h
    rw [List.getElem?_set] at h
    split_ifs at h with h1 h2
    · left
      exact ⟨h1.symm, (Option.some.inj h).symm⟩
    · right
      exact ⟨fun h2 => h1 h2.symm, h⟩
  constructor
  · intro i j e e' h1 h2 hv hv' hk
    obtain ⟨rfl, rfl⟩ | ⟨hni, hi⟩ := hget i e h1 <;> obtain ⟨rfl, rfl⟩ | ⟨hnj, hj⟩ := hget j e' h2
    · rfl
    · exact absurd (hother j e' hj hv' hk.symm) hnj
    · exact absurd (hother i e hi hv hk) hni
    · exact hu i j e e' hi hj hv hv' hk
  · intro e he hv
    obtain ⟨j, hj⟩ := List.mem_iff_getElem?.mp he
    obtain ⟨-, rfl⟩ | ⟨hnj, hj⟩ := hget j e hj
    · exact Or.inl rfl
    · exact Or.inr ⟨List.mem_iff_getElem?.mpr ⟨j, hj⟩, fun hk => hnj (hother j e hj hv hk)⟩

/-- What a write leaves valid. -/
theorem tlbCacheWrite_spec {tlb : Tlb} (hu : TlbUnique tlb) {pid pgnum : ℤ} (hp0 : 0 ≤ pid)
    (hp1 : pid < 2 ^ 32) (hg0 : 0 ≤ pgnum) (hg1 : pgnum < 2 ^ 14) (value : ℤ) :
    TlbUnique (tlbCacheWrite tlb pid pgnum value) ∧
      ∀ e ∈ (tlbCacheWrite tlb pid pgnum value).entries, e.Valid →
        e = setTlbEntry 1 pgnum pid value ∨ (e ∈ tlb.entries ∧ e.key ≠ tlbKey pid pgnum) := by
  have hkey := key_setTlbEntry hp0 hp1 hg0 hg1 value
  unfold tlbCacheWrite
  simp only
  cases hf : tlb.entries.findIdx? (tlbHit pid pgnum) with
  | some index =>
    obtain ⟨hlt, hhit, -⟩ := List.findIdx?_eq_some_iff_getElem.mp hf
    obtain ⟨hv, hk⟩ := (tlbHit_iff pid pgnum _).mp hhit
    rw [← hkey]
    refine set_spec hu fun j e hj hve hke => ?_
    exact hu j index e _ hj (List.getElem?_eq_getElem hlt) hve hv (by rw [hke, hkey, hk])
  | none =>
    have hno : ∀ e ∈ tlb.entries, e.Valid → e.key ≠ tlbKey pid pgnum := by
      intro e he hv hk
      have := List.findIdx?_eq_none_iff.mp hf e he
      rw [(tlbHit_iff pid pgnum e).mpr ⟨hv, hk⟩] at this
      cases this
    have hother : ∀ (index j : ℕ) (e : TlbEntry), tlb.entries[j]? = some e → e.Valid →
        e.key = (setTlbEntry 1 pgnum pid value).key → j = index := by
      intro index j e hj hv hk
      exact absurd (hk.trans hkey) (hno e (List.mem_iff_getElem?.mpr ⟨j, hj⟩) hv)
    rw [← hkey]
    cases tlb.entries.findIdx? (fun entry => tlbValid entry == 0) with
    | some index => exact set_spec hu (hother index)
    | none => exact set_spec hu (hother _)

/-- What an invalidation of one key leaves valid. -/
theorem tlbCacheInvalidate_spec {tlb : Tlb} (hu : TlbUnique tlb) {pgnum : ℤ} (hg0 : 0 ≤ pgnum)
    (pid : ℤ) :
    TlbUnique (tlbCacheInvalidate tlb pid pgnum).2 ∧
      ∀ e ∈ (tlbCacheInvalidate tlb pid pgnum).2.entries, e.Valid →
        e ∈ tlb.entries ∧ e.key ≠ tlbKey pid pgnum := by
  unfold tlbCacheInvalidate
  rw [if_neg (by omega)]
  cases hf : tlb.entries.findIdx? (tlbInvalidates pid pgnum) with
  | none =>
    refine ⟨hu, fun e he hv => ⟨he, fun hk => ?_⟩⟩
    have := List.findIdx?_eq_none_iff.mp hf e he
    rw [(tlbInvalidates_iff hg0 pid e).mpr ⟨hv, hk⟩] at this
    cases this
  | some index =>
    obtain ⟨hlt, hinv, -⟩ := List.findIdx?_eq_some_iff_getElem.mp hf
    obtain ⟨hv0, hk0⟩ := (tlbInvalidates_iff hg0 pid _).mp hinv
    -- a valid entry that is left was there before, at another index
    have hget : ∀ (j : ℕ) (e : TlbEntry),
        (tlb.entries.modify index (setTlbValid · 0))[j]? = some e → e.Valid →
          j ≠ index ∧ tlb.entries[j]? = some e := by
      intro j e h hv
      rw [List.getElem?_modify] at h
      cases hj : tlb.entries[j]? with
      | none => simp [hj] at h
      | some e0 =>
        rw [hj] at h
        split_ifs at h with h1
        · rw [← Option.some.inj h] at hv
          exact absurd (tlbValid_setTlbValid_zero e0) hv
        · exact ⟨fun h2 => h1 h2.symm, h⟩
    constructor
    · intro i j e e' hi hj hv hv' hk
      exact hu i j e e' (hget i e hi hv).2 (hget j e' hj hv').2 hv hv' hk
    · intro e he hv
      obtain ⟨j, hj⟩ := List.mem_iff_getElem?.mp he
      obtain ⟨hne, hj⟩ := hget j e hj hv
      refine ⟨List.mem_iff_getElem?.mpr ⟨j, hj⟩, fun hk => hne ?_⟩
      exact hu j index e _ hj (List.getElem?_eq_getElem hlt) hv hv0 (hk.trans hk0.symm)

/-! ## Reading -/

/-- A hit returns the frame number of a valid entry of the key. -/
theorem tlbCacheRead_hit {tlb : Tlb} {pid pgnum : ℤ} (h : 0 ≤ tlbCacheRead tlb pid pgnum) :
    ∃ e ∈ tlb.entries, e.Valid ∧ e.key = tlbKey pid pgnum ∧
      tlbCacheRead tlb pid pgnum = (tlbFrmnum e).toNat := by
  unfold tlbCacheRead at h ⊢
  cases hf : tlb.entries.find? (tlbHit pid pgnum) with
  | none =>
    rw [hf] at h
    simp at h
  | some e =>
    obtain ⟨hv, hk⟩ := (tlbHit_iff pid pgnum e).mp (List.find?_some hf)
    exact ⟨e, List.mem_of_find?_eq_some hf, hv, hk, rfl⟩

theorem tlbCacheRead_miss {tlb : Tlb} {pid pgnum : ℤ} (h : tlbCacheRead tlb pid pgnum < 0) :
    ∀ e ∈ tlb.entries, e.Valid → e.key ≠ tlbKey pid pgnum := by
  intro e he hv hk
  unfold tlbCacheRead at h
  cases hf : tlb.entries.find? (tlbHit pid pgnum) with
  | none => exact List.find?_eq_none.mp hf e he ((tlbHit_iff pid pgnum e).mpr ⟨hv, hk⟩)
  | some e' =>
    rw [hf] at h
    simp only at h
    omega

end OsSim.Mem
