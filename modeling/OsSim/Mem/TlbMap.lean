import OsSim.Lib.LossyMap
import OsSim.Lib.Lts
import OsSim.Mem.TlbCache

/-!
# The TLB cache as a lossy map

Sequences of `tlb_cache_write` and `tlb_cache_invalidate` on a cache of any
number of entries, with any outcomes of `rand()`. What `tlb_cache_read` finds is
the contents of a lossy map whose keys are pairs of a pid and a page number.

Results:
* `tlbCacheWrite_put`, `tlbCacheInvalidate_del`: the calls put and delete.
* `tlbCacheWrite_room`: a write into a cache with an invalid entry forgets
  nothing.
* `lossyTlb_of_run`: the cache is a correct lossy map in every run.
-/

namespace OsSim.Mem

open LossyMap

/-- A pid and a page number. -/
@[ext] structure TlbKey where
  pid : ℤ
  pgnum : ℤ
  pid_pos : 1 ≤ pid
  pid_lt : pid < 2 ^ 31
  pgnum_nonneg : 0 ≤ pgnum
  pgnum_lt : pgnum < 2 ^ 14
  deriving DecidableEq

/-- The pids of processes. -/
abbrev TlbPid := { pid : ℤ // 1 ≤ pid ∧ pid < 2 ^ 31 }

/-- A call that changes the cache. -/
inductive TlbCall where
  | write (k : TlbKey) (value : Fin (2 ^ 13))
  | invalidate (k : TlbKey)
  | flush (pid : TlbPid)

/-- Carry out a call. -/
def TlbCall.exec (tlb : Tlb) : TlbCall → Tlb
  | .write k value => tlbCacheWrite tlb k.pid k.pgnum (value : ℕ)
  | .invalidate k => (tlbCacheInvalidate tlb k.pid k.pgnum).2
  | .flush pid => (tlbCacheInvalidate tlb pid (-1)).2

/-- What the call means for a map. -/
def TlbCall.op : TlbCall → Op TlbKey ℤ
  | .write k value => .put k (value : ℕ)
  | .invalidate k => .del fun k' => k' = k
  | .flush pid => .del fun k' => k'.pid = pid

/-- A cache of at least one entry, none of them valid, on which calls are carried out. The random
numbers are part of the cache. -/
def tlbLts : Lts Tlb TlbCall where
  init tlb := tlb.entries ≠ [] ∧ ∀ e ∈ tlb.entries, ¬ e.Valid
  step tlb a tlb' := tlb' = a.exec tlb

/-- What `tlb_cache_read` finds for a key, `none` for -1. -/
def Tlb.lookup (tlb : Tlb) (k : TlbKey) : Option ℤ :=
  let frmnum := tlbCacheRead tlb k.pid k.pgnum
  if frmnum = -1 then none else some frmnum

/-! ## Keys and entries -/

/-- The key as the comparisons see it. -/
def TlbKey.bits (k : TlbKey) : BitVec 64 × BitVec 64 := tlbKey k.pid k.pgnum

theorem TlbKey.bits_inj {k k' : TlbKey} (h : k.bits = k'.bits) : k = k' := by
  have h1 := k.pid_pos
  have h2 := k.pid_lt
  have h3 := k.pgnum_nonneg
  have h4 := k.pgnum_lt
  have h1' := k'.pid_pos
  have h2' := k'.pid_lt
  have h3' := k'.pgnum_nonneg
  have h4' := k'.pgnum_lt
  obtain ⟨hp, hg⟩ := Prod.mk.inj h
  rw [← BitVec.toNat_inj, BitVec.toNat_ofInt, BitVec.toNat_ofInt] at hp hg
  exact TlbKey.ext (by omega) (by omega)

theorem TlbKey.key_setTlbEntry (k : TlbKey) (value : ℤ) :
    (setTlbEntry 1 k.pgnum k.pid value).key = k.bits := by
  have h1 := k.pid_pos
  have h2 := k.pid_lt
  exact Mem.key_setTlbEntry (by omega) (by omega) k.pgnum_nonneg k.pgnum_lt value

theorem valid_setTlbEntry (pgnum pid value : ℤ) : (setTlbEntry 1 pgnum pid value).Valid := by
  unfold TlbEntry.Valid
  rw [tlbValid_setTlbEntry]
  decide

theorem TlbUnique.eq_of_key {tlb : Tlb} (hu : TlbUnique tlb) {e e' : TlbEntry}
    (he : e ∈ tlb.entries) (he' : e' ∈ tlb.entries) (hv : e.Valid) (hv' : e'.Valid)
    (hk : e.key = e'.key) : e = e' := by
  obtain ⟨i, hi⟩ := List.mem_iff_getElem?.mp he
  obtain ⟨j, hj⟩ := List.mem_iff_getElem?.mp he'
  obtain rfl := hu i j e e' hi hj hv hv' hk
  exact Option.some.inj (hi.symm.trans hj)

/-- The cache finds a value exactly if it has a valid entry with it. -/
theorem lookup_eq_some_iff {tlb : Tlb} (hu : TlbUnique tlb) {k : TlbKey} {v : ℤ} :
    tlb.lookup k = some v ↔
      ∃ e ∈ tlb.entries, e.Valid ∧ e.key = k.bits ∧ ((tlbFrmnum e).toNat : ℤ) = v := by
  unfold Tlb.lookup
  simp only
  constructor
  · intro h
    split_ifs at h with hmiss
    have hpos : 0 ≤ tlbCacheRead tlb k.pid k.pgnum := by
      unfold tlbCacheRead at hmiss ⊢
      split <;> simp_all
    obtain ⟨e, he, hv, hk, hread⟩ := tlbCacheRead_hit hpos
    exact ⟨e, he, hv, hk, hread.symm.trans (Option.some.inj h)⟩
  · rintro ⟨e, he, hv, hk, rfl⟩
    have hpos : 0 ≤ tlbCacheRead tlb k.pid k.pgnum := by
      by_contra hneg
      exact tlbCacheRead_miss (not_le.mp hneg) e he hv hk
    obtain ⟨e', he', hv', hk', hread⟩ := tlbCacheRead_hit hpos
    have heq : e' = e := hu.eq_of_key he' he hv' hv (hk'.trans hk.symm)
    rw [if_neg (by omega), hread, heq]

theorem lookup_eq_none_iff {tlb : Tlb} (hu : TlbUnique tlb) {k : TlbKey} :
    tlb.lookup k = none ↔ ∀ e ∈ tlb.entries, e.Valid → e.key ≠ k.bits := by
  rw [← not_iff_not, ← ne_eq, Option.ne_none_iff_exists']
  simp only [lookup_eq_some_iff hu]
  push Not
  constructor
  · rintro ⟨_, e, he, hv, hk, -⟩
    exact ⟨e, he, hv, hk⟩
  · rintro ⟨e, he, hv, hk⟩
    exact ⟨_, e, he, hv, hk, rfl⟩

/-! ## Writing -/

/-- The index at which a write puts its entry: that of the key, else one that is invalid, else,
when all are valid, any. -/
theorem tlbCacheWrite_index {tlb : Tlb} (hne : tlb.entries ≠ []) (pid pgnum value : ℤ) :
    ∃ index old, tlb.entries[index]? = some old ∧
      (tlbCacheWrite tlb pid pgnum value).entries =
        tlb.entries.set index (setTlbEntry 1 pgnum pid value) ∧
      (old.key = tlbKey pid pgnum ∨ ¬ old.Valid ∨ ∀ e ∈ tlb.entries, e.Valid) := by
  unfold tlbCacheWrite
  simp only
  cases hf : tlb.entries.findIdx? (tlbHit pid pgnum) with
  | some index =>
    obtain ⟨hlt, hhit, -⟩ := List.findIdx?_eq_some_iff_getElem.mp hf
    exact ⟨index, _, List.getElem?_eq_getElem hlt, rfl, .inl ((tlbHit_iff pid pgnum _).mp hhit).2⟩
  | none =>
    cases hf' : tlb.entries.findIdx? (fun entry => tlbValid entry == 0) with
    | some index =>
      obtain ⟨hlt, hinv, -⟩ := List.findIdx?_eq_some_iff_getElem.mp hf'
      refine ⟨index, _, List.getElem?_eq_getElem hlt, rfl, .inr (.inl fun hv => hv ?_)⟩
      simpa using hinv
    | none =>
      have hlt : tlb.rand 0 % tlb.entries.length < tlb.entries.length :=
        Nat.mod_lt _ (List.length_pos_of_ne_nil hne)
      refine ⟨_, _, List.getElem?_eq_getElem hlt, rfl, .inr (.inr fun e he hv => ?_)⟩
      have := List.findIdx?_eq_none_iff.mp hf' e he
      simp [hv] at this

/-- A valid entry that a write has overwritten is the one at its index. -/
theorem getElem?_of_not_mem_set {entries : List TlbEntry} {index : ℕ} {e new : TlbEntry}
    (he : e ∈ entries) (hgone : e ∉ entries.set index new) : entries[index]? = some e := by
  obtain ⟨j, hj⟩ := List.mem_iff_getElem?.mp he
  by_cases hji : index = j
  · exact hji ▸ hj
  · refine absurd (List.mem_iff_getElem?.mpr ⟨j, ?_⟩) hgone
    rw [List.getElem?_set_ne hji]
    exact hj

section Write

variable {tlb : Tlb} (hu : TlbUnique tlb) (hne : tlb.entries ≠ []) (k : TlbKey) (v : Fin (2 ^ 13))
include hu

theorem unique_write : TlbUnique (tlbCacheWrite tlb k.pid k.pgnum (v : ℕ)) := by
  have h1 := k.pid_pos
  have h2 := k.pid_lt
  exact (tlbCacheWrite_spec hu (by omega) (by omega) k.pgnum_nonneg k.pgnum_lt _).1

/-- An entry whose key a write has made the cache forget is the one it has overwritten. -/
theorem exists_of_forgets {k' : TlbKey}
    (hf : Forgets tlb.lookup (tlbCacheWrite tlb k.pid k.pgnum (v : ℕ)).lookup k') {index : ℕ}
    (heq : (tlbCacheWrite tlb k.pid k.pgnum (v : ℕ)).entries =
      tlb.entries.set index (setTlbEntry 1 k.pgnum k.pid (v : ℕ))) :
    ∃ e, tlb.entries[index]? = some e ∧ e.Valid ∧ e.key = k'.bits := by
  obtain ⟨w, hw⟩ := Option.ne_none_iff_exists'.mp hf.1
  obtain ⟨e, he, hv, hk, -⟩ := (lookup_eq_some_iff hu).mp hw
  have hgone : e ∉ tlb.entries.set index (setTlbEntry 1 k.pgnum k.pid (v : ℕ)) := by
    intro hmem
    exact (lookup_eq_none_iff (unique_write hu k v)).mp hf.2 e (heq ▸ hmem) hv hk
  exact ⟨e, getElem?_of_not_mem_set he hgone, hv, hk⟩

include hne

theorem lookup_write_self : (tlbCacheWrite tlb k.pid k.pgnum (v : ℕ)).lookup k = some (v : ℤ) := by
  obtain ⟨index, old, hold, heq, -⟩ := tlbCacheWrite_index hne k.pid k.pgnum (v : ℕ)
  refine (lookup_eq_some_iff (unique_write hu k v)).mpr
    ⟨setTlbEntry 1 k.pgnum k.pid (v : ℕ), ?_, valid_setTlbEntry _ _ _, k.key_setTlbEntry _, ?_⟩
  · rw [heq]
    exact List.mem_set (List.getElem?_eq_some_iff.mp hold).1 _
  · have hlt := v.isLt
    rw [tlbFrmnum_setTlbEntry_mod]
    omega

/-- A write puts its value. -/
theorem tlbCacheWrite_put :
    Put k (v : ℤ) tlb.lookup (tlbCacheWrite tlb k.pid k.pgnum (v : ℕ)).lookup := by
  refine ⟨lookup_write_self hu hne k v, fun k' w hk' hw => ?_, fun k1 k2 hf1 hf2 => ?_⟩
  · have h1 := k.pid_pos
    have h2 := k.pid_lt
    obtain ⟨e, he, hv, hk, hfrm⟩ := (lookup_eq_some_iff (unique_write hu k v)).mp hw
    obtain rfl | ⟨he', -⟩ :=
      (tlbCacheWrite_spec hu (by omega) (by omega) k.pgnum_nonneg k.pgnum_lt _).2 e he hv
    · exact absurd (TlbKey.bits_inj (hk.symm.trans (k.key_setTlbEntry _))) hk'
    · exact (lookup_eq_some_iff hu).mpr ⟨e, he', hv, hk, hfrm⟩
  · -- both keys had their entry at the index of the write
    obtain ⟨index, -, -, heq, -⟩ := tlbCacheWrite_index hne k.pid k.pgnum (v : ℕ)
    obtain ⟨e1, he1, -, hk1⟩ := exists_of_forgets hu k v hf1 heq
    obtain ⟨e2, he2, -, hk2⟩ := exists_of_forgets hu k v hf2 heq
    rw [Option.some.inj (he1.symm.trans he2)] at hk1
    exact TlbKey.bits_inj (hk1.symm.trans hk2)

/-- A write into a cache with an invalid entry forgets nothing. -/
theorem tlbCacheWrite_room (hroom : ∃ e ∈ tlb.entries, ¬ e.Valid) (k' : TlbKey) :
    ¬ Forgets tlb.lookup (tlbCacheWrite tlb k.pid k.pgnum (v : ℕ)).lookup k' := by
  intro hf
  obtain ⟨index, old, hold, heq, hwhy⟩ := tlbCacheWrite_index hne k.pid k.pgnum (v : ℕ)
  obtain ⟨e, he, hv, hk⟩ := exists_of_forgets hu k v hf heq
  obtain rfl := Option.some.inj (hold.symm.trans he)
  obtain hkey | hinv | hall := hwhy
  · -- the key of the write is not forgotten
    obtain rfl := TlbKey.bits_inj (hk.symm.trans hkey)
    exact absurd ((lookup_write_self hu hne k' v).symm.trans hf.2) (by simp)
  · exact hinv hv
  · obtain ⟨e', he', hinv⟩ := hroom
    exact hinv (hall e' he')

end Write

/-! ## Invalidating -/

/-- An operation that leaves exactly the valid entries whose keys are not in `ks` deletes `ks`. -/
theorem del_of_entries {tlb tlb' : Tlb} (hu : TlbUnique tlb) (hu' : TlbUnique tlb')
    {ks : TlbKey → Bool}
    (h : ∀ k : TlbKey, ∀ e, e.Valid → e.key = k.bits →
      (e ∈ tlb'.entries ↔ e ∈ tlb.entries ∧ ks k = false)) : Del ks tlb.lookup tlb'.lookup := by
  refine ⟨fun k hk => ?_, fun k hk => Option.ext fun v => ?_⟩
  · refine (lookup_eq_none_iff hu').mpr fun e he hv hkey => ?_
    have := ((h k e hv hkey).mp he).2
    rw [hk] at this
    cases this
  · rw [lookup_eq_some_iff hu', lookup_eq_some_iff hu]
    constructor
    · rintro ⟨e, he, hv, hkey, hfrm⟩
      exact ⟨e, ((h k e hv hkey).mp he).1, hv, hkey, hfrm⟩
    · rintro ⟨e, he, hv, hkey, hfrm⟩
      exact ⟨e, (h k e hv hkey).mpr ⟨he, hk⟩, hv, hkey, hfrm⟩

theorem tlbCacheInvalidate_del {tlb : Tlb} (hu : TlbUnique tlb) (k : TlbKey) :
    Del (fun k' => k' = k) tlb.lookup (tlbCacheInvalidate tlb k.pid k.pgnum).2.lookup := by
  obtain ⟨hu', hleft⟩ := tlbCacheInvalidate_spec hu k.pgnum_nonneg k.pid
  refine del_of_entries hu hu' fun k' e hv hkey => ⟨fun he => ?_, fun ⟨he, hk'⟩ => ?_⟩
  · obtain ⟨he', hne⟩ := hleft e he hv
    refine ⟨he', decide_eq_false fun heq => hne ?_⟩
    rw [hkey, heq]
    rfl
  · -- only an entry with the key is changed
    unfold tlbCacheInvalidate
    rw [if_neg (by have := k.pgnum_nonneg; omega)]
    cases hf : tlb.entries.findIdx? (tlbInvalidates k.pid k.pgnum) with
    | none => exact he
    | some index =>
      obtain ⟨hlt, hinv, -⟩ := List.findIdx?_eq_some_iff_getElem.mp hf
      obtain ⟨j, hj⟩ := List.mem_iff_getElem?.mp he
      refine List.mem_iff_getElem?.mpr ⟨j, ?_⟩
      have hji : index ≠ j := by
        rintro rfl
        rw [List.getElem?_eq_getElem hlt] at hj
        have hk := ((tlbInvalidates_iff k.pgnum_nonneg k.pid _).mp hinv).2
        rw [Option.some.inj hj, hkey] at hk
        exact of_decide_eq_false hk' (TlbKey.bits_inj hk)
      simp [hji, hj]

/-- The comparison of a flush looks at the pid only. -/
theorem tlbInvalidates_flush {pid : TlbPid} {e : TlbEntry} {k : TlbKey} (hkey : e.key = k.bits) :
    tlbInvalidates pid (-1) e = true ↔ e.Valid ∧ k.pid = pid := by
  have hpid : tlbPid e = BitVec.ofInt 64 k.pid := congrArg Prod.fst hkey
  have h1 := k.pid_pos
  have h2 := k.pid_lt
  have hp := pid.property
  have heq : BitVec.ofInt 64 k.pid = BitVec.ofInt 64 (pid : ℤ) ↔ k.pid = pid := by
    rw [← BitVec.toNat_inj, BitVec.toNat_ofInt, BitVec.toNat_ofInt]
    omega
  simp [tlbInvalidates, TlbEntry.Valid, hpid, heq]

theorem tlbCacheInvalidate_flush {tlb : Tlb} (hu : TlbUnique tlb) (pid : TlbPid) :
    TlbUnique (tlbCacheInvalidate tlb pid (-1)).2 ∧
      Del (fun k : TlbKey => k.pid = pid) tlb.lookup (tlbCacheInvalidate tlb pid (-1)).2.lookup := by
  unfold tlbCacheInvalidate
  rw [if_pos rfl]
  simp only
  -- a valid entry at an index was there before, and is not of the pid
  have hget : ∀ (j : ℕ) (e : TlbEntry), e.Valid →
      ((tlb.entries.map fun entry =>
        if tlbInvalidates pid (-1) entry then setTlbValid entry 0 else entry)[j]? = some e ↔
        tlb.entries[j]? = some e ∧ tlbInvalidates pid (-1) e = false) := by
    intro j e hv
    rw [List.getElem?_map]
    cases hj : tlb.entries[j]? with
    | none => simp
    | some e0 =>
      simp only [Option.map_some, Option.some.injEq]
      split_ifs with hinv
      · constructor
        · rintro rfl
          exact absurd (tlbValid_setTlbValid_zero e0) hv
        · rintro ⟨rfl, hno⟩
          rw [hinv] at hno
          cases hno
      · constructor
        · rintro rfl
          exact ⟨rfl, by simpa using hinv⟩
        · exact fun h => h.1
  have hu' : TlbUnique { tlb with
      entries := tlb.entries.map fun entry =>
        if tlbInvalidates pid (-1) entry then setTlbValid entry 0 else entry } := by
    intro i j e e' hi hj hv hv' hk
    exact hu i j e e' ((hget i e hv).mp hi).1 ((hget j e' hv').mp hj).1 hv hv' hk
  refine ⟨hu', del_of_entries hu hu' fun k e hv hkey => ?_⟩
  have hno : tlbInvalidates pid (-1) e = false ↔ decide (k.pid = pid) = false := by
    rw [← Bool.not_eq_true, tlbInvalidates_flush hkey, decide_eq_false_iff_not]
    simp [hv]
  rw [← hno]
  simp only [List.mem_iff_getElem?, hget _ e hv, exists_and_right]

/-! ## Sequences of calls -/

/-- The cache after the calls `tr` is a correct lossy map. -/
structure LossyTlb (tr : List TlbCall) (tlb : Tlb) : Prop where
  unique : TlbUnique tlb
  sub : Sub tlb.lookup (last (tr.map TlbCall.op))
  write : ∀ (k : TlbKey) (v : Fin (2 ^ 13)),
    Put k (v : ℤ) tlb.lookup (tlbCacheWrite tlb k.pid k.pgnum (v : ℕ)).lookup
  room : ∀ (k : TlbKey) (v : Fin (2 ^ 13)), (∃ e ∈ tlb.entries, ¬ e.Valid) → ∀ k',
    ¬ Forgets tlb.lookup (tlbCacheWrite tlb k.pid k.pgnum (v : ℕ)).lookup k'

theorem length_exec (tlb : Tlb) (a : TlbCall) :
    (a.exec tlb).entries.length = tlb.entries.length := by
  cases a with
  | write k v =>
    simp only [TlbCall.exec, tlbCacheWrite]
    split
    · exact List.length_set
    · split <;> exact List.length_set
  | invalidate k =>
    simp only [TlbCall.exec, tlbCacheInvalidate]
    rw [if_neg (by have := k.pgnum_nonneg; omega)]
    split
    · exact List.length_modify ..
    · rfl
  | flush pid =>
    simp only [TlbCall.exec, tlbCacheInvalidate, if_true]
    exact List.length_map ..

/-- What every call keeps. -/
structure TlbMapInv (tr : List TlbCall) (tlb : Tlb) : Prop where
  ne : tlb.entries ≠ []
  unique : TlbUnique tlb
  sub : Sub tlb.lookup (last (tr.map TlbCall.op))

theorem TlbMapInv.init {tlb : Tlb} (h : tlbLts.init tlb) : TlbMapInv [] tlb := by
  have hu : TlbUnique tlb := fun _ _ e _ hi _ hv => absurd hv (h.2 e (List.mem_of_getElem? hi))
  refine ⟨h.1, hu, fun k v hk => ?_⟩
  rw [(lookup_eq_none_iff hu).mpr fun e he hv => absurd hv (h.2 e he)] at hk
  cases hk

theorem TlbMapInv.step {tr : List TlbCall} {tlb : Tlb} (h : TlbMapInv tr tlb) (a : TlbCall) :
    TlbMapInv (tr ++ [a]) (a.exec tlb) := by
  have hne : (a.exec tlb).entries ≠ [] := by
    rw [← List.length_pos_iff, length_exec]
    exact List.length_pos_iff.mpr h.ne
  suffices hcall : TlbUnique (a.exec tlb) ∧
      Sub (a.exec tlb).lookup (last (tr.map TlbCall.op ++ [a.op])) by
    refine ⟨hne, hcall.1, ?_⟩
    rw [List.map_append]
    exact hcall.2
  cases a with
  | write k v =>
    exact ⟨unique_write h.unique k v, h.sub.put (tlbCacheWrite_put h.unique h.ne k v)⟩
  | invalidate k =>
    exact ⟨(tlbCacheInvalidate_spec h.unique k.pgnum_nonneg k.pid).1,
      h.sub.del (tlbCacheInvalidate_del h.unique k)⟩
  | flush pid =>
    obtain ⟨hu, hd⟩ := tlbCacheInvalidate_flush h.unique pid
    exact ⟨hu, h.sub.del hd⟩

/-- After any sequence of calls the cache is a correct lossy map. -/
theorem lossyTlb_of_run {tr : List TlbCall} {tlb : Tlb} (h : tlbLts.Run tr tlb) :
    LossyTlb tr tlb := by
  have hinv : TlbMapInv tr tlb := h.history (I := TlbMapInv) (fun _ h0 => .init h0)
    fun tr tlb a _ hI hst => hst ▸ hI.step a
  exact ⟨hinv.unique, hinv.sub, tlbCacheWrite_put hinv.unique hinv.ne,
    tlbCacheWrite_room hinv.unique hinv.ne⟩

/-- Two entries: the third write replaces one of them, and then a pid is flushed. -/
theorem lossyTlb_replaced :
    let tr : List TlbCall := [.write ⟨1, 0, by decide, by decide, by decide, by decide⟩ 3,
      .write ⟨1, 1, by decide, by decide, by decide, by decide⟩ 4,
      .write ⟨2, 0, by decide, by decide, by decide, by decide⟩ 5, .flush ⟨1, by decide⟩]
    ∃ tlb, tlbLts.Run tr tlb ∧ LossyTlb tr tlb := by
  intro tr
  have h0 : tlbLts.init ⟨[0, 0], fun _ => 0⟩ := by
    refine ⟨by simp, fun e he => ?_⟩
    obtain rfl : e = 0 := by simpa using he
    unfold TlbEntry.Valid
    decide
  have hrun : tlbLts.Run tr _ := ((((Lts.Run.init h0).step rfl).step rfl).step rfl).step rfl
  exact ⟨_, hrun, lossyTlb_of_run hrun⟩

end OsSim.Mem
