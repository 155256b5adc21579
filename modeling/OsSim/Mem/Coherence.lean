import OsSim.Mem.Runs

/-!
# The TLB agrees with the page tables

A valid TLB entry of a process translates a resident page to the frame that its
page table entry names. Every move keeps this together with `TlbUnique`, which
it rests on: invalidation stops at the first entry that matches.

Results:
* `Move.coherent`: the step lemma, for the moves of good and bad runs alike.
* `coherent_of_run`: coherence in every state of every run.
-/

namespace OsSim.Mem

variable {ι : Type*} [DecidableEq ι]

/-- Every valid TLB entry of a process is the translation of a resident page. -/
def Coherent (s : System ι) : Prop :=
  ∀ e ∈ s.tlb.entries, e.Valid → ∀ p, (tlbPid e).toNat = (s.pid p).toNat →
    Resident ((s.mm p).pgd (tlbTag e).toNat) ∧
      pteFpn ((s.mm p).pgd (tlbTag e).toNat) = (tlbFrmnum e).toNat

/-! ## Entries and their keys -/

omit [DecidableEq ι] in
theorem pidInt_eq {s : System ι} {p : ι} (h : (s.pid p).toNat < 2 ^ 31) :
    s.pidInt p = (s.pid p).toNat :=
  i32_natCast h

omit [DecidableEq ι] in
/-- The key of a process and one of its pages. -/
theorem key_eq_tlbKey {s : System ι} {p : ι} (h : (s.pid p).toNat < 2 ^ 31) {pgn : ℕ}
    (hpgn : pgn < 2 ^ 14) (e : TlbEntry) :
    e.key = tlbKey (s.pidInt p) pgn ↔
      (tlbPid e).toNat = (s.pid p).toNat ∧ (tlbTag e).toNat = pgn := by
  rw [TlbEntry.key, tlbKey, Prod.mk.injEq, pidInt_eq h, ← BitVec.toNat_inj, ← BitVec.toNat_inj,
    BitVec.toNat_ofInt, BitVec.toNat_ofInt]
  constructor <;> rintro ⟨h1, h2⟩ <;> constructor <;> omega

/-! ## Moves -/

/-- The TLB part of the invariant. -/
structure TlbInv (s : System ι) : Prop where
  pid_lt : ∀ p, (s.pid p).toNat < 2 ^ 31
  pid_inj : Function.Injective s.pid
  unique : TlbUnique s.tlb
  coherent : Coherent s

/-- A change that leaves no entry for the pages of `p` whose page table entry changes. -/
theorem TlbInv.of_subset {s s' : System ι} {p : ι} (h : TlbInv s) (hpid : s'.pid = s.pid)
    (hu : TlbUnique s'.tlb)
    (hsub : ∀ e ∈ s'.tlb.entries, e.Valid → e ∈ s.tlb.entries ∧
      ((tlbPid e).toNat = (s.pid p).toNat →
        (s'.mm p).pgd (tlbTag e).toNat = (s.mm p).pgd (tlbTag e).toNat))
    (hother : ∀ q, q ≠ p → s'.mm q = s.mm q) : TlbInv s' := by
  refine ⟨hpid ▸ h.pid_lt, hpid ▸ h.pid_inj, hu, fun e he hv q hq => ?_⟩
  rw [hpid] at hq
  obtain ⟨he', hsame⟩ := hsub e he hv
  have hc := h.coherent e he' hv q hq
  by_cases hqp : q = p
  · subst hqp
    rw [hsame hq]
    exact hc
  · rw [hother q hqp]
    exact hc

/-- A change of one page table entry for which there is no TLB entry. -/
theorem TlbInv.of_update {s s' : System ι} {p : ι} {pgn : ℕ} {pte : Pte} (h : TlbInv s)
    (hpid : s'.pid = s.pid) (htlb : s'.tlb = s.tlb)
    (hpgd : (s'.mm p).pgd = Function.update (s.mm p).pgd pgn pte)
    (hother : ∀ q, q ≠ p → s'.mm q = s.mm q)
    (hno : ∀ e ∈ s.tlb.entries, e.Valid → (tlbPid e).toNat = (s.pid p).toNat →
      (tlbTag e).toNat ≠ pgn) : TlbInv s' := by
  refine h.of_subset (p := p) hpid (htlb ▸ h.unique) (fun e he hv => ?_) hother
  rw [htlb] at he
  exact ⟨he, fun hp => by rw [hpgd, Function.update_of_ne (hno e he hv hp)]⟩

omit [DecidableEq ι] in
/-- Nothing that the TLB sees changes. -/
theorem TlbInv.congr {s s' : System ι} (h : TlbInv s) (hpid : s'.pid = s.pid)
    (htlb : s'.tlb = s.tlb) (hpgd : ∀ q, (s'.mm q).pgd = (s.mm q).pgd) : TlbInv s' := by
  refine ⟨hpid ▸ h.pid_lt, hpid ▸ h.pid_inj, htlb ▸ h.unique, fun e he hv q hq => ?_⟩
  rw [htlb] at he
  rw [hpid] at hq
  rw [hpgd q]
  exact h.coherent e he hv q hq

/-- Every move keeps the TLB coherent. -/
theorem Move.coherent {p : ι} {a : Act} {w w' : Work ι} (hm : Move p a w w')
    (h : TlbInv w.sys) : TlbInv w'.sys := by
  have hframe := hm.frame
  cases hm with
  | get => exact h.congr rfl rfl fun _ => rfl
  | putBack => exact h.congr rfl rfl fun _ => rfl
  | spill => exact h.congr rfl rfl fun _ => rfl
  | space hpgd =>
    refine h.congr rfl rfl fun q => ?_
    by_cases hq : q = p
    · subst hq
      rw [System.setMm_self, hpgd]
    · rw [System.setMm_of_ne _ _ _ hq]
  | map habs hpgd =>
    -- an absent page has no TLB entry
    refine h.of_update rfl rfl (by rw [System.setMm_self]; exact hpgd) hframe.mm
      fun e he hv hp heq => ?_
    have := (h.coherent e he hv p hp).1.1
    rw [heq] at this
    exact habs this
  | swapIn hp hsw hl =>
    refine h.of_update hframe.pid (swapIn_tlb ..) (by rw [swapIn_mm]; rfl) hframe.mm
      fun e he hv hp' heq => ?_
    have := (h.coherent e he hv p hp').1.2
    rw [heq] at this
    exact this hsw
  | @release held s pgn fpn hres hmod hunc =>
    refine h.of_update rfl rfl (by rw [System.setPte_self]) hframe.mm fun e he hv hp heq => ?_
    refine hunc e he hv ((key_eq_tlbKey (h.pid_lt p) ?_ e).mpr ⟨hp, heq⟩)
    exact heq ▸ tlbTag_lt e
  | @evict held s pgn slot rest hres hl h0 =>
    have htlb : (swapOut (s.setSlots rest) p pgn 0 slot).2.tlb =
        (tlbCacheInvalidate s.tlb (s.pidInt p) pgn).2 := by
      rw [swapOut_snd]
      rfl
    obtain ⟨hu, hleft⟩ := tlbCacheInvalidate_spec h.unique (Int.natCast_nonneg pgn) (s.pidInt p)
    refine h.of_subset (p := p) hframe.pid (by rw [htlb]; exact hu) (fun e he hv => ?_) hframe.mm
    simp only [htlb] at he
    obtain ⟨he', hne⟩ := hleft e he hv
    refine ⟨he', fun hp => ?_⟩
    have htag : (tlbTag e).toNat ≠ pgn := fun heq =>
      hne ((key_eq_tlbKey (h.pid_lt p) (heq ▸ tlbTag_lt e) e).mpr ⟨hp, heq⟩)
    simp only [swapOut_mm, Function.update_of_ne htag]
  | @uncache held s pgn =>
    obtain ⟨hu, hleft⟩ := tlbCacheInvalidate_spec h.unique (Int.natCast_nonneg pgn) (s.pidInt p)
    exact h.of_subset (p := p) rfl hu (fun e he hv => ⟨(hleft e he hv).1, fun _ => rfl⟩) hframe.mm
  | @cache held s pgn fpn hres hmod hpgn =>
    have hpid := h.pid_lt p
    have hpid0 : 0 ≤ s.pidInt p ∧ s.pidInt p < 2 ^ 32 := by
      rw [pidInt_eq hpid]
      omega
    have hpgn0 : (0 : ℤ) ≤ pgn ∧ (pgn : ℤ) < 2 ^ 14 := by omega
    obtain ⟨hu, hleft⟩ := tlbCacheWrite_spec h.unique hpid0.1 hpid0.2 hpgn0.1 hpgn0.2 fpn
    refine ⟨h.pid_lt, h.pid_inj, hu, fun e he hv q hq => ?_⟩
    obtain rfl | ⟨he', -⟩ := hleft e he hv
    · -- the new entry: its process is `p`, its page is the resident page
      have hkey := key_setTlbEntry hpid0.1 hpid0.2 hpgn0.1 hpgn0.2 fpn
      obtain ⟨hp, htag⟩ := (key_eq_tlbKey hpid hpgn _).mp hkey
      have hqp : q = p := h.pid_inj (BitVec.toNat_inj.mp (hq.symm.trans hp))
      subst hqp
      rw [htag]
      refine ⟨hres, ?_⟩
      rw [tlbFrmnum_setTlbEntry_mod, ← hmod]
      rfl
    · exact h.coherent e he' hv q hq

theorem Moves.coherent {p : ι} {P : Act → Prop} {w w' : Work ι} (h : Moves p P w w')
    (hi : TlbInv w.sys) : TlbInv w'.sys :=
  h.invariant (I := fun w => TlbInv w.sys) (fun _ _ _ _ hI hm => hm.coherent hI) hi

/-! ## Runs -/

/-- The invariant of the runs in which every break stays within `2^22`. -/
structure RunInv (s : System ι) : Prop where
  proc : ∀ p, ProcOk s p
  tlb : TlbInv s

omit [DecidableEq ι] in
theorem RunInv.init (c : Config ι) : RunInv c.init where
  proc _ := ⟨MmInv.initMm, fun _ hx => (mem_initMemphy.mp hx).1⟩
  tlb :=
    { pid_lt := c.pid_lt
      pid_inj := c.pid_inj
      unique := fun _ _ e _ hi _ hv => absurd hv
        (c.entries_invalid e (List.mem_of_getElem? hi))
      coherent := fun e he hv => absurd hv (c.entries_invalid e he) }

omit [DecidableEq ι] in
/-- A store to RAM is seen by neither part. -/
theorem RunInv.store {s : System ι} (h : RunInv s) (addr : ℤ) (data : Byte) :
    RunInv (s.store addr data) :=
  ⟨fun p => ⟨(h.proc p).mm, (h.proc p).slots⟩, h.tlb.congr rfl rfl fun _ => rfl⟩

theorem RunInv.moves {p : ι} {P : Act → Prop} {s s' : System ι} (h : RunInv s)
    (hm : Moves p P ⟨[], s⟩ ⟨[], s'⟩) (hok : ProcOk s' p) : RunInv s' := by
  have hframe : Frame p s s' := hm.frame
  refine ⟨fun q => ⟨?_, hok.slots⟩, hm.coherent h.tlb⟩
  by_cases hq : q = p
  · exact hq ▸ hok.mm
  · rw [hframe.mm q hq]
    exact (h.proc q).mm

/-- One instruction. -/
theorem RunInv.step {s s' : System ι} {p : ι} {ins : Inst} {raw : List ℤ} {o : Outcome}
    (h : RunInv s) (hsize : SizeOk s p ins) (hrun : run s p ins raw = .ok (o, s')) :
    RunInv s' := by
  obtain ⟨t, hm, hok, rfl | ⟨addr, data, rfl⟩⟩ := (run_moves (h.proc p) h.tlb.unique hsize hrun).mid
  · exact h.moves hm hok
  · exact (h.moves hm hok).store addr data

/-- In a step that leaves every break within `2^22`, an `ALLOC` is `SizeOk`. -/
theorem RunInv.sizeOk {s s' : System ι} {a : Label ι} (h : RunInv s) (hb : BreaksOk s a s')
    (hrun : run s a.proc a.ins a.raw = .ok (a.out, s')) : SizeOk s a.proc a.ins := by
  intro hop
  obtain ⟨hn1, hn⟩ := hb.1 hop
  refine ⟨hn1, hn, ?_⟩
  by_contra hbrk
  have := sbrk_of_not_breakOk (h.proc a.proc) hop hn1 hn hbrk hrun
  have := hb.2 a.proc
  omega

theorem runInv_of_run {c : Config ι} {tr : List (Label ι)} {s : System ι}
    (h : ((memLts c).guard BreaksOk).Run tr s) : RunInv s :=
  h.invariant (fun _ h0 => h0 ▸ .init c)
    fun _ _ _ hi hst => hi.step (hi.sizeOk hst.2 hst.1) hst.1

/-- In every state of every run in which `ALLOC`s ask for 1 to `2^22` bytes and every break stays
within `2^22`, the TLB is coherent. -/
theorem coherent_of_run {c : Config ι} {tr : List (Label ι)} {s : System ι}
    (h : ((memLts c).guard BreaksOk).Run tr s) : Coherent s :=
  (runInv_of_run h).tlb.coherent

/-- A run in which a page is evicted, fetched again and cached. -/
theorem coherent_evicted : ∃ s,
    ((memLts (Config.two 256 256)).guard BreaksOk).Run
      [⟨0, ⟨.ALLOC, 256, 0, 0⟩, [], ⟨0, none⟩⟩, ⟨0, ⟨.ALLOC, 256, 1, 0⟩, [], ⟨0, none⟩⟩,
        ⟨0, ⟨.FREE, 1, 0, 0⟩, [], ⟨0, none⟩⟩, ⟨0, ⟨.READ, 0, 0, 0⟩, [], ⟨0, some 0⟩⟩] s ∧
      (s.tlb.entries.any fun e => tlbValid e != 0) = true ∧ Coherent s := by
  obtain ⟨s, hrun, hvalid⟩ := exists_run_of_runAll (Config.two 256 256) BreaksOk
    [⟨0, ⟨.ALLOC, 256, 0, 0⟩, [], ⟨0, none⟩⟩, ⟨0, ⟨.ALLOC, 256, 1, 0⟩, [], ⟨0, none⟩⟩,
      ⟨0, ⟨.FREE, 1, 0, 0⟩, [], ⟨0, none⟩⟩, ⟨0, ⟨.READ, 0, 0, 0⟩, [], ⟨0, some 0⟩⟩]
    (fun s => s.tlb.entries.any fun e => tlbValid e != 0) (by decide +kernel)
  exact ⟨s, hrun, hvalid, coherent_of_run hrun⟩

end OsSim.Mem
