import OsSim.Mem.Contents

/-!
# Regions are isolated

`Isolated` says what the bound test of `tlbread` and `tlbwrite` is for: an
access passes only inside a live region, and a write changes one byte of one
region. The test compares the sum of region start and offset, as an `int`, with
the region end, so it also lets pass the offset behind the last byte of the
region, and the offsets for which the sum exceeds 32 bits.

Results:
* `isolated_iff`: the offsets at which a region is isolated.
* `not_isolated_length`: a write at the offset behind the last byte changes the
  region next to it.
-/

namespace OsSim.Mem

variable {ι : Type*} [DecidableEq ι]

/-- The byte at an offset of a region, if the region has this offset. -/
def System.live (s : System ι) (p : ι) (r : Fin pagingMaxSymtblSz) (off : ℕ) : Option Byte :=
  if off < ((s.mm p).symrgtbl r).rgEnd - ((s.mm p).symrgtbl r).rgStart then
    s.byte p (((s.mm p).symrgtbl r).rgStart + off)
  else none

/-- Accesses of process `p` at `offset` of region `rgid` stay inside the region. -/
structure Isolated (s : System ι) (p : ι) (rgid offset : BitVec 32) : Prop where
  read_inside : ∀ data s', tlbread s p rgid offset = .ok (0, data, s') →
    offset.toNat < liveLength (s.mm p) rgid
  write_inside : ∀ data s', tlbwrite s p data rgid offset = .ok (0, s') →
    offset.toNat < liveLength (s.mm p) rgid
  write_only : ∀ data s', tlbwrite s p data rgid offset = .ok (0, s') →
    ∀ q (r : Fin pagingMaxSymtblSz) off,
      ¬ (q = p ∧ (r : ℕ) = rgid.toNat ∧ off = offset.toNat) → s'.live q r off = s.live q r off
  refused_read : ∀ stat data s', tlbread s p rgid offset = .ok (stat, data, s') → stat ≠ 0 →
    ∀ q a, s'.byte q a = s.byte q a
  refused_write : ∀ data stat s', tlbwrite s p data rgid offset = .ok (stat, s') → stat ≠ 0 →
    ∀ q a, s'.byte q a = s.byte q a

section

variable {c : Config ι} {s s' : System ι} {p : ι}

/-- A region is isolated at the offsets inside it. -/
theorem isolated_of_lt (hram : numfp c.ramSz ≤ 8192) (h : OwnedInv c s) {rgid offset : BitVec 32}
    (hid : rgid.toNat < pagingMaxSymtblSz) (hlt : offset.toNat < liveLength (s.mm p) rgid) :
    Isolated s p rgid offset := by
  obtain ⟨r, heq, hquiet, -⟩ := tlbread_spec (p := p) hram h hid offset
  have hmm := (h.base.proc p).mm
  obtain ⟨_, hlt'⟩ := lt_of_lt_liveLength hlt
  have hva := (vaddr_of_lt (hmm.live ⟨rgid.toNat, hid⟩) hmm.bound hlt').2
  refine ⟨fun _ _ _ => hlt, fun _ _ _ => hlt, fun data s' hr q r' off hne => ?_,
    fun stat data s' hr _ => ?_, fun data stat s' hr hs => ?_⟩
  · obtain ⟨w, hw, -, hsym, ⟨-, -, hbyte⟩ | ⟨h1, -⟩⟩ := tlbwrite_spec (p := p) hram h data hid offset
    · rw [hw] at hr
      cases hr
      simp only at hsym hbyte
      rw [System.live, System.live, hsym]
      split_ifs with hoff
      · rw [hbyte, hva, if_neg]
        rintro ⟨rfl, heq⟩
        obtain ⟨rfl, he⟩ := hmm.byte_unique hoff hlt' heq
        exact hne ⟨rfl, rfl, he⟩
      · rfl
    · rw [hw] at hr
      cases hr
      cases h1
  · rw [heq] at hr
    cases hr
    exact hquiet.byte
  · obtain ⟨w, hw, -, -, ⟨h0, -, -⟩ | ⟨-, -, hbyte⟩⟩ :=
      tlbwrite_spec (p := p) hram h data hid offset
    · rw [hw] at hr
      cases hr
      exact absurd h0 hs
    · rw [hw] at hr
      cases hr
      exact hbyte

/-- A region is isolated at the offsets that are refused. -/
theorem isolated_of_not_allowed (hram : numfp c.ramSz ≤ 8192) (h : OwnedInv c s)
    {rgid offset : BitVec 32} (hid : rgid.toNat < pagingMaxSymtblSz)
    (hno : ¬ Allowed s p ((s.mm p).symrgtbl ⟨rgid.toNat, hid⟩) offset) :
    Isolated s p rgid offset := by
  have hread : ∀ stat data s', tlbread s p rgid offset = .ok (stat, data, s') →
      stat = -1 ∧ Quiet c s s' := by
    intro stat data s' hr
    obtain ⟨r, heq, hquiet, ⟨-, hall, -⟩ | ⟨h1, -⟩⟩ := tlbread_spec (p := p) hram h hid offset
    · exact absurd hall hno
    · rw [heq] at hr
      cases hr
      exact ⟨h1, hquiet⟩
  have hwrite : ∀ data stat s', tlbwrite s p data rgid offset = .ok (stat, s') →
      stat = -1 ∧ ∀ q a, s'.byte q a = s.byte q a := by
    intro data stat s' hr
    obtain ⟨w, hw, -, -, ⟨-, hall, -⟩ | ⟨h1, -, hbyte⟩⟩ :=
      tlbwrite_spec (p := p) hram h data hid offset
    · exact absurd hall hno
    · rw [hw] at hr
      cases hr
      exact ⟨h1, hbyte⟩
  refine ⟨fun data s' hr => ?_, fun data s' hr => ?_, fun data s' hr => ?_,
    fun stat data s' hr _ => ?_, fun data stat s' hr _ => (hwrite data stat s' hr).2⟩
  · exact absurd (hread 0 data s' hr).1 (by decide)
  · exact absurd (hwrite data 0 s' hr).1 (by decide)
  · exact absurd (hwrite data 0 s' hr).1 (by decide)
  · exact (hread stat data s' hr).2.byte

/-- The offsets at which region `rgid` is isolated: those inside the region, those behind its
length for which the sum with its start stays within 32 bits, and those whose page cannot be
brought to RAM. -/
theorem isolated_iff {tr : List (Label ι)} (hram : numfp c.ramSz ≤ 8192)
    (hrun : ((memLts c).guard StepOk).Run tr s) (p : ι) {rgid : BitVec 32}
    (hid : rgid.toNat < pagingMaxSymtblSz) (offset : BitVec 32) :
    let currg := (s.mm p).symrgtbl ⟨rgid.toNat, hid⟩
    Isolated s p rgid offset ↔
      offset.toNat < currg.rgEnd - currg.rgStart ∨
      (currg.rgEnd - currg.rgStart < offset.toNat ∧ currg.rgStart + offset.toNat < 2 ^ 32) ∨
      ¬ Accessible s p ((currg.rgStart + offset.toNat) % 2 ^ 22 / 256) := by
  intro currg
  have h := ownedInv_of_run hram hrun
  have hmm := (h.base.proc p).mm
  have hlen : liveLength (s.mm p) rgid = currg.rgEnd - currg.rgStart := dif_pos hid
  have hlive := hmm.live ⟨rgid.toNat, hid⟩
  have hin := not_outOfRange_iff hlive.le
    (lt_of_le_of_lt (hlive.bound.trans hmm.bound) (by norm_num)) offset
  have hallowed : Allowed s p currg offset ↔
      (offset.toNat ≤ currg.rgEnd - currg.rgStart ∨ 2 ^ 32 ≤ currg.rgStart + offset.toNat) ∧
      Accessible s p ((currg.rgStart + offset.toNat) % 2 ^ 22 / 256) := by
    rw [Allowed, hin, vaddr_eq]
  constructor
  · intro hiso
    by_contra hno
    rw [not_or, not_or, not_not, not_and_or] at hno
    obtain ⟨hge, hrange, hacc⟩ := hno
    -- the access is allowed, so `tlbread` returns 0
    obtain ⟨r, heq, -, ⟨h0, -⟩ | ⟨-, hall, -⟩⟩ := tlbread_spec (p := p) hram h hid offset
    · have := hiso.read_inside r.2.1 r.2.2 (by rw [heq, ← h0])
      omega
    · exact hall (hallowed.mpr ⟨by omega, hacc⟩)
  · rintro (hlt | hgt | hacc)
    · exact isolated_of_lt hram h hid (by omega)
    · exact isolated_of_not_allowed hram h hid fun ha => by
        have := (hallowed.mp ha).1
        omega
    · exact isolated_of_not_allowed hram h hid fun ha => hacc (hallowed.mp ha).2

end

/-- Two regions of one page each. The region ids are isolated at offsets inside, and so is region 7,
which was never allocated, at an offset other than 0. -/
theorem isolated_two_regions : ∃ s,
    ((memLts (Config.two 512 0)).guard StepOk).Run
      [⟨0, ⟨.ALLOC, 256, 0, 0⟩, [], ⟨0, none⟩⟩, ⟨0, ⟨.ALLOC, 256, 1, 0⟩, [], ⟨0, none⟩⟩] s ∧
      Isolated s 0 1 255 ∧ Isolated s 0 7 1 := by
  obtain ⟨s, hrun, htest⟩ := exists_run_of_runAll (Config.two 512 0) StepOk
    [⟨0, ⟨.ALLOC, 256, 0, 0⟩, [], ⟨0, none⟩⟩, ⟨0, ⟨.ALLOC, 256, 1, 0⟩, [], ⟨0, none⟩⟩]
    (fun s => decide ((s.mm 0).symrgtbl 1 = ⟨256, 512⟩ ∧ (s.mm 0).symrgtbl 7 = ⟨0, 0⟩))
    (by decide +kernel)
  obtain ⟨h1, h7⟩ := of_decide_eq_true htest
  refine ⟨s, hrun, (isolated_iff (by decide) hrun 0 (by decide) 255).mpr (.inl ?_),
    (isolated_iff (by decide) hrun 0 (by decide) 1).mpr (.inr (.inl ?_))⟩
  · change (255#32).toNat < ((s.mm 0).symrgtbl 1).rgEnd - ((s.mm 0).symrgtbl 1).rgStart
    rw [h1]
    decide
  · change ((s.mm 0).symrgtbl 7).rgEnd - ((s.mm 0).symrgtbl 7).rgStart < (1#32).toNat ∧
      ((s.mm 0).symrgtbl 7).rgStart + (1#32).toNat < 2 ^ 32
    rw [h7]
    decide

/-- Regions 0 and 1 of one page each: a write to region 0 at offset 256, its length, returns 0 and
changes the first byte of region 1. -/
theorem not_isolated_length : ∃ s s',
    ((memLts (Config.two 512 0)).guard StepOk).Run
      [⟨0, ⟨.ALLOC, 256, 0, 0⟩, [], ⟨0, none⟩⟩, ⟨0, ⟨.ALLOC, 256, 1, 0⟩, [], ⟨0, none⟩⟩] s ∧
      tlbwrite s 0 9 0 256 = .ok (0, s') ∧ s.live 0 1 0 = some 0 ∧ s'.live 0 1 0 = some 9 ∧
      ¬ Isolated s 0 0 256 := by
  obtain ⟨s, hrun, htest⟩ := exists_run_of_runAll (Config.two 512 0) StepOk
    [⟨0, ⟨.ALLOC, 256, 0, 0⟩, [], ⟨0, none⟩⟩, ⟨0, ⟨.ALLOC, 256, 1, 0⟩, [], ⟨0, none⟩⟩]
    (fun s => match tlbwrite s 0 9 0 256 with
      | .ok (stat, s') => decide (stat = 0 ∧ s.live 0 1 0 = some 0 ∧ s'.live 0 1 0 = some 9)
      | .error _ => false) (by decide +kernel)
  split at htest
  · next stat s' hw =>
    obtain ⟨rfl, h1, h2⟩ := of_decide_eq_true htest
    refine ⟨s, s', hrun, hw, h1, h2, fun hiso => ?_⟩
    have hsame := hiso.write_only 9 s' hw 0 1 0 (by decide)
    rw [h1, h2] at hsame
    exact absurd hsame (by decide)
  · cases htest

end OsSim.Mem
