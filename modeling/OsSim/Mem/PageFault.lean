import OsSim.Mem.Moves

/-!
# Page faults

What `pg_getpage` does for a page in swap when no frame of RAM is free. It takes
the victim off the FIFO list; the loop that is to find a swap slot for it runs
while `failed < 0`, but `failed` is 0, so no slot is found and the call returns
-1. The victim is not put back, and the branch that exchanges the two pages is
never reached.

Results:
* `faultKeeps_iff`: when a failed call leaves the state as it was.
* `not_replaced`: a victim is never replaced.
-/

namespace OsSim.Mem

variable {ι : Type*} [DecidableEq ι]

/-- If `pg_getpage` fails, the state is the one before the call. -/
def FaultKeeps (s : System ι) (p : ι) (pgn : ℕ) : Prop :=
  (pgGetpage s p pgn).1 = -1 → (pgGetpage s p pgn).2.2 = s

/-- `pg_getpage` gets as far as the choice of a victim, and there is one. -/
def PopsVictim (s : System ι) (p : ι) (pgn : ℕ) : Prop :=
  Present ((s.mm p).pgd pgn) ∧ Swapped ((s.mm p).pgd pgn) ∧ s.mram.avail = [] ∧
    (s.mm p).fifoPgn ≠ []

theorem dropLast_ne_self {α : Type*} {l : List α} (h : l ≠ []) : l.dropLast ≠ l := by
  intro heq
  have hlen := congrArg List.length heq
  rw [List.length_dropLast] at hlen
  have := List.length_pos_iff.mpr h
  omega

/-- A failed call leaves the state as it was if and only if it has not taken a victim off the FIFO
list. -/
theorem faultKeeps_iff (s : System ι) (p : ι) (pgn : ℕ) :
    FaultKeeps s p pgn ↔ ¬ PopsVictim s p pgn := by
  unfold FaultKeeps PopsVictim
  obtain ⟨hp, hr⟩ | ⟨⟨hp, hsw⟩, hr⟩ | ⟨hp, hsw, hav, hr⟩ | ⟨hp, hsw, fpn, rest, -, hav, hr⟩ :=
    pgGetpage_cases s p pgn
  · simp [hr, hp]
  · simp [hr, hsw]
  · simp only [hr, hp, hsw, hav, true_and, forall_const, not_not]
    constructor
    · intro heq
      by_contra hne
      have hmm := congrArg (fun t => (t.mm p).fifoPgn) heq
      simp only [System.setFifo_self] at hmm
      exact dropLast_ne_self hne hmm
    · intro hnil
      exact setFifo_eq_self (by rw [hnil]; rfl)
  · simp [hr, hav]

/-! ## Replacement -/

/-- Page `pgn` of `p` is in slot `swpoff` of device `swptyp`, no frame of RAM is free, the oldest
page on the FIFO list is `vicpgn`, it is in frame `vicfpn`, and some device has a free slot. -/
structure NeedsVictim (s : System ι) (p : ι) (pgn swptyp : ℕ) (swpoff : ℤ) (vicpgn : ℕ)
    (vicfpn : ℤ) : Prop where
  present : Present ((s.mm p).pgd pgn)
  swapped : Swapped ((s.mm p).pgd pgn)
  swptyp : pteSwptyp ((s.mm p).pgd pgn) = swptyp
  swpoff : pagingSwp ((s.mm p).pgd pgn) = swpoff
  full : s.mram.freeFpList = []
  oldest : (s.mm p).fifoPgn.getLast? = some vicpgn
  resident : Resident ((s.mm p).pgd vicpgn)
  vicfpn : pteFpn ((s.mm p).pgd vicpgn) = vicfpn
  slot : ∃ i, (s.mswp i).avail ≠ []

/-- The call returned 0 and `fpn`: `vicpgn` has left its frame for slot `vicoff` of device `i`,
and `pgn` has taken the frame. -/
structure Replaced (s : System ι) (p : ι) (pgn : ℕ) (swptyp : Fin pagingMaxMmswp) (swpoff : ℤ)
    (vicpgn : ℕ) (vicfpn : ℤ) (i : Fin pagingMaxMmswp) (vicoff : ℤ) (r : ℤ × ℤ × System ι) :
    Prop where
  ret : r.1 = 0
  fpn : r.2.1 = vicfpn
  slot : (s.mswp i).avail.head? = some vicoff
  victim : Present ((r.2.2.mm p).pgd vicpgn) ∧ Swapped ((r.2.2.mm p).pgd vicpgn) ∧
    pteSwptyp ((r.2.2.mm p).pgd vicpgn) = i ∧ pagingSwp ((r.2.2.mm p).pgd vicpgn) = vicoff
  saved : (r.2.2.mswp i).frame vicoff = s.mram.frame vicfpn
  page : Resident ((r.2.2.mm p).pgd pgn) ∧ pteFpn ((r.2.2.mm p).pgd pgn) = vicfpn
  loaded : r.2.2.mram.frame vicfpn = (s.mswp swptyp).frame swpoff
  returned : swpoff ∈ (r.2.2.mswp swptyp).freeFpList
  tlb : ∀ e ∈ r.2.2.tlb.entries, e.Valid → e.key ≠ tlbKey (s.pidInt p) vicpgn
  fifo : (r.2.2.mm p).fifoPgn = pgn :: (s.mm p).fifoPgn.dropLast
  others : ∀ q k, (q, k) ≠ (p, pgn) → (q, k) ≠ (p, vicpgn) →
    (r.2.2.mm q).pgd k = (s.mm q).pgd k
  frames : ∀ f, f ≠ vicfpn → r.2.2.mram.frame f = s.mram.frame f
  slots : ∀ d t, (d, t) ≠ (i, vicoff) → (r.2.2.mswp d).frame t = (s.mswp d).frame t

/-- Where a victim is needed, none is replaced: the call returns -1. -/
theorem not_replaced {s : System ι} {p : ι} {pgn : ℕ} {swptyp : Fin pagingMaxMmswp} {swpoff : ℤ}
    {vicpgn : ℕ} {vicfpn : ℤ} (h : NeedsVictim s p pgn swptyp swpoff vicpgn vicfpn)
    (i : Fin pagingMaxMmswp) (vicoff : ℤ) :
    ¬ Replaced s p pgn swptyp swpoff vicpgn vicfpn i vicoff (pgGetpage s p pgn) := by
  intro hrep
  have hav : s.mram.avail = [] := by
    unfold Memphy.avail
    rw [h.full, ite_self]
  have hret := hrep.ret
  obtain ⟨hp, -⟩ | ⟨⟨-, hsw⟩, -⟩ | ⟨-, -, -, hr⟩ | ⟨-, -, fpn, rest, -, hav', -⟩ :=
    pgGetpage_cases s p pgn
  · exact hp h.present
  · exact hsw h.swapped
  · rw [hr] at hret
    norm_num at hret
  · rw [hav] at hav'
    cases hav'

/-! ## One process on a full RAM -/

/-- A device of `maxsz` bytes with random access and the free frames `frames`. -/
def deviceWith (maxsz : ℤ) (frames : List ℤ) : Memphy :=
  { Memphy.zero with maxsz := maxsz, rdmflg := 1, freeFpList := frames }

/-- A RAM of one frame that holds page 0, while page 1 is in slot 0 of a swap device of two
slots. -/
def fullRam : System Unit where
  mram := deviceWith 256 []
  mswp _ := deviceWith 512 [1]
  tlb := ⟨[0], fun _ => 0⟩
  pid _ := 1
  mm _ := { Mm.zero with
    pgd := fun pgn => if pgn = 0 then pteSetFpn 0 0 else if pgn = 1 then pteSetSwap 0 0 0 else 0
    fifoPgn := [0] }

theorem needsVictim_fullRam : NeedsVictim fullRam () 1 0 0 0 0 := by
  refine ⟨?_, ?_, ?_, ?_, rfl, rfl, ?_, ?_, 0, ?_⟩
  all_goals decide

/-- Slot 1 is free, and page 0 is not moved there. -/
theorem not_replaced_fullRam :
    ¬ Replaced fullRam () 1 0 0 0 0 0 1 (pgGetpage fullRam () 1) :=
  not_replaced needsVictim_fullRam 0 1

/-- Nor is it moved to any other slot: the call fails. -/
theorem fault_fullRam : NeedsVictim fullRam () 1 0 0 0 0 ∧
    ¬ ∃ i vicoff, Replaced fullRam () 1 0 0 0 0 i vicoff (pgGetpage fullRam () 1) := by
  refine ⟨needsVictim_fullRam, ?_⟩
  rintro ⟨i, vicoff, h⟩
  have hret := h.ret
  revert hret
  decide

/-- The failed call has taken page 0 off the FIFO list. -/
theorem not_faultKeeps_fullRam : ¬ FaultKeeps fullRam () 1 := by
  intro h
  have hfifo := congrArg (fun t => (t.mm ()).fifoPgn) (h (by decide))
  revert hfifo
  decide

end OsSim.Mem
