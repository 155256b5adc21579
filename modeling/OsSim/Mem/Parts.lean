import OsSim.Mem.PlainRuns

/-!
# The parts of an instruction

As far as the memory of a process goes, an instruction of either build is a sequence
of calls of `pg_getpage`, `__alloc` and `__free`. Nothing is assumed of the sizes that
are asked for, so this holds where `Moves` do not apply. The calls of `__alloc` are
those of a system in which every access has a meaning.

Results:
* `parts_of_buildRun`: an instruction as a sequence of parts.
* `invariant_of_parts`: what every part keeps, every run keeps.
-/

namespace OsSim.Mem

variable {ι : Type*} [DecidableEq ι]

/-- A call made on behalf of process `p`, or a change of devices and TLB. -/
inductive Part (p : ι) (s : System ι) : System ι → Prop
  | getpage (pgn : ℕ) : Part p s (pgGetpage s p pgn).2.2
  | alloc {r : Fin pagingMaxSymtblSz} {size : BitVec 32} {raw : List ℤ} {stat addr : ℤ}
      {t : System ι} : AllocDefined s p (argInt size) →
      alloc s p r (argInt size) raw = .ok (stat, addr, t) → Part p s t
  | free (r : Fin pagingMaxSymtblSz) : Part p s (free s p r).2
  | devices {t : System ι} : t.mm = s.mm → Part p s t

/-- Parts one after the other. -/
def Parts (p : ι) : System ι → System ι → Prop := Relation.ReflTransGen (Part p)

section

variable {p : ι} {s s' t : System ι} {ins : Inst} {raw : List ℤ} {o : Outcome}

theorem Part.parts (h : Part p s t) : Parts p s t := Relation.ReflTransGen.single h

theorem Parts.trans (h : Parts p s s') (h' : Parts p s' t) : Parts p s t :=
  Relation.ReflTransGen.trans h h'

theorem Parts.refl (p : ι) (s : System ι) : Parts p s s := Relation.ReflTransGen.refl

theorem Parts.devices (h : Parts p s s') (hmm : t.mm = s'.mm) : Parts p s t :=
  h.trans (Part.devices hmm).parts

/-! ## The instructions -/

theorem Parts.tlbCachePages (p : ι) (left pgn : ℕ) (s : System ι) :
    Parts p s (tlbCachePages p left pgn s).2 := by
  induction left generalizing pgn s with
  | zero => exact .refl p s
  | succ left ih =>
    have hget := (Part.getpage (p := p) (s := s) pgn).parts
    unfold Mem.tlbCachePages
    simp only
    split_ifs
    · exact hget
    · exact hget
    · refine .trans ?_ (ih ..)
      exact hget.devices rfl

theorem Parts.tlbFrame (p : ι) (pgn : ℕ) (s : System ι) : Parts p s (tlbFrame s p pgn).2 := by
  have hget := (Part.getpage (p := p) (s := s) pgn).parts
  unfold Mem.tlbFrame
  simp only
  split_ifs
  · exact hget
  · exact hget.devices rfl
  · exact .refl p s

theorem Parts.accessed {rgid offset : BitVec 32} (h : Accessed s p rgid offset t) :
    Parts p s t := by
  obtain ⟨pgn, -, rfl⟩ := h.exists_page
  exact .tlbFrame p pgn s

theorem parts_of_run (hdef : ins.opcode = .ALLOC → AllocDefined s p (argInt ins.arg0))
    (h : run s p ins raw = .ok (o, s')) : Parts p s s' := by
  cases executed_of_run h with
  | compute => exact .refl p s
  | @alloc _ _ rgid hop hid _ hr =>
    unfold tlballoc at hr
    simp only [allocRgid_eq hid] at hr
    cases halloc : alloc s p ⟨rgid.toNat, hid⟩ (argInt ins.arg0) raw with
    | error e => simp [halloc] at hr
    | ok res =>
      have hpart := (Part.alloc (hdef hop) halloc).parts
      simp only [halloc] at hr
      split_ifs at hr with hret
      · cases hr
        exact hpart
      · have hcache := Parts.tlbCachePages p (pagingPageAlignszU ins.arg0 / pagingPagesz)
          (pagingPgn res.2.1) res.2.2
        rw [Except.ok.inj hr] at hcache
        exact hpart.trans hcache
  | free hop hr =>
    obtain he | hid := lt_of_tlbfreeData hr
    · cases he
      exact .refl p s
    · obtain ⟨tlb, heq⟩ := tlbfreeData_free s p hid
      rw [heq] at hr
      cases hr
      exact (Part.free ⟨ins.arg0.toNat, hid⟩).parts.devices rfl
  | read hop hr =>
    obtain rfl | ha := tlbread_state hr
    · exact .refl p s'
    · exact .accessed ha
  | write hop hr =>
    obtain rfl | ⟨t, ha, rfl | ⟨addr, rfl⟩⟩ := tlbwrite_state hr
    · exact .refl p s'
    · exact .accessed ha
    · exact (Parts.accessed ha).devices rfl

theorem parts_of_runPaging (hdef : ins.opcode = .ALLOC → AllocDefined s p (argInt ins.arg0))
    (h : runPaging s p ins raw = .ok (o, s')) : Parts p s s' := by
  have hget := fun pgn => (Part.getpage (p := p) (s := s) pgn).parts
  cases executedPaging_of_run h with
  | compute => exact .refl p s
  | alloc hop _ halloc => exact (Part.alloc (hdef hop) halloc).parts
  | @free r => exact (Part.free r).parts
  | read _ _ _ _ hr =>
    unfold pgGetval at hr
    simp only at hr
    split_ifs at hr <;> cases hr <;> exact hget _
  | write _ _ _ hr =>
    unfold pgSetval at hr
    simp only at hr
    split_ifs at hr
    · cases hr
      exact hget _
    · cases hr
      exact (hget _).devices rfl
  | refused => exact .refl p s

theorem parts_of_buildRun {b : Build} (hdef : Defined b s p ins raw)
    (h : b.run s p ins raw = .ok (o, s')) : Parts p s s' := by
  cases b with
  | cpuTlb => exact parts_of_run hdef.alloc h
  | mmPaging => exact parts_of_runPaging hdef.alloc h

/-! ## Runs -/

theorem Part.spaceInv (h : Part p s t) (hs : SpaceInv (s.mm p)) : SpaceInv (t.mm p) := by
  -- what is paged with a space that satisfies the invariant satisfies it
  have hpaged : ∀ {t : System ι}, (∃ mm, SpaceInv mm ∧ Paged p (s.setMm p mm) t) →
      SpaceInv (t.mm p) := by
    rintro t ⟨mm, hmm, ht⟩
    exact hmm.congr (by simpa using ht.space)
  cases h with
  | getpage pgn => exact hs.congr (Paged.pgGetpage s pgn).space
  | @alloc r size raw stat addr t _ halloc =>
    obtain ⟨mm, ht, hspace⟩ :=
      alloc_space hs r (argInt_range size).1 (argInt_range size).2 halloc
    exact hpaged ⟨mm, hspace.spaceInv hs, ht⟩
  | free r => exact hpaged (hs.freed r)
  | devices hmm => exact hmm ▸ hs

/-- What every part keeps of the memory of its process, every run keeps. -/
theorem invariant_of_parts {b : Build} {c : Config ι} {I : Mm → Prop} (h0 : I (initMm Mm.zero))
    (hstep : ∀ p (s t : System ι), Part p s t → SpaceInv (s.mm p) → I (s.mm p) → I (t.mm p))
    {tr : List (Label ι)} (h : (definedLts b c).Run tr s) (p : ι) :
    SpaceInv (s.mm p) ∧ I (s.mm p) := by
  refine h.invariant (I := fun s => ∀ p, SpaceInv (s.mm p) ∧ I (s.mm p)) (fun s h => ?_) ?_ p
  · rw [show s = c.init from h]
    exact fun p => ⟨MmInv.initMm.spaceInv, h0⟩
  · intro s a s' hi hst q
    by_cases hq : q = a.proc
    · rw [hq]
      refine Relation.ReflTransGen.head_induction_on (motive := fun s _ =>
        SpaceInv (s.mm a.proc) ∧ I (s.mm a.proc) → SpaceInv (s'.mm a.proc) ∧ I (s'.mm a.proc))
        (parts_of_buildRun hst.2 hst.1) id ?_ (hi a.proc)
      exact fun hpart _ ih hs => ih ⟨hpart.spaceInv hs.1, hstep _ _ _ hpart hs.1 hs.2⟩
    · obtain ⟨mm, -, hpaged⟩ := (hi a.proc).1.buildRun hst.1
      rw [hpaged.others q hq, System.setMm_of_ne _ _ _ hq]
      exact hi q

end

end OsSim.Mem
