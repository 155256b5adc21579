import OsSim.Mem.Contents

/-!
# What is written is read back

Against page tables, frames, swap slots and the TLB stands a flat memory:
`lastStored` keeps for each process, region id and offset the byte of the last
`WRITE` that returned 0 since the last `ALLOC` of the region id. `ReadsBack`
says that every `READ` of a run that returns 0 fetches that byte.

Results:
* `Holds`: the simulation relation, kept by every instruction.
* `readsBack_of_run`: `ReadsBack` in the runs in which no `ALLOC` loses track of
  a frame, or searches a free list that leads to a variable that is gone.
* `not_readsBack_spill`: a run of one process in which it fails.
-/

namespace OsSim.Mem

variable {ι : Type*} [DecidableEq ι]

/-! ## The flat memory -/

/-- The bytes stored by process, region id and offset. -/
abbrev Stored (ι : Type*) := ι → ℕ → ℕ → Option Byte

/-- What an instruction and its outcome say about the bytes stored. -/
def storeStep (m : Stored ι) (a : Label ι) : Stored ι := fun p r off =>
  match a.ins.opcode with
  | .ALLOC => if a.out.stat = 0 ∧ p = a.proc ∧ r = a.ins.arg1.toNat then none else m p r off
  | .WRITE =>
    if a.out.stat = 0 ∧ p = a.proc ∧ r = a.ins.arg1.toNat ∧ off = a.ins.arg2.toNat then
      some (a.ins.arg0.setWidth 8)
    else m p r off
  | _ => m p r off

/-- The bytes stored after the instructions of a run. -/
def lastStored (tr : List (Label ι)) : Stored ι := tr.foldl storeStep fun _ _ _ => none

theorem lastStored_snoc (tr : List (Label ι)) (a : Label ι) :
    lastStored (tr ++ [a]) = storeStep (lastStored tr) a := by
  rw [lastStored, List.foldl_append]
  rfl

/-- The byte that a `READ` which returned 0 should have fetched. -/
def ReadBack (m : Stored ι) (a : Label ι) : Prop :=
  a.ins.opcode = .READ → a.out.stat = 0 →
    ∀ b, m a.proc a.ins.arg0.toNat a.ins.arg1.toNat = some b → a.out.data = some b

/-- Every `READ` of the run that returned 0 fetched the byte stored last. -/
def ReadsBack (tr : List (Label ι)) : Prop :=
  ∀ pre a post, tr = pre ++ a :: post → ReadBack (lastStored pre) a

theorem ReadsBack.snoc {tr : List (Label ι)} {a : Label ι} (h : ReadsBack tr)
    (ha : ReadBack (lastStored tr) a) : ReadsBack (tr ++ [a]) := by
  intro pre a' post heq
  rcases List.eq_nil_or_concat post with rfl | ⟨post, x, rfl⟩
  · obtain ⟨rfl, he⟩ := List.append_inj' heq rfl
    cases he
    exact ha
  · rw [List.concat_eq_append, ← List.cons_append, ← List.append_assoc] at heq
    exact h pre a' post (List.append_inj' heq rfl).1

/-! ## The programs -/

/-- Accesses stay inside the region that they name. -/
def Inside (s : System ι) (a : Label ι) : Prop :=
  match a.ins.opcode with
  | .READ => a.ins.arg1.toNat < liveLength (s.mm a.proc) a.ins.arg0
  | .WRITE => a.ins.arg2.toNat < liveLength (s.mm a.proc) a.ins.arg1
  | _ => True

/-- The instructions that well-behaved programs execute: sizes from 1 to `2^22`, breaks within
`2^22`, and accesses inside live regions. -/
def Disciplined (s : System ι) (a : Label ι) (s' : System ι) : Prop :=
  BreaksOk s a s' ∧ Inside s a

instance (s : System ι) (a : Label ι) : Decidable (Inside s a) := by
  unfold Inside
  split <;> infer_instance

/-! ## The simulation -/

/-- The bytes stored are where the regions say, unless the page has been taken away. -/
def Holds (m : Stored ι) (s : System ι) : Prop :=
  ∀ p (r : Fin pagingMaxSymtblSz) off b, m p r off = some b →
    off < ((s.mm p).symrgtbl r).rgEnd - ((s.mm p).symrgtbl r).rgStart →
    ∀ x, s.byte p (((s.mm p).symrgtbl r).rgStart + off) = some x → x = b

section Simulation

variable {c : Config ι} {m m' : Stored ι} {s s' : System ι} {p : ι}

omit [DecidableEq ι] in
theorem Holds.quiet (h : Holds m s) (hq : Quiet c s s') : Holds m s' := by
  intro q r off b hm hlt x hx
  rw [hq.symrgtbl] at hlt hx
  exact h q r off b hm hlt x (by rwa [← hq.byte])

/-- Moves that map no page of a region keep the bytes of the regions that stay as they are. -/
theorem Holds.moves {P : Act → Prop} (h : Holds m s) (hram : numfp c.ramSz ≤ 8192)
    (ho : OwnedInv c s) (hm : Moves p P ⟨[], s⟩ ⟨[], s'⟩) (hg : ∀ a, P a → a.Good)
    (hmap : ∀ r k, ((s.mm p).symrgtbl r).HasPage k → ∀ a, P a → a ≠ .map k)
    (hsub : ∀ q r off b, m' q r off = some b → m q r off = some b)
    (hsym : ∀ (r : Fin pagingMaxSymtblSz) off, m' p r off ≠ none →
      (s'.mm p).symrgtbl r = (s.mm p).symrgtbl r ∨ (s'.mm p).symrgtbl r = ⟨0, 0⟩) :
    Holds m' s' := by
  have hframe : Frame p s s' := hm.frame
  intro q r off b hb hlt x hx
  have hsame : (s'.mm q).symrgtbl r = (s.mm q).symrgtbl r := by
    by_cases hq : q = p
    · subst hq
      refine (hsym r off (by simp [hb])).resolve_right fun h0 => ?_
      simp [h0] at hlt
    · rw [hframe.mm q hq]
  rw [hsame] at hlt hx
  refine h q r off b (hsub q r off b hb) hlt x ?_
  -- the page is in region `r`, so no move maps it
  have hpage : ((s.mm q).symrgtbl r).HasPage ((((s.mm q).symrgtbl r).rgStart + off) / 256) :=
    VmRg.hasPage_of_byte (Nat.le_add_right ..) (by omega)
  obtain ⟨cells, hv, hcell⟩ := Option.map_eq_some_iff.mp hx
  refine Option.map_eq_some_iff.mpr ⟨cells, ?_, hcell⟩
  exact hm.view_sub hg hram ho.owned (fun e => hmap r _ (e ▸ hpage)) hv

/-- A `WRITE` inside a region. -/
theorem Holds.write (h : Holds m s) (ho : OwnedInv c s) {destination offset : BitVec 32}
    (hid : destination.toNat < pagingMaxSymtblSz)
    (hlt : offset.toNat < ((s.mm p).symrgtbl ⟨destination.toNat, hid⟩).rgEnd -
      ((s.mm p).symrgtbl ⟨destination.toNat, hid⟩).rgStart) {data : Byte}
    (hsym : ∀ q, (s'.mm q).symrgtbl = (s.mm q).symrgtbl)
    (hbyte : ∀ q x, s'.byte q x =
      if q = p ∧ x = vaddr ((s.mm p).symrgtbl ⟨destination.toNat, hid⟩) offset then some data
      else s.byte q x)
    (hm : ∀ q r off, m' q r off =
      if q = p ∧ r = destination.toNat ∧ off = offset.toNat then some data else m q r off) :
    Holds m' s' := by
  have hmm := (ho.base.proc p).mm
  have hva := (vaddr_of_lt (hmm.live ⟨destination.toNat, hid⟩) hmm.bound hlt).2
  intro q r off b hb hlt' x hx
  rw [hm] at hb
  rw [hsym] at hlt' hx
  rw [hbyte, hva] at hx
  by_cases he : q = p ∧ (r : ℕ) = destination.toNat ∧ off = offset.toNat
  · obtain ⟨rfl, hr, rfl⟩ := he
    obtain rfl : r = ⟨destination.toNat, hid⟩ := Fin.ext hr
    rw [if_pos ⟨rfl, rfl⟩] at hx
    rw [if_pos ⟨rfl, rfl, rfl⟩] at hb
    exact Option.some.inj (hx.symm.trans hb)
  · rw [if_neg he] at hb
    have hne : ¬ (q = p ∧ ((s.mm q).symrgtbl r).rgStart + off =
        ((s.mm p).symrgtbl ⟨destination.toNat, hid⟩).rgStart + offset.toNat) := by
      rintro ⟨rfl, heq⟩
      obtain ⟨rfl, hoff⟩ := hmm.byte_unique hlt' hlt heq
      exact he ⟨rfl, rfl, hoff⟩
    rw [if_neg hne] at hx
    exact h q r off b hb hlt' x hx

/-- A `READ` inside a region fetches the byte stored. -/
theorem Holds.readBack (h : Holds m s) (hram : numfp c.ramSz ≤ 8192) (ho : OwnedInv c s)
    {a : Label ι} (hin : Inside s a) (hrun : run s a.proc a.ins a.raw = .ok (a.out, s')) :
    ReadBack m a := by
  intro hop hstat b hb
  unfold Inside at hin
  rw [hop] at hin
  obtain ⟨hid, hlt⟩ := lt_of_lt_liveLength hin
  obtain ⟨r, heq, -, hend⟩ := tlbread_spec (p := a.proc) hram ho hid a.ins.arg1
  have hout : a.out = ⟨r.1, r.2.1⟩ := by
    unfold run at hrun
    simp only [hop, heq, Except.map] at hrun
    exact (congrArg Prod.fst (Except.ok.inj hrun)).symm
  have hmm := (ho.base.proc a.proc).mm
  have hva := (vaddr_of_lt (hmm.live ⟨a.ins.arg0.toNat, hid⟩) hmm.bound hlt).2
  obtain ⟨-, -, x, hx, hdata⟩ | ⟨h1, -⟩ := hend
  · rw [hva] at hx
    rw [hout, hdata, h _ ⟨_, hid⟩ _ _ hb hlt x hx]
  · rw [hout, h1] at hstat
    cases hstat

end Simulation

/-! ## Runs -/

/-- The invariant of the runs in which no `ALLOC` loses track of a frame. -/
structure StoredInv (c : Config ι) (tr : List (Label ι)) (s : System ι) : Prop where
  owned : OwnedInv c s
  holds : Holds (lastStored tr) s
  reads : ReadsBack tr

/-- The condition on the steps. -/
def TransparentOk (s : System ι) (a : Label ι) (s' : System ι) : Prop :=
  Disciplined s a s' ∧ SlotsOk s a.proc a.ins ∧ ListKept s a.proc a.ins

instance [Fintype ι] (s : System ι) (a : Label ι) (s' : System ι) :
    Decidable (Disciplined s a s') :=
  inferInstanceAs (Decidable (_ ∧ _))

instance [Fintype ι] (s : System ι) (a : Label ι) (s' : System ι) :
    Decidable (TransparentOk s a s') :=
  inferInstanceAs (Decidable (_ ∧ _))

theorem storeStep_of_opcode {m : Stored ι} {a : Label ι} (h1 : a.ins.opcode ≠ .ALLOC)
    (h2 : a.ins.opcode ≠ .WRITE) : storeStep m a = m := by
  funext p r off
  unfold storeStep
  split
  · next h => exact absurd h h1
  · next h => exact absurd h h2
  · rfl

/-- One instruction keeps the simulation. -/
theorem Holds.step {c : Config ι} (hram : numfp c.ramSz ≤ 8192) {m : Stored ι} {s s' : System ι}
    {a : Label ι} (h : Holds m s) (ho : OwnedInv c s) (hsize : SizeOk s a.proc a.ins)
    (hslots : SlotsOk s a.proc a.ins) (hin : Inside s a)
    (hrun : run s a.proc a.ins a.raw = .ok (a.out, s')) : Holds (storeStep m a) s' := by
  have hproc := ho.base.proc a.proc
  generalize hout : a.out = o at hrun
  cases executed_of_run hrun with
  | compute hop =>
    rw [storeStep_of_opcode (by simp [hop]) (by simp [hop])]
    exact h
  | @alloc _ _ rgid hop hid hrgid hr =>
    obtain ⟨hn1, hn, hbrk⟩ := hsize hop
    obtain ⟨res, heq, hm, -, -, addr, hend⟩ := tlballoc_moves hproc hid hn1 hn hbrk a.raw
    rw [heq] at hr
    cases hr
    simp only at hm hend
    refine h.moves hram ho hm (fun x hx => hx.2 (hslots hop)) (fun r k hk x hx => ?_)
      (fun q r off b hb => ?_) fun r off hr => ?_
    · rintro rfl
      exact hx.1.2 r hk
    · unfold storeStep at hb
      simp only [hop] at hb
      split_ifs at hb
      exact hb
    · unfold storeStep at hr
      simp only [hop, hout] at hr
      by_cases hri : r = ⟨rgid.toNat, hid⟩
      · subst hri
        cases hend with
        | mapped rg h0 => simp [h0, hrgid h0] at hr
        | failed h0 hs =>
          exact hs.imp (fun hs => by rw [hs]) fun hs => by rw [hs, Function.update_self]
      · left
        cases hend with
        | mapped rg h0 ha hs => rw [hs, Function.update_of_ne hri]
        | failed h0 hs => rcases hs with hs | hs <;> simp [hs, hri]
  | free hop hr =>
    rw [storeStep_of_opcode (by simp [hop]) (by simp [hop])]
    obtain he | hid := lt_of_tlbfreeData hr
    · cases he
      exact h
    · obtain ⟨stat, t, heq, hf⟩ := tlbfreeData_moves hproc ho.base.tlb.unique hid
      rw [heq] at hr
      cases hr
      refine h.moves hram ho hf.moves (fun x hx => hx.2 (ho.owned.framesOk hram))
        (fun r k _ x hx => ?_) (fun _ _ _ _ hb => hb) fun r off _ => ?_
      · rintro rfl
        exact hx.1
      · obtain hs | hs := hf.symrgtbl
        · exact .inl (by rw [hs])
        · rw [hs, Function.update_apply]
          split_ifs
          · exact .inr rfl
          · exact .inl rfl
  | read hop hr =>
    rw [storeStep_of_opcode (by simp [hop]) (by simp [hop])]
    unfold Inside at hin
    rw [hop] at hin
    obtain ⟨hid, -⟩ := lt_of_lt_liveLength hin
    obtain ⟨r, heq, hquiet, -⟩ := tlbread_spec (p := a.proc) hram ho hid a.ins.arg1
    rw [heq] at hr
    cases hr
    exact h.quiet hquiet
  | write hop hr =>
    unfold Inside at hin
    rw [hop] at hin
    obtain ⟨hid, hlt⟩ := lt_of_lt_liveLength hin
    obtain ⟨r, heq, -, hsym, hend⟩ :=
      tlbwrite_spec (p := a.proc) hram ho (a.ins.arg0.setWidth 8) hid a.ins.arg2
    rw [heq] at hr
    cases hr
    obtain ⟨h0, -, hbyte⟩ | ⟨h1, -, hbyte⟩ := hend
    · refine h.write ho hid hlt hsym hbyte fun q r off => ?_
      simp only at h0
      simp [storeStep, hop, hout, h0]
    · -- a refused `WRITE` changes neither side
      have hsame : storeStep m a = m := by
        funext q r off
        simp only at h1
        simp [storeStep, hop, hout, h1]
      rw [hsame]
      intro q r off b hb hlt' x hx
      rw [hsym] at hlt' hx
      exact h q r off b hb hlt' x (by rwa [← hbyte])

theorem storedInv_of_run {c : Config ι} (hram : numfp c.ramSz ≤ 8192) {tr : List (Label ι)}
    {s : System ι} (h : ((memLts c).guard TransparentOk).Run tr s) : StoredInv c tr s := by
  refine h.history (I := StoredInv c) (fun s h0 => ?_) fun tr s a s' ih hst => ?_
  · rw [show s = c.init from h0]
    refine ⟨.init c, fun p r off b hb => by simp [lastStored] at hb, fun pre a post heq => ?_⟩
    simp at heq
  · obtain ⟨hrun, ⟨hbreaks, hin⟩, hslots, -⟩ := hst
    have hsize := ih.owned.base.sizeOk hbreaks hrun
    refine ⟨ih.owned.step hram hsize hslots hrun, ?_,
      ih.reads.snoc (ih.holds.readBack hram ih.owned hin hrun)⟩
    rw [lastStored_snoc]
    exact ih.holds.step hram ih.owned hsize hslots hin hrun

/-- In every run of disciplined programs in which each `ALLOC` finds its frames without losing
track of any, and searches a list that does not lead to the variable of an `__alloc` that has
returned, every `READ` that returns 0 fetches the byte stored last. -/
theorem readsBack_of_run {c : Config ι} (hram : numfp c.ramSz ≤ 8192) {tr : List (Label ι)}
    {s : System ι} (h : ((memLts c).guard TransparentOk).Run tr s) : ReadsBack tr :=
  (storedInv_of_run hram h).reads

/-- A page is written, evicted, fetched again and read. -/
theorem readsBack_evicted : ∃ s,
    ((memLts (Config.two 256 256)).guard TransparentOk).Run
      [⟨0, ⟨.ALLOC, 256, 0, 0⟩, [], ⟨0, none⟩⟩, ⟨0, ⟨.WRITE, 7, 0, 5⟩, [], ⟨0, none⟩⟩,
        ⟨0, ⟨.ALLOC, 256, 1, 0⟩, [], ⟨0, none⟩⟩, ⟨0, ⟨.FREE, 1, 0, 0⟩, [], ⟨0, none⟩⟩,
        ⟨0, ⟨.READ, 0, 5, 0⟩, [], ⟨0, some 7⟩⟩] s ∧
      ReadsBack
        [(⟨0, ⟨.ALLOC, 256, 0, 0⟩, [], ⟨0, none⟩⟩ : Label (Fin 2)),
          ⟨0, ⟨.WRITE, 7, 0, 5⟩, [], ⟨0, none⟩⟩, ⟨0, ⟨.ALLOC, 256, 1, 0⟩, [], ⟨0, none⟩⟩,
          ⟨0, ⟨.FREE, 1, 0, 0⟩, [], ⟨0, none⟩⟩, ⟨0, ⟨.READ, 0, 5, 0⟩, [], ⟨0, some 7⟩⟩] := by
  obtain ⟨s, hrun, -⟩ := exists_run_of_runAll (Config.two 256 256) TransparentOk
    [⟨0, ⟨.ALLOC, 256, 0, 0⟩, [], ⟨0, none⟩⟩, ⟨0, ⟨.WRITE, 7, 0, 5⟩, [], ⟨0, none⟩⟩,
      ⟨0, ⟨.ALLOC, 256, 1, 0⟩, [], ⟨0, none⟩⟩, ⟨0, ⟨.FREE, 1, 0, 0⟩, [], ⟨0, none⟩⟩,
      ⟨0, ⟨.READ, 0, 5, 0⟩, [], ⟨0, some 7⟩⟩] (fun _ => true) (by decide +kernel)
  exact ⟨s, hrun, readsBack_of_run (by decide) hrun⟩

/-- One frame of RAM and no swap: the first `ALLOC` of region 1 finds a victim and no slot for it,
fails, and puts the number 0 found in `newfp_str` on the free list. The second one maps frame 0 a
second time, and the byte written to region 1 is read from region 0. -/
theorem not_readsBack_spill : ∃ s,
    ((memLts (Config.two 256 0)).guard Disciplined).Run
      [⟨0, ⟨.ALLOC, 256, 0, 0⟩, [], ⟨0, none⟩⟩, ⟨0, ⟨.WRITE, 7, 0, 0⟩, [], ⟨0, none⟩⟩,
        ⟨0, ⟨.ALLOC, 256, 1, 0⟩, [0], ⟨-1, none⟩⟩, ⟨0, ⟨.ALLOC, 256, 1, 0⟩, [], ⟨0, none⟩⟩,
        ⟨0, ⟨.WRITE, 9, 1, 0⟩, [], ⟨0, none⟩⟩, ⟨0, ⟨.READ, 0, 0, 0⟩, [], ⟨0, some 9⟩⟩] s ∧
      ¬ ReadsBack
        [(⟨0, ⟨.ALLOC, 256, 0, 0⟩, [], ⟨0, none⟩⟩ : Label (Fin 2)),
          ⟨0, ⟨.WRITE, 7, 0, 0⟩, [], ⟨0, none⟩⟩, ⟨0, ⟨.ALLOC, 256, 1, 0⟩, [0], ⟨-1, none⟩⟩,
          ⟨0, ⟨.ALLOC, 256, 1, 0⟩, [], ⟨0, none⟩⟩, ⟨0, ⟨.WRITE, 9, 1, 0⟩, [], ⟨0, none⟩⟩,
          ⟨0, ⟨.READ, 0, 0, 0⟩, [], ⟨0, some 9⟩⟩] := by
  obtain ⟨s, hrun, -⟩ := exists_run_of_runAll (Config.two 256 0) Disciplined
    [⟨0, ⟨.ALLOC, 256, 0, 0⟩, [], ⟨0, none⟩⟩, ⟨0, ⟨.WRITE, 7, 0, 0⟩, [], ⟨0, none⟩⟩,
      ⟨0, ⟨.ALLOC, 256, 1, 0⟩, [0], ⟨-1, none⟩⟩, ⟨0, ⟨.ALLOC, 256, 1, 0⟩, [], ⟨0, none⟩⟩,
      ⟨0, ⟨.WRITE, 9, 1, 0⟩, [], ⟨0, none⟩⟩, ⟨0, ⟨.READ, 0, 0, 0⟩, [], ⟨0, some 9⟩⟩]
    (fun _ => true) (by decide +kernel)
  refine ⟨s, hrun, fun h => ?_⟩
  have hread := h [⟨0, ⟨.ALLOC, 256, 0, 0⟩, [], ⟨0, none⟩⟩, ⟨0, ⟨.WRITE, 7, 0, 0⟩, [], ⟨0, none⟩⟩,
      ⟨0, ⟨.ALLOC, 256, 1, 0⟩, [0], ⟨-1, none⟩⟩, ⟨0, ⟨.ALLOC, 256, 1, 0⟩, [], ⟨0, none⟩⟩,
      ⟨0, ⟨.WRITE, 9, 1, 0⟩, [], ⟨0, none⟩⟩]
    ⟨0, ⟨.READ, 0, 0, 0⟩, [], ⟨0, some 9⟩⟩ [] rfl rfl rfl 7 (by decide)
  exact absurd hread (by decide)

end OsSim.Mem
