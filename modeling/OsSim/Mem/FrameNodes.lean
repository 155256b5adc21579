import OsSim.Lib.Lts
import OsSim.Mem.Memphy
import OsSim.Mem.PgnList

/-!
# Free frames

`MEMPHY_format`, `MEMPHY_get_freefp` and `MEMPHY_put_freefp` (`src/mm-memphy.c`,
lines 119–200) on the nodes `struct framephy_struct` themselves. A node comes from
`malloc`, at an address where no node is; `none` is a pointer to no node.

Results:
* `memphyFormat_refines`, `memphyGetFreefp_refines`, `memphyPutFreefp_refines`: they
  do what the functions on lists that the rest of the model uses do.
* `framesKept_of_run`: after any calls, the frames that have been put back come out
  first, every node that is allocated is in the list, and if only frames that are out
  are put back, every frame of the device is in the list or out, once.
-/

namespace OsSim.Mem

open LinkedList

/-- The nodes `struct framephy_struct` of a device, its free list and its size. -/
structure FrameMem where
  heap : Heap Addr ℤ
  freeFpList : Option Addr
  maxsz : ℤ

namespace FrameMem

/-! ## The code -/

/-- A turn of the loop of `MEMPHY_format` (lines 135–142): the nodes, and `fst`. -/
def formatNode (nodes : ℕ → Addr) (s : Heap Addr ℤ × Addr) (iter : ℕ) : Heap Addr ℤ × Addr :=
  let heap := s.1.alloc (nodes iter) ⟨iter, none⟩
  (heap.setNext s.2 (some (nodes iter)), nodes iter)

/-- `MEMPHY_format` (lines 119–145). `nodes` are the nodes from `malloc`, and `raw` is what stands
at `fp_next` of the first one, which is set only when there is a second one. -/
def memphyFormat (m : FrameMem) (nodes : ℕ → Addr) (raw : Option Addr) : ℤ × FrameMem :=
  let numfp := m.maxsz.tdiv pagingPagesz
  if numfp ≤ 0 then (-1, m)
  else
    let heap := m.heap.alloc (nodes 0) ⟨0, raw⟩
    let s := (List.range' 1 (numfp.toNat - 1)).foldl (formatNode nodes) (heap, nodes 0)
    (0, { m with heap := s.1, freeFpList := some (nodes 0) })

/-- `MEMPHY_get_freefp` (lines 147–168): the status, `*retfpn` if it is assigned, the device. -/
def memphyGetFreefp (m : FrameMem) : Option (ℤ × Option ℤ × FrameMem) :=
  if m.maxsz ≤ 0 then some (-1, none, m)
  else
    match m.freeFpList with
    | none => some (-1, none, m)
    | some fp =>
      match m.heap fp with
      | none => none
      | some node =>
        some (0, some node.val, { m with heap := m.heap.free fp, freeFpList := node.next })

/-- `MEMPHY_put_freefp` (lines 187–200). -/
def memphyPutFreefp (m : FrameMem) (newnode : Addr) (fpn : ℤ) : FrameMem :=
  { m with heap := m.heap.alloc newnode ⟨fpn, m.freeFpList⟩, freeFpList := some newnode }

/-! ## The list -/

/-- The list is `l`, and no other node is allocated. -/
structure Linked (m : FrameMem) (l : List (Addr × ℤ)) : Prop where
  seg : Seg m.heap m.freeFpList l none
  within : m.heap.Within (· ∈ l.map Prod.fst)

/-- The list holds `frames`, in this order. -/
def Holds (m : FrameMem) (frames : List ℤ) : Prop := ∃ l, m.Linked l ∧ l.map Prod.snd = frames

/-- The device as the rest of the model has it. -/
structure Represents (m : FrameMem) (mp : Memphy) : Prop where
  holds : m.Holds mp.freeFpList
  maxsz : m.maxsz = mp.maxsz

variable {m : FrameMem} {frames : List ℤ} {mp : Memphy}

/-! ## `MEMPHY_format` -/

/-- `malloc` returns addresses of no node, a new one in every turn. -/
structure Fresh (h : Heap Addr ℤ) (nodes : ℕ → Addr) (n : ℕ) : Prop where
  free : ∀ i < n, h (nodes i) = none
  inj : ∀ i < n, ∀ j < n, nodes i = nodes j → i = j

/-- The nodes of the first `n` frames. -/
def newNodes (nodes : ℕ → Addr) (n : ℕ) : List (Addr × ℤ) :=
  (List.range n).map fun i => (nodes i, (i : ℤ))

theorem newNodes_succ (nodes : ℕ → Addr) (n : ℕ) :
    newNodes nodes (n + 1) = newNodes nodes n ++ [(nodes n, (n : ℤ))] := by
  rw [newNodes, List.range_succ, List.map_append, List.map_singleton, newNodes]

theorem map_snd_newNodes (nodes : ℕ → Addr) (n : ℕ) :
    (newNodes nodes n).map Prod.snd = (List.range n).map Int.ofNat := by
  rw [newNodes, List.map_map]
  rfl

theorem mem_newNodes {nodes : ℕ → Addr} {n : ℕ} {a : Addr} :
    a ∈ (newNodes nodes n).map Prod.fst ↔ ∃ i < n, nodes i = a := by
  simp [newNodes]

/-- After `k` turns the first `k + 1` frames are linked; the first node alone is not ended. -/
theorem formatNode_foldl {h : Heap Addr ℤ} {nodes : ℕ → Addr} (raw : Option Addr) {n : ℕ}
    (hf : Fresh h nodes n) (k : ℕ) (hk : k < n) :
    ∃ h', (List.range' 1 k).foldl (formatNode nodes) (h.alloc (nodes 0) ⟨0, raw⟩, nodes 0) =
        (h', nodes k) ∧
      Seg h' (some (nodes 0)) (newNodes nodes (k + 1)) (if k = 0 then raw else none) ∧
      ∀ a, (∀ i ≤ k, nodes i ≠ a) → h' a = h a := by
  induction k with
  | zero =>
    refine ⟨_, rfl, .single (Function.update_self ..), fun a ha => ?_⟩
    exact Function.update_of_ne (ha 0 (Nat.le_refl 0)).symm ..
  | succ k ih =>
    obtain ⟨h', hfold, hseg, hout⟩ := ih (by omega)
    have hnode : ∀ i ≤ k, nodes i ≠ nodes (k + 1) := by
      intro i hi heq
      have := hf.inj i (by omega) (k + 1) hk heq
      omega
    have hfree : h' (nodes (k + 1)) = none := by
      rw [hout _ hnode]
      exact hf.free _ hk
    have hlast : nodes k ∉ (newNodes nodes k).map Prod.fst := by
      rw [mem_newNodes]
      rintro ⟨i, hi, heq⟩
      have := hf.inj i (by omega) k (by omega) heq
      omega
    rw [newNodes_succ] at hseg
    refine ⟨(h'.alloc (nodes (k + 1)) ⟨((k + 1 : ℕ) : ℤ), none⟩).setNext (nodes k)
      (some (nodes (k + 1))), ?_, ?_, fun a ha => ?_⟩
    · rw [List.range'_1_concat, List.foldl_append, hfold, Nat.add_comm 1 k]
      rfl
    · rw [if_neg (Nat.succ_ne_zero k), newNodes_succ, newNodes_succ, List.append_assoc,
        List.singleton_append]
      exact hseg.push_back hlast hfree _
    · rw [Heap.setNext, Function.update_of_ne (ha k (Nat.le_succ k)).symm, Heap.alloc,
        Function.update_of_ne (ha (k + 1) (Nat.le_refl _)).symm]
      exact hout a fun i hi => ha i (by omega)

/-- The frames of a formatted device, in their order; a device of one frame goes on with the list
found at the pointer that is not set. -/
theorem memphyFormat_refines {nodes : ℕ → Addr} {raw : Option Addr} {next : List (Addr × ℤ)}
    (hf : Fresh m.heap nodes (numfp m.maxsz).toNat) (hsz : m.maxsz = mp.maxsz)
    (hpos : 0 < numfp m.maxsz) (hraw : numfp m.maxsz = 1 → Seg m.heap raw next none)
    (hw : m.heap.Within fun a => numfp m.maxsz = 1 ∧ a ∈ next.map Prod.fst) :
    (m.memphyFormat nodes raw).1 = (Mem.memphyFormat mp (next.map Prod.snd)).1 ∧
      (m.memphyFormat nodes raw).2.Represents (Mem.memphyFormat mp (next.map Prod.snd)).2 := by
  obtain ⟨n, hn⟩ : ∃ n : ℕ, numfp m.maxsz = n + 1 := ⟨(numfp m.maxsz - 1).toNat, by omega⟩
  have hn' : (numfp m.maxsz).toNat = n + 1 := by omega
  rw [hn'] at hf
  obtain ⟨h', hfold, hseg, hout⟩ := formatNode_foldl raw hf n (Nat.lt_succ_self n)
  have hcode : m.memphyFormat nodes raw =
      (0, { m with heap := h', freeFpList := some (nodes 0) }) := by
    unfold memphyFormat
    simp only
    rw [if_neg (show ¬ m.maxsz.tdiv pagingPagesz ≤ 0 from not_le.mpr hpos),
      show (m.maxsz.tdiv pagingPagesz).toNat - 1 = n by unfold numfp at hn'; omega, hfold]
  have hlist : Mem.memphyFormat mp (next.map Prod.snd) = (0, mp.setFree
      ((newNodes nodes (n + 1)).map Prod.snd ++ if n = 0 then next.map Prod.snd else [])) := by
    have hmp : mp.maxsz.tdiv pagingPagesz = n + 1 := hsz ▸ hn
    have hone : (n : ℤ) + 1 = 1 ↔ n = 0 := by omega
    unfold Mem.memphyFormat
    simp only [hmp, hone]
    rw [if_neg (by omega), map_snd_newNodes]
    rfl
  rw [hcode, hlist]
  refine ⟨rfl, ⟨newNodes nodes (n + 1) ++ if n = 0 then next else [], ⟨?_, ?_⟩, ?_⟩, hsz⟩
  · -- the first node of a device of one frame ends where `raw` leads
    refine hseg.append ?_
    split_ifs with h0
    · have hseg0 := hraw (by omega)
      refine hseg0.frame fun a ha => hout a ?_
      intro i hi hia
      exact hseg0.not_mem_of_free (hf.free i (by omega)) (hia ▸ ha)
    · exact .nil none
  · intro a ha
    show a ∈ List.map Prod.fst _
    rw [List.map_append, List.mem_append, mem_newNodes]
    by_cases hnew : ∃ i < n + 1, nodes i = a
    · exact .inl hnew
    · push Not at hnew
      have hold : m.heap a ≠ none := by
        rw [← hout a fun i hi => hnew i (by omega)]
        exact ha
      obtain ⟨hone, hmem⟩ := hw a hold
      rw [if_pos (show n = 0 by omega)]
      exact .inr hmem
  · rw [List.map_append]
    split_ifs <;> rfl

/-! ## `MEMPHY_get_freefp` and `MEMPHY_put_freefp` -/

theorem memphyGetFreefp_nil (h : m.Holds []) : m.memphyGetFreefp = some (-1, none, m) := by
  obtain ⟨l, ⟨hseg, -⟩, hl⟩ := h
  rw [List.map_eq_nil_iff] at hl
  subst hl
  rw [memphyGetFreefp, hseg.eq_none]
  split_ifs <;> rfl

/-- The first frame is returned and its node is freed. -/
theorem memphyGetFreefp_cons {fpn : ℤ} (hm : 0 < m.maxsz) (h : m.Holds (fpn :: frames)) :
    ∃ m', m.memphyGetFreefp = some (0, some fpn, m') ∧ m'.Holds frames ∧ m'.maxsz = m.maxsz := by
  obtain ⟨l, ⟨hseg, hw⟩, hl⟩ := h
  obtain ⟨⟨fp, v⟩, rest, rfl, rfl, rfl⟩ := List.map_eq_cons_iff.mp hl
  obtain ⟨a, hfp⟩ := hseg.exists_addr (List.cons_ne_nil _ _)
  rw [hfp] at hseg
  obtain rfl : a = fp := by
    cases hseg
    rfl
  obtain ⟨next, hnode, hrest⟩ := hseg.drop_head
  refine ⟨{ m with heap := m.heap.free a, freeFpList := next }, ?_, ⟨rest, ⟨hrest, ?_⟩, rfl⟩, rfl⟩
  · rw [memphyGetFreefp, if_neg (not_le.mpr hm), hfp]
    simp only [hnode]
  · refine hw.free fun b hb hne => ?_
    rw [List.map_cons, List.mem_cons] at hb
    exact hb.resolve_left hne

theorem memphyPutFreefp_holds (h : m.Holds frames) {newnode : Addr}
    (hfree : m.heap newnode = none) (fpn : ℤ) :
    (m.memphyPutFreefp newnode fpn).Holds (fpn :: frames) := by
  obtain ⟨l, ⟨hseg, hw⟩, rfl⟩ := h
  refine ⟨(newnode, fpn) :: l, ⟨hseg.push hfree fpn, hw.alloc (fun a ha => ?_) ?_ _⟩, rfl⟩
  · rw [List.map_cons]
    exact List.mem_cons_of_mem _ ha
  · rw [List.map_cons]
    exact List.mem_cons_self

theorem memphyGetFreefp_refines (h : m.Represents mp) :
    match Mem.memphyGetFreefp mp with
    | none => m.memphyGetFreefp = some (-1, none, m)
    | some (fpn, mp') => ∃ m', m.memphyGetFreefp = some (0, some fpn, m') ∧ m'.Represents mp' := by
  obtain ⟨hholds, hsz⟩ := h
  unfold Mem.memphyGetFreefp
  split_ifs with hm
  · rw [memphyGetFreefp, hsz, if_pos hm]
  · cases hlist : mp.freeFpList with
    | nil => exact memphyGetFreefp_nil (hlist ▸ hholds)
    | cons fpn rest =>
      obtain ⟨m', hget, hrest, hsz'⟩ := memphyGetFreefp_cons (by omega) (hlist ▸ hholds)
      exact ⟨m', hget, hrest, hsz'.trans hsz⟩

theorem memphyPutFreefp_refines (h : m.Represents mp) {newnode : Addr}
    (hfree : m.heap newnode = none) (fpn : ℤ) :
    (m.memphyPutFreefp newnode fpn).Represents (Mem.memphyPutFreefp mp fpn) :=
  ⟨memphyPutFreefp_holds h.holds hfree fpn, h.maxsz⟩

end FrameMem

/-! ## Runs -/

/-- A call, and what `MEMPHY_get_freefp` returns: a frame, or none. -/
inductive FrameCall where
  | get (retfpn : Option ℤ)
  | put (fpn : ℤ)

/-- A device of `n` frames after `MEMPHY_format`, and any calls. The pointer that a device of one
frame does not set happens to be `NULL`. -/
def frameLts (n : ℕ) : Lts FrameMem FrameCall where
  init m := ∃ (m0 : FrameMem) (nodes : ℕ → Addr) (raw : Option Addr), (∀ a, m0.heap a = none) ∧
    FrameMem.Fresh m0.heap nodes n ∧ numfp m0.maxsz = n ∧ 0 < n ∧ (n = 1 → raw = none) ∧
    m = (m0.memphyFormat nodes raw).2
  step m call m' :=
    match call with
    | .get retfpn => ∃ ret, m.memphyGetFreefp = some (ret, retfpn, m')
    | .put fpn => ∃ newnode, m.heap newnode = none ∧ m' = m.memphyPutFreefp newnode fpn

/-- The frames in the list, and the frames that are out, after a call. -/
def FrameCall.after (s : List ℤ × List ℤ) : FrameCall → List ℤ × List ℤ
  | .get none => s
  | .get (some fpn) => (s.1.tail, fpn :: s.2)
  | .put fpn => (fpn :: s.1, s.2.erase fpn)

/-- The frames in the list of a device of `n` frames, the next one first, and those that are out. -/
def framesAfter (n : ℕ) (tr : List FrameCall) : List ℤ × List ℤ :=
  tr.foldl FrameCall.after ((List.range n).map Int.ofNat, [])

/-- Only frames that are out are put back. -/
def PutsBack (n : ℕ) (tr : List FrameCall) : Prop :=
  ∀ tr1 fpn tr2, tr = tr1 ++ .put fpn :: tr2 → fpn ∈ (framesAfter n tr1).2

/-- What the next call is going to find. -/
structure FramesKept (n : ℕ) (tr : List FrameCall) (m : FrameMem) : Prop where
  holds : m.Holds (framesAfter n tr).1
  exhausted : (framesAfter n tr).1 = [] → m.memphyGetFreefp = some (-1, none, m)
  next : ∀ fpn rest, (framesAfter n tr).1 = fpn :: rest →
    ∃ m', m.memphyGetFreefp = some (0, some fpn, m')
  once : PutsBack n tr → ((framesAfter n tr).1 ++ (framesAfter n tr).2).Perm
    ((List.range n).map Int.ofNat)

section

variable {n : ℕ} {tr : List FrameCall} {m m' : FrameMem}

theorem framesAfter_snoc (n : ℕ) (tr : List FrameCall) (call : FrameCall) :
    framesAfter n (tr ++ [call]) = call.after (framesAfter n tr) := by
  rw [framesAfter, List.foldl_append]
  rfl

theorem putsBack_nil (n : ℕ) : PutsBack n [] := by
  intro tr1 fpn tr2 htr
  simp at htr

theorem putsBack_snoc {call : FrameCall} : PutsBack n (tr ++ [call]) ↔
    PutsBack n tr ∧ ∀ fpn, call = .put fpn → fpn ∈ (framesAfter n tr).2 := by
  constructor
  · intro h
    refine ⟨fun tr1 fpn tr2 htr => ?_, fun fpn hcall => ?_⟩
    · refine h tr1 fpn (tr2 ++ [call]) ?_
      rw [htr, List.append_assoc, List.cons_append]
    · exact h tr fpn [] (hcall ▸ rfl)
  · rintro ⟨h, hlast⟩ tr1 fpn tr2 htr
    induction tr2 using List.reverseRecOn with
    | nil =>
      obtain ⟨rfl, hcall⟩ := List.append_inj' htr rfl
      exact hlast fpn (List.singleton_inj.mp hcall)
    | append_singleton tr2 last _ =>
      rw [← List.cons_append, ← List.append_assoc] at htr
      exact h tr1 fpn tr2 (List.append_inj' htr rfl).1

/-- A formatted device holds all its frames. -/
theorem holds_of_init (h : (frameLts n).init m) :
    0 < m.maxsz ∧ m.Holds ((List.range n).map Int.ofNat) := by
  obtain ⟨m0, nodes, raw, hempty, hf, hn, hpos, hraw, rfl⟩ := h
  have hpos' : 0 < numfp m0.maxsz := by omega
  obtain ⟨-, hrep⟩ := @FrameMem.memphyFormat_refines m0 { Memphy.zero with maxsz := m0.maxsz }
    nodes raw [] (by rwa [hn, Int.toNat_natCast]) rfl hpos'
    (fun hone => by rw [hraw (by omega)]; exact .nil none) (fun a ha => absurd (hempty a) ha)
  have hlist : (Mem.memphyFormat { Memphy.zero with maxsz := m0.maxsz } []).2.freeFpList =
      (List.range n).map Int.ofNat := by
    have hdiv : m0.maxsz.tdiv pagingPagesz = n := hn
    unfold Mem.memphyFormat
    simp only [hdiv]
    rw [if_neg (by omega), ite_self, List.append_nil, Int.toNat_natCast]
  have hsz : (Mem.memphyFormat { Memphy.zero with maxsz := m0.maxsz } []).2.maxsz = m0.maxsz := by
    unfold Mem.memphyFormat
    simp only
    split_ifs <;> rfl
  refine ⟨?_, ?_⟩
  · rw [hrep.maxsz, List.map_nil, hsz]
    exact maxsz_pos_of_numfp hpos'
  · rw [← hlist]
    exact hrep.holds

theorem holds_step (hpos : 0 < m.maxsz) (h : m.Holds (framesAfter n tr).1) {call : FrameCall}
    (hst : (frameLts n).step m call m') :
    0 < m'.maxsz ∧ m'.Holds (framesAfter n (tr ++ [call])).1 := by
  rw [framesAfter_snoc]
  cases call with
  | put fpn =>
    obtain ⟨newnode, hfree, rfl⟩ := hst
    exact ⟨hpos, m.memphyPutFreefp_holds h hfree fpn⟩
  | get retfpn =>
    obtain ⟨ret, hget⟩ := hst
    cases hl : (framesAfter n tr).1 with
    | nil =>
      rw [hl] at h
      rw [m.memphyGetFreefp_nil h] at hget
      cases hget
      refine ⟨hpos, ?_⟩
      rwa [FrameCall.after, hl]
    | cons fpn rest =>
      rw [hl] at h
      obtain ⟨m1, hget1, hrest, hsz⟩ := m.memphyGetFreefp_cons hpos h
      rw [hget1] at hget
      cases hget
      refine ⟨hsz ▸ hpos, ?_⟩
      rwa [FrameCall.after, hl, List.tail_cons]

theorem holds_of_frames_run (h : (frameLts n).Run tr m) :
    0 < m.maxsz ∧ m.Holds (framesAfter n tr).1 := by
  refine h.history (I := fun tr m => 0 < m.maxsz ∧ m.Holds (framesAfter n tr).1) ?_ ?_
  · intro m h0
    exact holds_of_init h0
  · rintro tr m call m' ⟨hpos, hm⟩ hst
    exact holds_step hpos hm hst

/-- While only frames that are out are put back, the frames in the list and those that are out are
the frames of the device. -/
theorem perm_framesAfter (h : (frameLts n).Run tr m) (hback : PutsBack n tr) :
    ((framesAfter n tr).1 ++ (framesAfter n tr).2).Perm ((List.range n).map Int.ofNat) := by
  refine h.history (I := fun tr m => (0 < m.maxsz ∧ m.Holds (framesAfter n tr).1) ∧
    (PutsBack n tr → ((framesAfter n tr).1 ++ (framesAfter n tr).2).Perm
      ((List.range n).map Int.ofNat))) ?_ ?_ |>.2 hback
  · intro m h0
    refine ⟨holds_of_init h0, fun _ => ?_⟩
    rw [framesAfter, List.foldl_nil, List.append_nil]
  · rintro tr m call m' ⟨⟨hpos, hm⟩, hperm⟩ hst
    refine ⟨holds_step hpos hm hst, fun hback => ?_⟩
    obtain ⟨hback, hlast⟩ := putsBack_snoc.mp hback
    have hperm := hperm hback
    rw [framesAfter_snoc]
    cases call with
    | put fpn =>
      -- the frame moves from the frames that are out to the head of the list
      have hout := List.perm_cons_erase (hlast fpn rfl)
      rw [FrameCall.after, List.cons_append]
      refine .trans ?_ hperm
      refine .trans List.perm_middle.symm ?_
      exact hout.symm.append_left _
    | get retfpn =>
      obtain ⟨ret, hget⟩ := hst
      cases hl : (framesAfter n tr).1 with
      | nil =>
        rw [hl] at hm
        rw [m.memphyGetFreefp_nil hm] at hget
        cases hget
        rw [FrameCall.after]
        rwa [hl] at hperm ⊢
      | cons fpn rest =>
        rw [hl] at hm
        obtain ⟨m1, hget1, -, -⟩ := m.memphyGetFreefp_cons hpos hm
        rw [hget1] at hget
        cases hget
        rw [FrameCall.after, hl, List.tail_cons]
        rw [hl, List.cons_append] at hperm
        exact List.perm_middle.trans hperm

/-- After any calls on a formatted device the list holds the frames that were put back, the last one
first, before those that were never taken; and as long as only frames that are out are put back,
every frame of the device is in the list or out, and once. -/
theorem framesKept_of_run (h : (frameLts n).Run tr m) : FramesKept n tr m := by
  obtain ⟨hpos, hm⟩ := holds_of_frames_run h
  refine ⟨hm, ?_, ?_, perm_framesAfter h⟩
  · intro hl
    exact m.memphyGetFreefp_nil (hl ▸ hm)
  · intro fpn rest hl
    rw [hl] at hm
    obtain ⟨m', hget, -, -⟩ := m.memphyGetFreefp_cons hpos hm
    exact ⟨m', hget⟩

end

/-- Both frames of a device of two are taken, and the first one is put back: it comes next. -/
theorem framesKept_two : ∃ m, (frameLts 2).Run [.get (some 0), .get (some 1), .put 0] m ∧
    FramesKept 2 [.get (some 0), .get (some 1), .put 0] m ∧
    PutsBack 2 [.get (some 0), .get (some 1), .put 0] ∧
    (framesAfter 2 [.get (some 0), .get (some 1), .put 0]).1 = [0] := by
  have hinit : (frameLts 2).init ((⟨fun _ => none, none, 512⟩ : FrameMem).memphyFormat id none).2 :=
    ⟨⟨fun _ => none, none, 512⟩, id, none, fun _ => rfl, ⟨fun _ _ => rfl, fun _ _ _ _ => id⟩, rfl,
      by decide, fun _ => rfl, rfl⟩
  have h0 := Lts.Run.init hinit
  obtain ⟨hpos, hm⟩ := holds_of_init hinit
  obtain ⟨m1, hget1, hm1, hsz1⟩ := FrameMem.memphyGetFreefp_cons hpos
    (show FrameMem.Holds _ (0 :: [1]) from hm)
  have h1 : (frameLts 2).Run [.get (some 0)] m1 := h0.step ⟨0, hget1⟩
  obtain ⟨m2, hget2, hm2, -⟩ := FrameMem.memphyGetFreefp_cons (hsz1 ▸ hpos) hm1
  have h2 : (frameLts 2).Run [.get (some 0), .get (some 1)] m2 := h1.step ⟨0, hget2⟩
  obtain ⟨newnode, hfree⟩ : ∃ newnode, m2.heap newnode = none := by
    obtain ⟨l, ⟨-, hw⟩, hl⟩ := hm2
    rw [List.map_eq_nil_iff] at hl
    refine ⟨0, ?_⟩
    by_contra hne
    have hmem := hw 0 hne
    rw [hl] at hmem
    exact List.not_mem_nil hmem
  have h3 : (frameLts 2).Run [.get (some 0), .get (some 1), .put 0]
      (m2.memphyPutFreefp newnode 0) := h2.step ⟨newnode, hfree, rfl⟩
  refine ⟨_, h3, framesKept_of_run h3, ?_, by decide⟩
  have hget : PutsBack 2 ([] ++ [.get (some 0)]) := putsBack_snoc.mpr ⟨putsBack_nil 2, nofun⟩
  have hgets : PutsBack 2 ([.get (some 0)] ++ [.get (some 1)]) :=
    putsBack_snoc.mpr ⟨hget, nofun⟩
  refine (putsBack_snoc : PutsBack 2 ([.get (some 0), .get (some 1)] ++ [.put 0]) ↔ _).mpr
    ⟨hgets, ?_⟩
  rintro _ ⟨⟩
  decide

end OsSim.Mem
