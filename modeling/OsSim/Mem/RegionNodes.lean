import OsSim.Lib.LinkedList
import OsSim.Lib.Lts
import OsSim.Mem.Sizes

/-!
# Free regions

`enlist_vm_freerg_list` and `get_free_vmrg_area` (`src/mm-vm.c`, lines 24–40 and
675–732) on the nodes `struct vm_rg_struct` themselves. A node comes from `malloc`,
except that an `__alloc` that finds no frames for the region it was given links its own
variable `rgnode` (line 114) and returns: from then on the list starts with a pointer to
a variable that does not exist any more.

`none` is a loop that has not ended or has met a pointer to no node. In the memory system the
list is a list of regions, and `dangling` says that it leads to such a variable.

Results:
* `getFreeVmrgLoop_refines`, `getFreeVmrgArea_refines`, `enlist_refines`: on nodes that
  are linked, the functions do what those on lists do that the rest of the model uses.
* `getFreeVmrgLoop_dead`: on a list that leads to a variable that is gone, the loop gets
  there.
* `freerg_of_run`: in a run, the list stays linked as long as no `rgnode` is linked, and
  no later call finds an end of the list once one has been.
* `Part.onNodes`, `onNodes_of_run`: what an instruction does to the list of regions and to
  `dangling`, calls on nodes do.
-/

namespace OsSim.Mem

open LinkedList

/-- Where a node is: at an address from `malloc`, or the variable of an `__alloc`. -/
inductive RgAddr where
  | malloc (a : ℕ)
  | rgnode (call : ℕ)
  deriving DecidableEq

/-- The nodes `struct vm_rg_struct`, `vm_freerg_list`, and the variables `rgnode` that have been
linked. -/
structure RgMem where
  heap : Heap RgAddr VmRg
  vmFreergList : Option RgAddr
  calls : ℕ

namespace RgMem

/-! ## The code -/

/-- `enlist_vm_freerg_list` (lines 24–40). -/
def enlistVmFreergList (m : RgMem) (rgElmt : RgAddr) : Option (ℤ × RgMem) :=
  match m.heap rgElmt with
  | none => none
  | some node =>
    if node.val.rgStart ≥ node.val.rgEnd then some (-1, m)
    else
      -- in an empty list `rg_next` stays as it is
      let heap := match m.vmFreergList with
        | none => m.heap
        | some rgNode => m.heap.setNext rgElmt (some rgNode)
      some (0, { m with heap := heap, vmFreergList := some rgElmt })

/-- The loop of `get_free_vmrg_area` (lines 688–726): the nodes and `newrg`. -/
def getFreeVmrgLoop (size : ℤ) :
    (fuel : ℕ) → Heap RgAddr VmRg → Option RgAddr → VmRg → Option (Heap RgAddr VmRg × VmRg)
  | 0, _, _, _ => none
  | _ + 1, h, none, newrg => some (h, newrg)
  | fuel + 1, h, some rgit, newrg =>
    match h rgit with
    | none => none
    | some node =>
      let stop := u64 (node.val.rgStart + size)
      if stop ≤ node.val.rgEnd then
        let newrg := ⟨node.val.rgStart, stop⟩
        if stop < node.val.rgEnd then
          getFreeVmrgLoop size fuel (h.setVal rgit ⟨stop, node.val.rgEnd⟩) (some rgit) newrg
        else
          match node.next with
          | some nextrg =>
            match h nextrg with
            | none => none
            | some next =>
              let h := ((h.setVal rgit next.val).setNext rgit next.next).free nextrg
              getFreeVmrgLoop size fuel h (some rgit) newrg
          | none =>
            let h := (h.setVal rgit ⟨node.val.rgEnd, node.val.rgEnd⟩).setNext rgit none
            getFreeVmrgLoop size fuel h (some rgit) newrg
      else getFreeVmrgLoop size fuel h node.next newrg

/-- `get_free_vmrg_area` (lines 675–732): the region found, if one is, and the nodes. -/
def getFreeVmrgArea (m : RgMem) (size : ℤ) (fuel : ℕ) : Option (Option VmRg × RgMem) :=
  match m.vmFreergList with
  | none => some (none, m)
  | some rgit =>
    match getFreeVmrgLoop size fuel m.heap (some rgit) ⟨ulongMax, ulongMax⟩ with
    | none => none
    | some (heap, newrg) =>
      some (if newrg.rgStart = ulongMax then none else some newrg, { m with heap := heap })

/-- `__free` (lines 197, 225–233) and the end of `__alloc` (lines 149–153): a node from `malloc` is
filled in and enlisted; `raw` is its `rg_next`, which `__alloc` does not set. -/
def enlistNew (m : RgMem) (a : ℕ) (rg : VmRg) (raw : Option RgAddr) : Option (ℤ × RgMem) :=
  { m with heap := m.heap.alloc (.malloc a) ⟨rg, raw⟩ }.enlistVmFreergList (.malloc a)

/-- `__alloc` without frames (lines 110–119): the variable `rgnode` is enlisted, and it is gone when
`__alloc` returns. -/
def putBack (m : RgMem) (rg : VmRg) (raw : Option RgAddr) : Option (ℤ × RgMem) :=
  let rgnode := .rgnode m.calls
  match { m with heap := m.heap.alloc rgnode ⟨rg, raw⟩ }.enlistVmFreergList rgnode with
  | none => none
  | some (ret, m) => some (ret, { m with heap := m.heap.free rgnode, calls := m.calls + 1 })

/-! ## The list -/

/-- The list is `l`, and only its nodes and the `lost` ones are allocated. -/
structure Linked (h : Heap RgAddr VmRg) (p : Option RgAddr) (lost : RgAddr → Prop)
    (l : List (RgAddr × VmRg)) : Prop where
  seg : Seg h p l none
  within : h.Within fun a => a ∈ l.map Prod.fst ∨ lost a

variable {h : Heap RgAddr VmRg} {p rgit : Option RgAddr} {lost : RgAddr → Prop}
  {pre post : List (RgAddr × VmRg)} {a b : RgAddr} {v w : VmRg}

theorem Linked.set_val (hl : Linked h p lost (pre ++ (a, v) :: post)) (w : VmRg) :
    Linked (h.setVal a w) p lost (pre ++ (a, w) :: post) where
  seg := hl.seg.set_val (dead_none h) w
  within := by
    have hw := hl.within.setVal a w
    rwa [List.map_append, List.map_cons] at hw ⊢

theorem Linked.absorb (hl : Linked h p lost (pre ++ (a, v) :: (b, w) :: post)) :
    ∃ next, h b = some ⟨w, next⟩ ∧
      Linked (((h.setVal a w).setNext a next).free b) p lost (pre ++ (a, w) :: post) := by
  obtain ⟨next, hb, hs⟩ := hl.seg.absorb (dead_none h)
  refine ⟨next, hb, hs, ((hl.within.setVal a w).setNext a next).free fun x hx hne => ?_⟩
  simp only [List.map_append, List.map_cons, List.mem_append, List.mem_cons] at hx ⊢
  tauto

/-! ## `get_free_vmrg_area` -/

/-- The nodes behind `pre` hold the regions, and `newrg` is the same. -/
def LoopAgrees (p : Option RgAddr) (lost : RgAddr → Prop) (pre : List (RgAddr × VmRg))
    (r : Heap RgAddr VmRg × VmRg) (s : List VmRg × VmRg) : Prop :=
  r.2 = s.2 ∧ ∃ post, post.map Prod.snd = s.1 ∧ Linked r.1 p lost (pre ++ post)

theorem rel_map_right {α β γ : Type*} {R : α → β → Prop} {R' : α → γ → Prop} {f : β → γ}
    {x : Option α} {y : Option β} (hxy : Option.Rel R x y) (hf : ∀ r s, R r s → R' r (f s)) :
    Option.Rel R' x (y.map f) := by
  cases hxy with
  | none => exact .none
  | some hr => exact .some (hf _ _ hr)

theorem rel_some_left {α β : Type*} {R : α → β → Prop} {r : α} {y : Option β}
    (h : Option.Rel R (some r) y) : ∃ s, y = some s ∧ R r s := by
  cases h with
  | some hr => exact ⟨_, rfl, hr⟩

theorem rel_some_right {α β : Type*} {R : α → β → Prop} {x : Option α} {s : β}
    (h : Option.Rel R x (some s)) : ∃ r, x = some r ∧ R r s := by
  cases h with
  | some hr => exact ⟨_, rfl, hr⟩

/-- A loop that is out of turns has not ended. -/
theorem getFreeVmrgLoop_one (size : ℤ) (h : Heap RgAddr VmRg) (a : RgAddr) (newrg : VmRg) :
    getFreeVmrgLoop size 1 h (some a) newrg = none := by
  rw [getFreeVmrgLoop]
  split
  · rfl
  · simp only [getFreeVmrgLoop]
    split_ifs
    · rfl
    · split
      · split <;> rfl
      · rfl
    · rfl

/-- From the nodes of `post` on, the loop does what it does on the list of their regions. -/
theorem getFreeVmrgLoop_refines (size : ℤ) (fuel : ℕ)
    (hl : Linked h p lost (pre ++ post)) (newrg : VmRg) :
    Option.Rel (LoopAgrees p lost pre)
      (getFreeVmrgLoop size (fuel + 1) h (Seg.headAddr post) newrg)
      (Mem.getFreeVmrgLoop size fuel (post.map Prod.snd) newrg) := by
  induction fuel generalizing h pre post newrg with
  | zero =>
    cases post with
    | nil => exact .some ⟨rfl, [], rfl, hl⟩
    | cons c post =>
      have hone := getFreeVmrgLoop_one size h c.1 newrg
      exact hone ▸ .none
  | succ fuel ih =>
    cases post with
    | nil => exact .some ⟨rfl, [], rfl, hl⟩
    | cons c post =>
      obtain ⟨a, v⟩ := c
      have hc := hl.seg.cell
      have hhead : Seg.headAddr ((a, v) :: post) = some a := rfl
      rw [hhead, List.map_cons, getFreeVmrgLoop, Mem.getFreeVmrgLoop]
      simp only [hc]
      split_ifs with hfit hlt
      · -- a part of the region is left, and the same node is tried again
        exact ih (hl.set_val ⟨u64 (v.rgStart + size), v.rgEnd⟩) _
      · cases post with
        | nil =>
          -- the last node becomes the dummy region; its pointer is `NULL` already
          have hl' := hl.set_val ⟨v.rgEnd, v.rgEnd⟩
          have hnext := Heap.setNext_eq_self hl'.seg.cell
          have hloop := ih hl' ⟨v.rgStart, u64 (v.rgStart + size)⟩
          rw [← hnext] at hloop
          exact hloop
        | cons c rest =>
          obtain ⟨b, w⟩ := c
          obtain ⟨next, hb, hl'⟩ := hl.absorb
          have hloop := ih hl' ⟨v.rgStart, u64 (v.rgStart + size)⟩
          simp only [Seg.headAddr, List.head?_cons, Option.map_some, hb]
          exact hloop
      · -- the node is passed
        rw [List.append_cons] at hl
        refine rel_map_right (ih hl newrg) fun r s hr => ?_
        obtain ⟨hnew, post', hpost, hl'⟩ := hr
        refine ⟨hnew, (a, v) :: post', ?_, ?_⟩
        · rw [List.map_cons, hpost]
        · rwa [List.append_cons]

/-- The list holds `rgs`, in this order; the `lost` nodes are in no list any more. -/
def Holds (m : RgMem) (lost : RgAddr → Prop) (rgs : List VmRg) : Prop :=
  ∃ l, Linked m.heap m.vmFreergList lost l ∧ l.map Prod.snd = rgs

variable {m m' : RgMem} {rgs rgs' : List VmRg} {size : ℤ} {fuel : ℕ}

theorem Holds.mono (hm : m.Holds lost rgs) {lost' : RgAddr → Prop} (hlost : ∀ x, lost x → lost' x) :
    m.Holds lost' rgs := by
  obtain ⟨l, hl, hrgs⟩ := hm
  exact ⟨l, ⟨hl.seg, fun x hx => (hl.within x hx).imp_right (hlost x)⟩, hrgs⟩

theorem Holds.exists_addr (hm : m.Holds lost rgs) (hne : rgs ≠ []) :
    ∃ rgNode, m.vmFreergList = some rgNode := by
  obtain ⟨l, hl, rfl⟩ := hm
  exact hl.seg.exists_addr fun h0 => hne (by rw [h0, List.map_nil])

/-- The region that the loop has found, if it has found one. -/
def found (newrg : VmRg) : Option VmRg := if newrg.rgStart = ulongMax then none else some newrg

/-- What the call on nodes leaves is the list that the loop on lists leaves. -/
def AreaAgrees (calls : ℕ) (lost : RgAddr → Prop) (r : Option VmRg × RgMem)
    (s : List VmRg × VmRg) : Prop :=
  r.1 = found s.2 ∧ r.2.Holds lost s.1 ∧ r.2.calls = calls

theorem getFreeVmrgArea_rel (hm : m.Holds lost rgs) (size : ℤ) (fuel : ℕ) :
    Option.Rel (AreaAgrees m.calls lost) (m.getFreeVmrgArea size (fuel + 1))
      (Mem.getFreeVmrgLoop size fuel rgs ⟨ulongMax, ulongMax⟩) := by
  obtain ⟨l, hl, rfl⟩ := hm
  have hhead := hl.seg.eq_headAddr
  cases l with
  | nil =>
    rw [getFreeVmrgArea, hhead]
    cases fuel with
    | zero => exact .some ⟨rfl, ⟨[], hl, rfl⟩, rfl⟩
    | succ fuel => exact .some ⟨rfl, ⟨[], hl, rfl⟩, rfl⟩
  | cons c l =>
    have hp : m.vmFreergList = some c.1 := hhead
    have hrel := getFreeVmrgLoop_refines size fuel (show Linked _ _ _ ([] ++ _) from hl)
      ⟨ulongMax, ulongMax⟩
    rw [← hhead, hp] at hrel
    rw [getFreeVmrgArea, hp]
    simp only
    generalize getFreeVmrgLoop size (fuel + 1) m.heap (some c.1) ⟨ulongMax, ulongMax⟩ = x,
      Mem.getFreeVmrgLoop size fuel ((c :: l).map Prod.snd) ⟨ulongMax, ulongMax⟩ = y at hrel ⊢
    cases hrel with
    | none => exact .none
    | some hr =>
      obtain ⟨hnew, post, hpost, hl'⟩ := hr
      exact .some ⟨congrArg found hnew, ⟨post, hl', hpost⟩, rfl⟩

/-- What the call returns on nodes, the loop returns on the list. -/
theorem getFreeVmrgArea_list (hm : m.Holds lost rgs) {newrg : Option VmRg}
    (hret : m.getFreeVmrgArea size fuel = some (newrg, m')) :
    ∃ fuel s, Mem.getFreeVmrgLoop size fuel rgs ⟨ulongMax, ulongMax⟩ = some s ∧
      AreaAgrees m.calls lost (newrg, m') s := by
  have hsucc : ∃ fuel, m.getFreeVmrgArea size (fuel + 1) = some (newrg, m') := by
    cases fuel with
    | succ fuel => exact ⟨fuel, hret⟩
    | zero =>
      rw [getFreeVmrgArea] at hret
      split at hret
      · next hp =>
        refine ⟨0, ?_⟩
        rw [getFreeVmrgArea, hp]
        exact hret
      · cases hret
  obtain ⟨fuel, hret⟩ := hsucc
  have hrel := getFreeVmrgArea_rel hm size fuel
  rw [hret] at hrel
  obtain ⟨s, hs, hag⟩ := rel_some_left hrel
  exact ⟨fuel, s, hs, hag⟩

/-- Where the call on the list returns, so does the one on the nodes. -/
theorem getFreeVmrgArea_refines (hm : m.Holds lost rgs) {newrg : Option VmRg}
    (hret : Mem.getFreeVmrgArea rgs size = some (newrg, rgs')) :
    ∃ fuel m', m.getFreeVmrgArea size fuel = some (newrg, m') ∧ m'.Holds lost rgs' := by
  have hloop : ∃ fuel s, Mem.getFreeVmrgLoop size fuel rgs ⟨ulongMax, ulongMax⟩ = some s ∧
      newrg = found s.2 ∧ rgs' = s.1 := by
    cases rgs with
    | nil =>
      cases hret
      exact ⟨0, _, rfl, rfl, rfl⟩
    | cons rgit rgNext =>
      refine ⟨getFreeVmrgFuel (rgit :: rgNext), ?_⟩
      simp only [Mem.getFreeVmrgArea] at hret
      split at hret
      · cases hret
      · next freerg rg hs =>
        refine ⟨(freerg, rg), hs, ?_⟩
        rw [found]
        split_ifs at hret ⊢
        all_goals
          cases hret
          exact ⟨rfl, rfl⟩
  obtain ⟨fuel, s, hs, rfl, rfl⟩ := hloop
  have hrel := getFreeVmrgArea_rel hm size fuel
  rw [hs] at hrel
  obtain ⟨⟨newrg, m'⟩, hret, rfl, hm', -⟩ := rel_some_right hrel
  exact ⟨fuel + 1, m', hret, hm'⟩

/-! ## A list that leads to a variable that is gone -/

theorem getFreeVmrgLoop_dead {l : List (RgAddr × VmRg)} {d : RgAddr} (size : ℤ) (fuel : ℕ)
    (hs : Seg h rgit l (some d)) (hd : h d = none) (newrg : VmRg) :
    getFreeVmrgLoop size fuel h rgit newrg = none := by
  have hdead : Dead h (some d) := by
    rintro _ ⟨⟩
    exact hd
  induction fuel generalizing h rgit l newrg with
  | zero => rfl
  | succ fuel ih =>
    cases hs with
    | nil => simp only [getFreeVmrgLoop, hd]
    | @cons a v next _ l hc hs =>
      have had : d ≠ a := by
        rintro rfl
        rw [hd] at hc
        cases hc
      have hset : ∀ w, h.setVal a w d = none := fun w =>
        (Function.update_of_ne had ..).trans hd
      have hseg : ∀ w, Seg (h.setVal a w) (some a) ((a, w) :: l) (some d) := fun w =>
        Seg.set_val (l := []) (.cons hc hs) hdead w
      simp only [getFreeVmrgLoop, hc]
      split_ifs with hfit hlt
      · refine ih (hseg _) (hset _) _ ?_
        rintro _ ⟨⟩
        exact hset _
      · cases hs with
        | nil => simp only [hd]
        | @cons b w _ _ l hb hs' =>
          obtain ⟨next, hb', habs⟩ := Seg.absorb (l := []) (.cons hc (.cons hb hs')) hdead
          have hdb : d ≠ b := by
            rintro rfl
            rw [hd] at hb
            cases hb
          have hgone : ((h.setVal a w).setNext a next).free b d = none := by
            rw [Heap.free, Function.update_of_ne hdb, Heap.setNext, Function.update_of_ne had]
            exact hset w
          simp only [hb']
          refine ih habs hgone _ ?_
          rintro _ ⟨⟩
          exact hgone
      · exact ih hs hd _ hdead

theorem getFreeVmrgArea_dead {l : List (RgAddr × VmRg)} {d : RgAddr}
    (hs : Seg m.heap m.vmFreergList l (some d)) (hd : m.heap d = none) (size : ℤ) (fuel : ℕ) :
    m.getFreeVmrgArea size fuel = none := by
  obtain ⟨rgit, hp⟩ := hs.exists_addr_some
  rw [hp] at hs
  simp only [getFreeVmrgArea, hp, getFreeVmrgLoop_dead size fuel hs hd]

/-! ## `enlist_vm_freerg_list` -/

theorem enlist_eq (e : RgAddr) (rg : VmRg) (raw : Option RgAddr) :
    { m with heap := m.heap.alloc e ⟨rg, raw⟩ }.enlistVmFreergList e =
      if rg.rgStart ≥ rg.rgEnd then some (-1, { m with heap := m.heap.alloc e ⟨rg, raw⟩ })
      else some (0, { m with
        heap := m.heap.alloc e ⟨rg, m.vmFreergList.or raw⟩, vmFreergList := some e }) := by
  have hcell : m.heap.alloc e ⟨rg, raw⟩ e = some ⟨rg, raw⟩ := Function.update_self ..
  simp only [enlistVmFreergList, hcell]
  split_ifs with hlen
  · rfl
  · cases hp : m.vmFreergList with
    | none => rfl
    | some rgNode => simp only [Heap.setNext_alloc, Option.some_or]

/-- The variable is gone after the call, and the list starts with it. -/
theorem putBack_eq (hfree : m.heap (.rgnode m.calls) = none) (rg : VmRg) (raw : Option RgAddr) :
    m.putBack rg raw =
      if rg.rgStart ≥ rg.rgEnd then some (-1, { m with calls := m.calls + 1 })
      else some (0, { m with
        vmFreergList := some (.rgnode m.calls), calls := m.calls + 1 }) := by
  rw [putBack, enlist_eq]
  split_ifs with hlen
  all_goals simp only [Heap.free_alloc hfree]

/-- A new node that stays in no list. -/
theorem alloc_holds (hm : m.Holds lost rgs) {a : ℕ} (hfree : m.heap (.malloc a) = none)
    (c : Cell RgAddr VmRg) :
    ({ m with heap := m.heap.alloc (.malloc a) c } : RgMem).Holds
      (fun x => lost x ∨ x = .malloc a) rgs := by
  obtain ⟨l, ⟨hs, hw⟩, hrgs⟩ := hm
  refine ⟨l, ⟨hs.update (hs.not_mem_of_free hfree) _, ?_⟩, hrgs⟩
  exact hw.alloc (fun x hx => hx.imp_right .inl) (.inr (.inr rfl)) _

/-- A new node on a list that is not empty; one without bytes is lost. -/
theorem enlistNew_holds (hm : m.Holds lost rgs) (hne : rgs ≠ []) {a : ℕ}
    (hfree : m.heap (.malloc a) = none) (rg : VmRg) (raw : Option RgAddr) :
    ∃ ret m', m.enlistNew a rg raw = some (ret, m') ∧
      m'.Holds (fun x => lost x ∨ x = .malloc a ∧ rg.rgEnd ≤ rg.rgStart)
        (Mem.enlistVmFreergList rgs rg) := by
  obtain ⟨rgNode, hp⟩ := hm.exists_addr hne
  obtain ⟨l, ⟨hs, hw⟩, rfl⟩ := hm
  rw [enlistNew, enlist_eq, Mem.enlistVmFreergList]
  split_ifs with hlen
  · refine ⟨_, _, rfl, (alloc_holds ⟨l, ⟨hs, hw⟩, rfl⟩ hfree _).mono fun x hx => ?_⟩
    exact hx.imp_right fun hx => ⟨hx, hlen⟩
  · rw [hp, Option.some_or, ← hp]
    refine ⟨_, _, rfl, (.malloc a, rg) :: l, ⟨hs.push hfree rg, ?_⟩, rfl⟩
    refine hw.alloc (fun x hx => ?_) (.inl (by simp)) _
    rw [List.map_cons]
    exact hx.imp (List.mem_cons_of_mem _) .inl

/-- A new node in front of a list that leads to a variable that is gone. -/
theorem enlistNew_dead {l : List (RgAddr × VmRg)} {d : RgAddr}
    (hs : Seg m.heap m.vmFreergList l (some d)) {a : ℕ} (hfree : m.heap (.malloc a) = none)
    {rg : VmRg} {raw : Option RgAddr} {ret : ℤ} (hret : m.enlistNew a rg raw = some (ret, m')) :
    ∃ l', Seg m'.heap m'.vmFreergList l' (some d) := by
  obtain ⟨rgNode, hp⟩ := hs.exists_addr_some
  rw [enlistNew, enlist_eq, hp, Option.some_or, ← hp] at hret
  split_ifs at hret
  · cases hret
    exact ⟨l, hs.update (hs.not_mem_of_free hfree) _⟩
  · cases hret
    exact ⟨_, hs.push hfree rg⟩

/-- `malloc` is not called by the loop. -/
theorem getFreeVmrgLoop_within {S : RgAddr → Prop} {newrg newrg' : VmRg} {h' : Heap RgAddr VmRg}
    (hw : h.Within S) (hret : getFreeVmrgLoop size fuel h rgit newrg = some (h', newrg')) :
    h'.Within S := by
  induction fuel generalizing h rgit newrg with
  | zero => cases hret
  | succ fuel ih =>
    cases rgit with
    | none =>
      cases hret
      exact hw
    | some a =>
      rw [getFreeVmrgLoop] at hret
      split at hret
      · cases hret
      · simp only at hret
        split_ifs at hret
        · exact ih (hw.setVal _ _) hret
        · split at hret
          · split at hret
            · cases hret
            · exact ih (((hw.setVal _ _).setNext _ _).free fun _ hx _ => hx) hret
          · exact ih ((hw.setVal _ _).setNext _ _) hret
        · exact ih hw hret

theorem getFreeVmrgArea_within {S : RgAddr → Prop} {newrg : Option VmRg} (hw : m.heap.Within S)
    (hret : m.getFreeVmrgArea size fuel = some (newrg, m')) : m'.heap.Within S := by
  rw [getFreeVmrgArea] at hret
  split at hret
  · cases hret
    exact hw
  · split at hret
    · cases hret
    · next hloop =>
      cases hret
      exact getFreeVmrgLoop_within hw hloop

end RgMem

/-! ## Runs -/

/-- A call: a node from `malloc` is enlisted; `__free` fails and forgets the node that it has got from
`malloc` (line 196, and the returns in lines 199, 207 and 217); `get_free_vmrg_area` returns a
region or none; or `__alloc` has found no frames for its region and enlists its variable. -/
inductive RgCall where
  | enlist (a : ℕ) (rg : VmRg) (raw : Option RgAddr)
  | forget (a : ℕ) (rg : VmRg) (raw : Option RgAddr)
  | carve (size : ℤ) (newrg : Option VmRg)
  | putBack (rg : VmRg) (raw : Option RgAddr)

/-- The list that `init_mm` makes (lines 295–299 of `mm.c`), where `vm_freerg_list` happened to be
`NULL`: the node `first_rg`. -/
def firstRg (a : ℕ) : RgMem where
  heap := Heap.alloc (fun _ => none) (.malloc a) ⟨⟨0, 0⟩, none⟩
  vmFreergList := some (.malloc a)
  calls := 0

/-- A new list and any calls. What is in a node that is forgotten does not matter. -/
def rgNodeLts : Lts RgMem RgCall where
  init m := ∃ a, m = firstRg a
  step m call m' :=
    match call with
    | .enlist a rg raw =>
      m.heap (.malloc a) = none ∧ ∃ ret, m.enlistNew a rg raw = some (ret, m')
    | .forget a rg raw =>
      m.heap (.malloc a) = none ∧ m' = { m with heap := m.heap.alloc (.malloc a) ⟨rg, raw⟩ }
    | .carve size newrg => ∃ fuel, m.getFreeVmrgArea size fuel = some (newrg, m')
    | .putBack rg raw => ∃ ret, m.putBack rg raw = some (ret, m')

/-- The same calls on a list of regions. -/
def rgListLts : Lts (List VmRg) RgCall where
  init rgs := rgs = [⟨0, 0⟩]
  step rgs call rgs' :=
    match call with
    | .enlist _ rg _ => rgs' = enlistVmFreergList rgs rg
    | .forget .. => rgs' = rgs
    | .carve size newrg => ∃ fuel found,
        getFreeVmrgLoop size fuel rgs ⟨ulongMax, ulongMax⟩ = some (rgs', found) ∧
          newrg = RgMem.found found
    | .putBack rg _ => rgs' = enlistVmFreergList rgs rg

/-- A variable of `__alloc` has been linked. -/
def LinksLocal (tr : List RgCall) : Prop := ∃ rg raw, .putBack rg raw ∈ tr ∧ rg.rgStart < rg.rgEnd

/-- The nodes that are in no list: those that were not enlisted, as their region has no bytes, and
those that a failing `__free` forgets. -/
def Lost (tr : List RgCall) (x : RgAddr) : Prop :=
  ∃ a rg raw, x = .malloc a ∧
    (.enlist a rg raw ∈ tr ∧ rg.rgEnd ≤ rg.rgStart ∨ .forget a rg raw ∈ tr)

/-- What a run keeps: no variable is there any more, and `malloc` has only been called some number of
times; the list holds what the list of regions holds, or leads to a variable. -/
structure FreergInv (tr : List RgCall) (m : RgMem) : Prop where
  within : ∃ n, m.heap.Within fun x => ∃ a < n, x = .malloc a
  list : ¬ LinksLocal tr → ∃ rgs, rgs ≠ [] ∧ rgListLts.Run tr rgs ∧ m.Holds (Lost tr) rgs
  gone : LinksLocal tr → ∃ l d, Seg m.heap m.vmFreergList l (some (.rgnode d))

section

variable {tr : List RgCall} {m m' : RgMem} {rgs rgs' : List VmRg}

theorem linksLocal_snoc {call : RgCall} : LinksLocal (tr ++ [call]) ↔
    LinksLocal tr ∨ ∃ rg raw, call = .putBack rg raw ∧ rg.rgStart < rg.rgEnd := by
  simp only [LinksLocal, List.mem_append, List.mem_singleton]
  constructor
  · rintro ⟨rg, raw, hmem | hcall, hlt⟩
    · exact .inl ⟨rg, raw, hmem, hlt⟩
    · exact .inr ⟨rg, raw, hcall.symm, hlt⟩
  · rintro (⟨rg, raw, hmem, hlt⟩ | ⟨rg, raw, hcall, hlt⟩)
    · exact ⟨rg, raw, .inl hmem, hlt⟩
    · exact ⟨rg, raw, .inr hcall.symm, hlt⟩

/-- Only one of the calls links a variable. -/
theorem linksLocal_snoc_of_ne {call : RgCall} (hne : ∀ rg raw, call ≠ .putBack rg raw) :
    LinksLocal (tr ++ [call]) ↔ LinksLocal tr := by
  rw [linksLocal_snoc, or_iff_left]
  rintro ⟨rg, raw, hcall, -⟩
  exact hne rg raw hcall

theorem Lost.mono {call : RgCall} {x : RgAddr} (h : Lost tr x) : Lost (tr ++ [call]) x := by
  obtain ⟨a, rg, raw, hx, ⟨hmem, hle⟩ | hmem⟩ := h
  · exact ⟨a, rg, raw, hx, .inl ⟨List.mem_append_left _ hmem, hle⟩⟩
  · exact ⟨a, rg, raw, hx, .inr (List.mem_append_left _ hmem)⟩

theorem Lost.of_enlist {a : ℕ} {rg : VmRg} {raw : Option RgAddr} {x : RgAddr}
    (hx : Lost tr x ∨ x = .malloc a ∧ rg.rgEnd ≤ rg.rgStart) :
    Lost (tr ++ [.enlist a rg raw]) x := by
  rcases hx with hx | ⟨hx, hle⟩
  · exact hx.mono
  · exact ⟨a, rg, raw, hx, .inl ⟨by simp, hle⟩⟩

theorem Lost.of_forget {a : ℕ} {rg : VmRg} {raw : Option RgAddr} {x : RgAddr}
    (hx : Lost tr x ∨ x = .malloc a) : Lost (tr ++ [.forget a rg raw]) x := by
  rcases hx with hx | hx
  · exact hx.mono
  · exact ⟨a, rg, raw, hx, .inr (by simp)⟩

theorem FreergInv.rgnode_free (h : FreergInv tr m) (call : ℕ) : m.heap (.rgnode call) = none := by
  obtain ⟨n, hw⟩ := h.within
  by_contra hne
  obtain ⟨a, -, ha⟩ := hw _ hne
  cases ha

/-- `malloc` finds an address. -/
theorem FreergInv.exists_free (h : FreergInv tr m) : ∃ a, m.heap (.malloc a) = none := by
  obtain ⟨n, hw⟩ := h.within
  refine ⟨n, ?_⟩
  by_contra hne
  obtain ⟨a, hlt, ha⟩ := hw _ hne
  cases ha
  exact absurd hlt (lt_irrefl _)

theorem FreergInv.within_alloc (h : FreergInv tr m) (a : ℕ) (c : Cell RgAddr VmRg) :
    ∃ n, (m.heap.alloc (.malloc a) c).Within fun x => ∃ b < n, x = .malloc b := by
  obtain ⟨n, hw⟩ := h.within
  refine ⟨max n (a + 1), hw.alloc ?_ ⟨a, by omega, rfl⟩ c⟩
  rintro x ⟨b, hlt, rfl⟩
  exact ⟨b, by omega, rfl⟩

theorem firstRg_holds (a : ℕ) (lost : RgAddr → Prop) : (firstRg a).Holds lost [⟨0, 0⟩] := by
  refine ⟨[(.malloc a, ⟨0, 0⟩)], ⟨Seg.push (.nil none) rfl _, ?_⟩, rfl⟩
  exact (Heap.within_empty _).alloc (fun _ hx => hx) (.inl (List.mem_singleton_self _)) _

theorem freergInv_init (h : rgNodeLts.init m) : FreergInv [] m := by
  obtain ⟨a, rfl⟩ := h
  have hno : ¬ LinksLocal [] := by
    rintro ⟨rg, raw, hmem, -⟩
    cases hmem
  refine ⟨⟨a + 1, ?_⟩, fun _ => ⟨_, List.cons_ne_nil _ _, .init rfl, firstRg_holds a _⟩,
    fun h => absurd h hno⟩
  exact (Heap.within_empty _).alloc (fun _ hx => hx) ⟨a, Nat.lt_succ_self a, rfl⟩ _

theorem freergInv_enlist (h : FreergInv tr m) {a : ℕ} {rg : VmRg} {raw : Option RgAddr}
    (hst : rgNodeLts.step m (.enlist a rg raw) m') :
    FreergInv (tr ++ [.enlist a rg raw]) m' := by
  obtain ⟨hfree, ret, hret⟩ := hst
  have hlinks : LinksLocal (tr ++ [.enlist a rg raw]) ↔ LinksLocal tr :=
    linksLocal_snoc_of_ne fun _ _ h => by cases h
  refine ⟨?_, fun hno => ?_, fun hl => ?_⟩
  · rw [RgMem.enlistNew, RgMem.enlist_eq] at hret
    split_ifs at hret
    all_goals
      cases hret
      exact h.within_alloc a _
  · obtain ⟨rgs, hne, hrun, hm⟩ := h.list (mt hlinks.mpr hno)
    obtain ⟨ret1, m1, hret1, hm1⟩ := RgMem.enlistNew_holds hm hne hfree rg raw
    rw [hret] at hret1
    cases hret1
    exact ⟨_, enlistVmFreergList_ne_nil hne rg, hrun.step rfl, hm1.mono fun x hx => .of_enlist hx⟩
  · obtain ⟨l, d, hs⟩ := h.gone (hlinks.mp hl)
    obtain ⟨l', hs'⟩ := RgMem.enlistNew_dead hs hfree hret
    exact ⟨l', d, hs'⟩

theorem freergInv_forget (h : FreergInv tr m) {a : ℕ} {rg : VmRg} {raw : Option RgAddr}
    (hst : rgNodeLts.step m (.forget a rg raw) m') :
    FreergInv (tr ++ [.forget a rg raw]) m' := by
  obtain ⟨hfree, rfl⟩ := hst
  have hlinks : LinksLocal (tr ++ [.forget a rg raw]) ↔ LinksLocal tr :=
    linksLocal_snoc_of_ne fun _ _ h => by cases h
  refine ⟨h.within_alloc a _, fun hno => ?_, fun hl => ?_⟩
  · obtain ⟨rgs, hne, hrun, hm⟩ := h.list (mt hlinks.mpr hno)
    refine ⟨rgs, hne, hrun.step rfl, (RgMem.alloc_holds hm hfree _).mono fun x hx => ?_⟩
    exact .of_forget hx
  · obtain ⟨l, d, hs⟩ := h.gone (hlinks.mp hl)
    exact ⟨l, d, hs.update (hs.not_mem_of_free hfree) _⟩

theorem freergInv_carve (h : FreergInv tr m) {size : ℤ} {newrg : Option VmRg}
    (hst : rgNodeLts.step m (.carve size newrg) m') : FreergInv (tr ++ [.carve size newrg]) m' := by
  obtain ⟨fuel, hret⟩ := hst
  have hlinks : LinksLocal (tr ++ [.carve size newrg]) ↔ LinksLocal tr :=
    linksLocal_snoc_of_ne fun _ _ h => by cases h
  obtain ⟨n, hw⟩ := h.within
  refine ⟨⟨n, RgMem.getFreeVmrgArea_within hw hret⟩, fun hno => ?_, fun hl => ?_⟩
  · obtain ⟨rgs, hne, hrun, hm⟩ := h.list (mt hlinks.mpr hno)
    obtain ⟨fuel', s, hloop, hnew, hm', -⟩ := RgMem.getFreeVmrgArea_list hm hret
    exact ⟨s.1, getFreeVmrgLoop_ne_nil _ _ _ _ _ hne hloop, hrun.step ⟨fuel', s.2, hloop, hnew⟩,
      hm'.mono fun x hx => hx.mono⟩
  · obtain ⟨l, d, hs⟩ := h.gone (hlinks.mp hl)
    rw [RgMem.getFreeVmrgArea_dead hs (h.rgnode_free d)] at hret
    cases hret

theorem freergInv_putBack (h : FreergInv tr m) {rg : VmRg} {raw : Option RgAddr}
    (hst : rgNodeLts.step m (.putBack rg raw) m') : FreergInv (tr ++ [.putBack rg raw]) m' := by
  obtain ⟨ret, hret⟩ := hst
  rw [RgMem.putBack_eq (h.rgnode_free m.calls)] at hret
  have hlinks : LinksLocal (tr ++ [.putBack rg raw]) ↔ LinksLocal tr ∨ rg.rgStart < rg.rgEnd := by
    rw [linksLocal_snoc]
    refine or_congr_right ⟨?_, fun hlt => ⟨rg, raw, rfl, hlt⟩⟩
    rintro ⟨rg, raw, ⟨⟩, hlt⟩
    exact hlt
  split_ifs at hret with hlen
  · -- nothing is enlisted
    cases hret
    rw [or_iff_left (not_lt.mpr hlen)] at hlinks
    refine ⟨h.within, fun hno => ?_, fun hl => h.gone (hlinks.mp hl)⟩
    obtain ⟨rgs, hne, hrun, hm⟩ := h.list (mt hlinks.mpr hno)
    refine ⟨_, enlistVmFreergList_ne_nil hne rg, hrun.step rfl, ?_⟩
    rw [enlistVmFreergList, if_pos hlen]
    exact RgMem.Holds.mono hm fun x hx => hx.mono
  · cases hret
    refine ⟨h.within, fun hno => absurd (hlinks.mpr (.inr (not_le.mp hlen))) hno, fun _ => ?_⟩
    exact ⟨[], m.calls, .nil _⟩

theorem freergInv_of_run (h : rgNodeLts.Run tr m) : FreergInv tr m := by
  refine h.history (I := FreergInv) (fun m h0 => freergInv_init h0) ?_
  intro tr m call m' hm hst
  cases call with
  | enlist a rg raw => exact freergInv_enlist hm hst
  | forget a rg raw => exact freergInv_forget hm hst
  | carve size newrg => exact freergInv_carve hm hst
  | putBack rg raw => exact freergInv_putBack hm hst

/-- As long as no `__alloc` has enlisted its variable, the nodes hold what the calls make of a list
of regions, in an order that ends, and no node is lost except those of regions without bytes and
those that a failing `__free` forgets. Once one has, no later `get_free_vmrg_area` gets to the end
of the list. -/
theorem freerg_of_run (h : rgNodeLts.Run tr m) :
    (¬ LinksLocal tr → ∃ rgs, rgs ≠ [] ∧ rgListLts.Run tr rgs ∧ m.Holds (Lost tr) rgs) ∧
      (LinksLocal tr → ∀ size fuel, m.getFreeVmrgArea size fuel = none) := by
  have hinv := freergInv_of_run h
  refine ⟨hinv.list, fun hl size fuel => ?_⟩
  obtain ⟨l, d, hs⟩ := hinv.gone hl
  exact RgMem.getFreeVmrgArea_dead hs (hinv.rgnode_free d) size fuel

end

/-- A region of a page is freed and given out again to an `__alloc` that finds no frame. -/
theorem freerg_putBack : ∃ m, rgNodeLts.Run
      [.enlist 1 ⟨0, 256⟩ none, .carve 256 (some ⟨0, 256⟩), .putBack ⟨0, 256⟩ none] m ∧
    LinksLocal [.enlist 1 ⟨0, 256⟩ none, .carve 256 (some ⟨0, 256⟩), .putBack ⟨0, 256⟩ none] ∧
    ∀ size fuel, m.getFreeVmrgArea size fuel = none := by
  have h0 : rgNodeLts.Run [] (firstRg 0) := .init ⟨0, rfl⟩
  obtain ⟨ret, m1, hret1, hm1⟩ := RgMem.enlistNew_holds (firstRg_holds 0 fun _ => False)
    (List.cons_ne_nil _ _) (a := 1) rfl ⟨0, 256⟩ none
  have h1 : rgNodeLts.Run [.enlist 1 ⟨0, 256⟩ none] m1 := h0.step ⟨rfl, ret, hret1⟩
  have hget : getFreeVmrgArea [⟨0, 256⟩, ⟨0, 0⟩] 256 = some (some ⟨0, 256⟩, [⟨0, 0⟩]) := by
    decide +kernel
  obtain ⟨fuel, m2, hret2, -⟩ := RgMem.getFreeVmrgArea_refines hm1 hget
  have h2 : rgNodeLts.Run [.enlist 1 ⟨0, 256⟩ none, .carve 256 (some ⟨0, 256⟩)] m2 :=
    h1.step ⟨fuel, hret2⟩
  have h3 : rgNodeLts.Run
      [.enlist 1 ⟨0, 256⟩ none, .carve 256 (some ⟨0, 256⟩), .putBack ⟨0, 256⟩ none] _ :=
    h2.step ⟨0, RgMem.putBack_eq ((freergInv_of_run h2).rgnode_free _) ⟨0, 256⟩ none⟩
  have hlinks : LinksLocal
      [.enlist 1 ⟨0, 256⟩ none, .carve 256 (some ⟨0, 256⟩), .putBack ⟨0, 256⟩ none] :=
    ⟨⟨0, 256⟩, none, by simp, by decide⟩
  exact ⟨_, h3, hlinks, (freerg_of_run h3).2 hlinks⟩

/-! ## The list of a process -/

/-- Calls on nodes have made the list of free regions of `mm`, and they have linked a variable of
`__alloc` exactly if `dangling` says so. -/
structure OnNodes (mm : Mm) (calls : List RgCall) (m : RgMem) : Prop where
  run : rgNodeLts.Run calls m
  links : mm.mmap.dangling = true ↔ LinksLocal calls
  holds : mm.mmap.dangling = false → m.Holds (Lost calls) mm.mmap.vmFreergList

section

variable {mm mm' : Mm} {calls : List RgCall} {m : RgMem}

theorem OnNodes.congr (h : OnNodes mm calls m)
    (hlist : mm'.mmap.vmFreergList = mm.mmap.vmFreergList)
    (hdangling : mm'.mmap.dangling = mm.mmap.dangling) : OnNodes mm' calls m := by
  refine ⟨h.run, ?_, ?_⟩
  · rw [hdangling]
    exact h.links
  · rw [hdangling, hlist]
    exact h.holds

theorem onNodes_init : OnNodes (initMm Mm.zero) [] (firstRg 0) := by
  refine ⟨.init ⟨0, rfl⟩, iff_of_false (by decide) ?_, fun _ => firstRg_holds 0 _⟩
  rintro ⟨rg, raw, hmem, -⟩
  cases hmem

/-- `get_free_vmrg_area` walks through the nodes. -/
theorem OnNodes.carve (h : OnNodes mm calls m) (hkept : mm.mmap.dangling = false) {size : ℤ}
    {newrg : Option VmRg} {rgs : List VmRg}
    (hget : getFreeVmrgArea mm.mmap.vmFreergList size = some (newrg, rgs)) :
    ∃ m', rgNodeLts.step m (.carve size newrg) m' ∧
      OnNodes { mm with mmap := { mm.mmap with vmFreergList := rgs } }
        (calls ++ [.carve size newrg]) m' := by
  obtain ⟨fuel, m', hret, hm'⟩ := RgMem.getFreeVmrgArea_refines (h.holds hkept) hget
  have hst : rgNodeLts.step m (.carve size newrg) m' := ⟨fuel, hret⟩
  refine ⟨m', hst, h.run.step hst, ?_, fun _ => hm'.mono fun x hx => hx.mono⟩
  rw [linksLocal_snoc_of_ne fun _ _ h => by cases h]
  exact h.links

/-- `__alloc` that finds no frames enlists its variable. -/
theorem OnNodes.putBack (h : OnNodes mm calls m) (hkept : mm.mmap.dangling = false) (rg : VmRg) :
    ∃ m', rgNodeLts.step m (.putBack rg none) m' ∧
      OnNodes { mm with mmap := mm.mmap.enlistRgnode rg } (calls ++ [.putBack rg none]) m' := by
  have heq := RgMem.putBack_eq ((freergInv_of_run h.run).rgnode_free m.calls) rg none
  have hlinks : LinksLocal (calls ++ [.putBack rg none]) ↔ rg.rgStart < rg.rgEnd := by
    rw [linksLocal_snoc, ← h.links, hkept]
    simp
  have hdangling : (mm.mmap.enlistRgnode rg).dangling = decide (rg.rgStart < rg.rgEnd) := by
    rw [VmArea.enlistRgnode, hkept, Bool.false_or]
  split_ifs at heq with hlen
  all_goals
    refine ⟨_, ⟨_, heq⟩, h.run.step ⟨_, heq⟩, ?_, fun hno => ?_⟩
    · rw [hlinks, hdangling, decide_eq_true_eq]
  · rw [VmArea.enlistRgnode, enlistVmFreergList, if_pos hlen]
    exact RgMem.Holds.mono (h.holds hkept) fun x hx => hx.mono
  · rw [hdangling, decide_eq_false_iff_not] at hno
    exact absurd (not_le.mp hlen) hno

/-- `__free` enlists a node from `malloc`, also in front of a variable that is gone. -/
theorem OnNodes.enlist (h : OnNodes mm calls m) (hne : mm.mmap.vmFreergList ≠ []) (rg : VmRg) :
    ∃ a m', rgNodeLts.step m (.enlist a rg none) m' ∧ OnNodes { mm with mmap := { mm.mmap with
      vmFreergList := enlistVmFreergList mm.mmap.vmFreergList rg } }
        (calls ++ [.enlist a rg none]) m' := by
  obtain ⟨a, hfree⟩ := (freergInv_of_run h.run).exists_free
  have hret : ∃ ret m', m.enlistNew a rg none = some (ret, m') := by
    rw [RgMem.enlistNew, RgMem.enlist_eq]
    split_ifs <;> exact ⟨_, _, rfl⟩
  obtain ⟨ret, m', hret⟩ := hret
  have hst : rgNodeLts.step m (.enlist a rg none) m' := ⟨hfree, ret, hret⟩
  refine ⟨a, m', hst, h.run.step hst, ?_, fun hkept => ?_⟩
  · rw [linksLocal_snoc_of_ne fun _ _ h => by cases h]
    exact h.links
  · obtain ⟨ret1, m1, hret1, hm1⟩ := RgMem.enlistNew_holds (h.holds hkept) hne hfree rg none
    rw [hret] at hret1
    cases hret1
    exact hm1.mono fun x hx => .of_enlist hx

/-- A failing `__free` forgets its node. -/
theorem OnNodes.forget (h : OnNodes mm calls m) (rg : VmRg) :
    ∃ a m', rgNodeLts.step m (.forget a rg none) m' ∧
      OnNodes mm (calls ++ [.forget a rg none]) m' := by
  obtain ⟨a, hfree⟩ := (freergInv_of_run h.run).exists_free
  have hst : rgNodeLts.step m (.forget a rg none) _ := ⟨hfree, rfl⟩
  refine ⟨a, _, hst, h.run.step hst, ?_, fun hkept => ?_⟩
  · rw [linksLocal_snoc_of_ne fun _ _ h => by cases h]
    exact h.links
  · exact (RgMem.alloc_holds (h.holds hkept) hfree _).mono fun x hx => .of_forget hx

end

/-! ## Instructions -/

section

variable {ι : Type*} [DecidableEq ι] {p : ι} {s t : System ι} {calls : List RgCall} {m : RgMem}

/-- `__alloc` calls `get_free_vmrg_area`, and it enlists its variable if it finds no frames. -/
theorem alloc_onNodes (h : SpaceInv (s.mm p)) (hkept : (s.mm p).mmap.dangling = false)
    (hn : OnNodes (s.mm p) calls m) {r : Fin pagingMaxSymtblSz} {size : ℤ} (h0 : -2 ^ 31 ≤ size)
    (h1 : size < 2 ^ 31) {raw : List ℤ} {stat addr : ℤ}
    (halloc : alloc s p r size raw = .ok (stat, addr, t)) :
    ∃ calls' m', rgNodeLts.Path m calls' m' ∧ OnNodes (t.mm p) (calls ++ calls') m' := by
  unfold alloc at halloc
  cases hget : getFreeVmrgArea (s.mm p).mmap.vmFreergList (pagingPageAlignsz size) with
  | none => simp [hget] at halloc
  | some res =>
    obtain ⟨newrg, rgs⟩ := res
    obtain ⟨m1, hst1, hn1⟩ := hn.carve hkept hget
    obtain ⟨heq, hno⟩ | ⟨rg, rgs', heq, -⟩ := getFreeVmrgArea_under h.bound h.free hget <;>
      cases heq <;> simp only [hget, Except.ok.injEq] at halloc
    · -- no region fits, and the list stays as it is
      rw [show setFreerg s p (s.mm p).mmap.vmFreergList = s from System.setMm_eta s p] at halloc
      obtain ⟨mm, hpaged, hspace⟩ := allocSbrk_space h r h0 h1
        (fun ⟨rg, hm, hfit⟩ => hno rg hm hfit) halloc
      refine ⟨_, m1, .single hst1, hn1.congr ?_ ?_⟩ <;>
        rw [hpaged.space.mmap, System.setMm_self] <;> cases hspace with
        | reused hfit | reuseFailed hfit => exact absurd hfit fun ⟨rg, hm, hfit⟩ => hno rg hm hfit
        | raised | raiseFailed | refused => rfl
    · obtain ⟨stat', addr', s1, hres, ⟨-, -, hpaged⟩ | ⟨-, -, hpaged⟩⟩ :=
        allocFreerg_space (setFreerg s p rgs) p r rg raw <;>
        rw [hres] at halloc <;> cases halloc
      · refine ⟨_, m1, .single hst1, hn1.congr ?_ ?_⟩ <;>
          rw [hpaged.space.mmap, System.setMm_self, setFreerg_self] <;> rfl
      · obtain ⟨m2, hst2, hn2⟩ := hn1.putBack hkept rg
        refine ⟨_, m2, .cons hst1 (.single hst2), ?_⟩
        rw [List.append_cons]
        refine hn2.congr ?_ ?_ <;>
          rw [hpaged.space.mmap, System.setMm_self, setFreerg_self] <;> rfl

/-- What a part of an instruction does to the list of regions, calls on the nodes do. -/
theorem Part.onNodes (h : Part p s t) (hs : SpaceInv (s.mm p))
    (hne : (s.mm p).mmap.vmFreergList ≠ []) (hn : OnNodes (s.mm p) calls m) :
    ∃ calls' m', rgNodeLts.Path m calls' m' ∧ OnNodes (t.mm p) (calls ++ calls') m' := by
  cases h with
  | getpage pgn =>
    refine ⟨[], m, .nil, ?_⟩
    rw [List.append_nil]
    exact hn.congr (by rw [(Paged.pgGetpage s pgn).space.mmap])
      (by rw [(Paged.pgGetpage s pgn).space.mmap])
  | alloc hdef halloc =>
    exact alloc_onNodes hs hdef.kept hn (argInt_range _).1 (argInt_range _).2 halloc
  | free r =>
    obtain ⟨-, ht⟩ | ⟨-, ht⟩ := free_space s p r
    · obtain ⟨a, m', hst, hn'⟩ := hn.forget ((s.mm p).symrgtbl r)
      exact ⟨_, m', .single hst, hn'.congr (by rw [ht.space.mmap]) (by rw [ht.space.mmap])⟩
    · obtain ⟨a, m', hst, hn'⟩ := hn.enlist hne ((s.mm p).symrgtbl r)
      refine ⟨_, m', .single hst, hn'.congr ?_ ?_⟩ <;>
        rw [ht.space.mmap, System.setMm_self] <;> rfl
  | devices hmm =>
    refine ⟨[], m, .nil, ?_⟩
    rw [List.append_nil, hmm]
    exact hn

/-- In every run, the list of free regions of a process is one that calls on nodes have made; it leads
to a variable of `__alloc` exactly if `dangling` says so. -/
theorem onNodes_of_run {b : Build} {c : Config ι} {tr : List (Label ι)}
    (h : (definedLts b c).Run tr s) (p : ι) : ∃ calls m, OnNodes (s.mm p) calls m := by
  refine (invariant_of_parts (I := fun mm => mm.mmap.vmFreergList ≠ [] ∧
    ∃ calls m, OnNodes mm calls m) ⟨by simp [initMm, Mm.zero], [], _, onNodes_init⟩ ?_ h p).2.2
  rintro p s t hpart hs ⟨hne, calls, m, hn⟩
  obtain ⟨calls', m', -, hn'⟩ := hpart.onNodes hs hne hn
  exact ⟨hpart.freerg_ne_nil hs hne, _, m', hn'⟩

end

end OsSim.Mem
