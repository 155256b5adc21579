import OsSim.Lib.Arrivals
import OsSim.Lib.LinkedList
import OsSim.Lib.Lts
import OsSim.Mem.Paging

/-!
# Victim selection

`enlist_pgn_node` (`src/mm.c`), `clear_pgn_node` and `find_victim_page`
(`src/mm-vm.c`) on the nodes themselves. The nodes are cells of a heap, and
`fifo_pgn` is the pointer to the first one. A loop is given `fuel`, and `none` is a
loop that has not ended or has met a pointer to no node.

Results:
* `clearPgnNode_eq`, `findVictimPage_eq`: the two loops on a list of any length.
* `clearPgnNode_refines`, `findVictimPage_refines`: they do what the functions on
  lists that the rest of the model uses do.
* `fifoSelection_of_run`: after any calls, the victim is the page that has been in
  the list longest.
-/

namespace OsSim.Mem

open LinkedList Arrivals

/-- Where a node is. -/
abbrev Addr := ℕ

/-- The nodes `struct pgn_t`, and `mm->fifo_pgn`. -/
structure PgnMem where
  heap : Heap Addr ℤ
  fifoPgn : Option Addr

/-- A computation that needs fuel ends with `r`. -/
def Returns {α : Type*} (f : ℕ → Option α) (r : α) : Prop :=
  ∃ n, ∀ fuel, n ≤ fuel → f fuel = some r

theorem Returns.unique {α : Type*} {f : ℕ → Option α} {r r' : α} (h : Returns f r)
    (h' : Returns f r') : r = r' := by
  obtain ⟨n, hn⟩ := h
  obtain ⟨n', hn'⟩ := h'
  have heq := hn (max n n') (Nat.le_max_left ..)
  rw [hn' (max n n') (Nat.le_max_right ..)] at heq
  exact (Option.some.inj heq).symm

namespace PgnMem

/-! ## The code -/

/-- `enlist_pgn_node(&mm->fifo_pgn, pgn)` (`mm.c`, lines 328–337); `pnode` comes from `malloc`. -/
def enlistPgnNode (m : PgnMem) (pnode : Addr) (pgn : ℤ) : PgnMem where
  heap := m.heap.alloc pnode ⟨pgn, m.fifoPgn⟩
  fifoPgn := some pnode

/-- `prev->pg_next = next`, or `mm->fifo_pgn = next` if `prev` is `NULL`. -/
def setLink (m : PgnMem) (prev next : Option Addr) : PgnMem :=
  match prev with
  | none => { m with fifoPgn := next }
  | some prev => { m with heap := m.heap.setNext prev next }

/-- `pg_next = NULL` and `free` of a node. -/
def dispose (m : PgnMem) (temp : Addr) : PgnMem :=
  { m with heap := (m.heap.setNext temp none).free temp }

/-- The loop of `clear_pgn_node` (lines 173–184): the list when it is left, and `temp`. -/
def clearLoop (m : PgnMem) (pgn : ℤ) :
    (fuel : ℕ) → (prev temp : Option Addr) → Option (PgnMem × Option Addr)
  | 0, _, _ => none
  | _ + 1, _, none => some (m, none)
  | fuel + 1, prev, some temp =>
    match m.heap temp with
    | none => none
    | some node =>
      if node.val = pgn then some (m.setLink prev node.next, some temp)
      else clearLoop m pgn fuel (some temp) node.next

/-- `clear_pgn_node` (lines 168–193): the status and the list. -/
def clearPgnNode (m : PgnMem) (pgn : ℤ) (fuel : ℕ) : Option (ℤ × PgnMem) :=
  match m.fifoPgn with
  | none => some (-1, m)
  | some temp =>
    match clearLoop m pgn fuel none (some temp) with
    | none => none
    | some (m, none) => some (0, m)
    | some (m, some temp) => some (0, m.dispose temp)

/-- The loop of `find_victim_page` (lines 647–651): `prev` and `pg`. -/
def victimLoop (m : PgnMem) :
    (fuel : ℕ) → (prev pg : Option Addr) → Option (Option Addr × Option Addr)
  | 0, _, _ => none
  | _ + 1, prev, none => some (prev, none)
  | fuel + 1, prev, some pg =>
    match m.heap pg with
    | none => none
    | some node =>
      match node.next with
      | none => some (prev, some pg)
      | some next => victimLoop m fuel (some pg) (some next)

/-- `find_victim_page` (lines 636–667): the status, `*retpgn` if it is assigned, the list. -/
def findVictimPage (m : PgnMem) (fuel : ℕ) : Option (ℤ × Option ℤ × PgnMem) :=
  match m.fifoPgn with
  | none => some (-1, none, m)
  | some pg =>
    match victimLoop m fuel none (some pg) with
    | none => none
    | some (_, none) => some (-1, some (-1), m)
    | some (prev, some pg) =>
      (m.heap pg).map fun node => (0, some node.val, (m.setLink prev none).dispose pg)

/-! ## The list -/

/-- The nodes from `fifo_pgn` on are those of `l`. -/
def Linked (m : PgnMem) (l : List (Addr × ℤ)) : Prop := Seg m.heap m.fifoPgn l none

/-- The list holds `pages`, in this order. -/
def Holds (m : PgnMem) (pages : List ℤ) : Prop := ∃ l, m.Linked l ∧ l.map Prod.snd = pages

variable {m : PgnMem} {l pre post : List (Addr × ℤ)} {pages : List ℤ}

theorem Holds.unique {pages' : List ℤ} (h : m.Holds pages) (h' : m.Holds pages') :
    pages = pages' := by
  obtain ⟨l, hl, rfl⟩ := h
  obtain ⟨l', hl', rfl⟩ := h'
  rw [Seg.unique hl hl']

theorem holds_nil (h : m.fifoPgn = none) : m.Holds [] := by
  refine ⟨[], ?_, rfl⟩
  rw [Linked, h]
  exact .nil none

/-- The pointer to the last node of `pre`, `NULL` if there is none. -/
def lastAddr (pre : List (Addr × ℤ)) : Option Addr := pre.getLast?.map Prod.fst

/-- A node is unlinked and freed: the other nodes stay in their order. -/
theorem Linked.unlink {a : Addr} {v : ℤ} (h : m.Linked (pre ++ (a, v) :: post)) :
    ∃ next, m.heap a = some ⟨v, next⟩ ∧
      ((m.setLink (lastAddr pre) next).dispose a).Linked (pre ++ post) := by
  induction pre using List.reverseRecOn with
  | nil =>
    obtain ⟨next, ha, hs⟩ := Seg.drop_head h
    refine ⟨next, ha, ?_⟩
    rw [Linked, dispose, Heap.free_setNext]
    exact hs
  | append_singleton pre b _ =>
    rw [List.append_assoc, List.singleton_append] at h
    obtain ⟨next, ha, hs⟩ := Seg.unlink h
    refine ⟨next, ha, ?_⟩
    rw [Linked, dispose, Heap.free_setNext, lastAddr, List.getLast?_concat, List.append_assoc]
    exact hs

/-! ## `enlist_pgn_node` -/

theorem enlistPgnNode_holds (h : m.Holds pages) {pnode : Addr} (hfree : m.heap pnode = none)
    (pgn : ℤ) : (m.enlistPgnNode pnode pgn).Holds (pgn :: pages) := by
  obtain ⟨l, hl, rfl⟩ := h
  exact ⟨(pnode, pgn) :: l, Seg.push hl hfree pgn, rfl⟩

/-! ## `clear_pgn_node` -/

section

variable {pgn : ℤ}

/-- A node of another page is passed: it is now the last one behind the pointer. -/
theorem clearLoop_pass {a : Addr} {v : ℤ} {next : Option Addr} (ha : m.heap a = some ⟨v, next⟩)
    (hv : v ≠ pgn) (pre : List (Addr × ℤ)) (fuel : ℕ) :
    m.clearLoop pgn (fuel + 1) (lastAddr pre) (some a) =
      m.clearLoop pgn fuel (lastAddr (pre ++ [(a, v)])) next := by
  have hlast : lastAddr (pre ++ [(a, v)]) = some a := by simp [lastAddr]
  simp only [clearLoop, ha, hv, if_false, hlast]

/-- The page has no node. -/
theorem clearLoop_absent (pre : List (Addr × ℤ)) {temp : Option Addr}
    (hs : Seg m.heap temp post none) (hno : pgn ∉ post.map Prod.snd) {fuel : ℕ}
    (hfuel : post.length < fuel) : m.clearLoop pgn fuel (lastAddr pre) temp = some (m, none) := by
  obtain ⟨fuel, rfl⟩ := Nat.exists_eq_succ_of_ne_zero (Nat.ne_zero_of_lt hfuel)
  induction post generalizing pre temp fuel with
  | nil =>
    cases hs
    rfl
  | cons c post ih =>
    cases hs with
    | cons ha hs =>
      rw [List.map_cons, List.mem_cons, not_or] at hno
      obtain ⟨fuel, rfl⟩ := Nat.exists_eq_succ_of_ne_zero
        (show fuel ≠ 0 by rw [List.length_cons] at hfuel; omega)
      rw [Nat.succ_eq_add_one, clearLoop_pass ha (Ne.symm hno.1)]
      exact ih _ hs hno.2 fuel (by rw [List.length_cons] at hfuel; omega)

/-- The first node of the page is at `a`. -/
theorem clearLoop_found (pre l1 : List (Addr × ℤ)) {l2 : List (Addr × ℤ)} {a : Addr}
    {temp next : Option Addr} (hs : Seg m.heap temp (l1 ++ (a, pgn) :: l2) none)
    (hno : pgn ∉ l1.map Prod.snd) (ha : m.heap a = some ⟨pgn, next⟩) {fuel : ℕ}
    (hfuel : l1.length < fuel) :
    m.clearLoop pgn fuel (lastAddr pre) temp =
      some (m.setLink (lastAddr (pre ++ l1)) next, some a) := by
  obtain ⟨fuel, rfl⟩ := Nat.exists_eq_succ_of_ne_zero (Nat.ne_zero_of_lt hfuel)
  induction l1 generalizing pre temp fuel with
  | nil =>
    cases hs
    simp only [clearLoop, ha, if_true, List.append_nil]
  | cons c l1 ih =>
    cases hs with
    | cons hc hs =>
      rw [List.map_cons, List.mem_cons, not_or] at hno
      obtain ⟨fuel, rfl⟩ := Nat.exists_eq_succ_of_ne_zero
        (show fuel ≠ 0 by rw [List.length_cons] at hfuel; omega)
      rw [Nat.succ_eq_add_one, clearLoop_pass hc (Ne.symm hno.1),
        ih _ hs hno.2 fuel (by rw [List.length_cons] at hfuel; omega), List.append_assoc,
        List.singleton_append]

end

/-- `clear_pgn_node` removes the first node of the page. -/
theorem clearPgnNode_eq (h : m.Holds pages) (pgn : ℤ) :
    ∃ m', Returns (m.clearPgnNode pgn) (if pages = [] then -1 else 0, m') ∧
      m'.Holds (pages.erase pgn) := by
  obtain ⟨l, hl, rfl⟩ := h
  rcases eq_or_ne l [] with rfl | hne
  · refine ⟨m, ⟨0, fun fuel _ => ?_⟩, holds_nil (Seg.eq_none hl)⟩
    simp [clearPgnNode, (Seg.eq_none hl)]
  obtain ⟨temp, htemp⟩ := Seg.exists_addr hl hne
  rw [if_neg (by simpa using hne)]
  by_cases hmem : pgn ∈ l.map Prod.snd
  · -- the nodes before the first one of the page, and those behind it
    obtain ⟨l1, l2, heq, hno⟩ := List.eq_append_cons_of_mem hmem
    obtain ⟨k1, k2, rfl, rfl, hk2⟩ := List.map_eq_append_iff.mp heq
    obtain ⟨⟨a, v⟩, k2, rfl, rfl, rfl⟩ := List.map_eq_cons_iff.mp hk2
    obtain ⟨next, ha, hs⟩ := hl.unlink
    refine ⟨_, ⟨k1.length + 1, fun fuel hfuel => ?_⟩, _, hs, ?_⟩
    · have hloop : m.clearLoop v fuel none m.fifoPgn =
          some (m.setLink (lastAddr k1) next, some a) :=
        clearLoop_found [] k1 hl hno ha (Nat.lt_of_succ_le hfuel)
      rw [htemp] at hloop
      simp only [clearPgnNode, htemp, hloop]
    · rw [heq, List.erase_append_right _ hno, List.erase_cons_head, List.map_append]
  · refine ⟨m, ⟨l.length + 1, fun fuel hfuel => ?_⟩, ?_⟩
    · have hloop : m.clearLoop pgn fuel none m.fifoPgn = some (m, none) :=
        clearLoop_absent [] hl hmem (Nat.lt_of_succ_le hfuel)
      rw [htemp] at hloop
      simp only [clearPgnNode, htemp, hloop]
    · rw [List.erase_of_not_mem hmem]
      exact ⟨l, hl, rfl⟩

/-! ## `find_victim_page` -/

/-- The loop ends at the last node. -/
theorem victimLoop_eq (pre l1 : List (Addr × ℤ)) {a : Addr} {v : ℤ} {pg : Option Addr}
    (hs : Seg m.heap pg (l1 ++ [(a, v)]) none) {fuel : ℕ} (hfuel : l1.length < fuel) :
    m.victimLoop fuel (lastAddr pre) pg = some (lastAddr (pre ++ l1), some a) := by
  obtain ⟨fuel, rfl⟩ := Nat.exists_eq_succ_of_ne_zero (Nat.ne_zero_of_lt hfuel)
  induction l1 generalizing pre pg fuel with
  | nil =>
    cases hs with
    | cons ha hs =>
      cases hs
      simp only [victimLoop, ha, List.append_nil]
  | cons c l1 ih =>
    cases hs with
    | @cons b w next _ _ hb hs =>
      obtain ⟨fuel, rfl⟩ := Nat.exists_eq_succ_of_ne_zero
        (show fuel ≠ 0 by rw [List.length_cons] at hfuel; omega)
      have hlast : lastAddr (pre ++ [(b, w)]) = some b := by simp [lastAddr]
      have hrest := ih (pre ++ [(b, w)]) hs fuel (by rw [List.length_cons] at hfuel; omega)
      rw [hlast, List.append_assoc, List.singleton_append] at hrest
      obtain ⟨pg', rfl⟩ := hs.exists_addr (by simp)
      rw [Nat.succ_eq_add_one, victimLoop]
      simp only [hb]
      exact hrest

/-- `find_victim_page` fails on the empty list. -/
theorem findVictimPage_nil (h : m.Holds []) : Returns m.findVictimPage (-1, none, m) := by
  obtain ⟨l, hl, hnil⟩ := h
  rw [List.map_eq_nil_iff.mp hnil] at hl
  exact ⟨0, fun fuel _ => by simp [findVictimPage, (Seg.eq_none hl)]⟩

/-- It returns and removes the last page. -/
theorem findVictimPage_concat {pgn : ℤ} (h : m.Holds (pages ++ [pgn])) :
    ∃ m', Returns m.findVictimPage (0, some pgn, m') ∧ m'.Holds pages := by
  obtain ⟨l, hl, heq⟩ := h
  obtain ⟨k1, k2, rfl, rfl, hk2⟩ := List.map_eq_append_iff.mp heq
  obtain ⟨⟨a, v⟩, rfl, rfl⟩ := List.map_eq_singleton_iff.mp hk2
  obtain ⟨temp, htemp⟩ := Seg.exists_addr hl (by simp)
  obtain ⟨next, ha, hs⟩ := hl.unlink
  have hnext : next = none := by
    obtain ⟨q, -, hlast⟩ := Seg.split hl
    cases hlast with
    | cons ha' hnil =>
      cases hnil
      rw [ha] at ha'
      cases ha'
      rfl
  subst hnext
  rw [List.append_nil] at hs
  refine ⟨_, ⟨k1.length + 1, fun fuel hfuel => ?_⟩, k1, hs, rfl⟩
  have hloop : m.victimLoop fuel none m.fifoPgn = some (lastAddr k1, some a) :=
    victimLoop_eq [] k1 hl (Nat.lt_of_succ_le hfuel)
  rw [htemp] at hloop
  simp only [findVictimPage, htemp, hloop, ha, Option.map_some]

/-! ## The functions on lists -/

section

variable {plist : List ℕ} (h : m.Holds (plist.map Nat.cast))

include h

theorem enlistPgnNode_refines {pnode : Addr} (hfree : m.heap pnode = none) (pgn : ℕ) :
    (m.enlistPgnNode pnode pgn).Holds ((Mem.enlistPgnNode plist pgn).map Nat.cast) :=
  enlistPgnNode_holds h hfree pgn

theorem clearPgnNode_refines (pgn : ℕ) :
    ∃ ret m', Returns (m.clearPgnNode pgn) (ret, m') ∧
      m'.Holds ((Mem.clearPgnNode plist pgn).map Nat.cast) := by
  obtain ⟨m', hret, hholds⟩ := clearPgnNode_eq h pgn
  rw [← List.map_erase Nat.cast_injective] at hholds
  exact ⟨_, m', hret, hholds⟩

theorem findVictimPage_refines :
    match Mem.findVictimPage plist with
    | none => Returns m.findVictimPage (-1, none, m)
    | some (pgn, rest) => ∃ m', Returns m.findVictimPage (0, some (pgn : ℤ), m') ∧
        m'.Holds (rest.map Nat.cast) := by
  induction plist using List.reverseRecOn with
  | nil => exact findVictimPage_nil h
  | append_singleton rest pgn _ =>
    rw [List.map_append] at h
    simp only [Mem.findVictimPage, List.getLast?_concat, List.dropLast_concat]
    exact findVictimPage_concat h

end

end PgnMem

/-! ## Runs -/

/-- A call and what it returns; `find_victim_page` returns a page or fails. -/
inductive PgnCall where
  | enlist (pgn : ℤ)
  | clear (pgn : ℤ)
  | victim (retpgn : Option ℤ)

/-- What a call means for the pages in the list. -/
def PgnCall.event : PgnCall → Event ℤ
  | .enlist pgn => .enter pgn
  | .clear pgn => .leave pgn
  | .victim (some pgn) => .leave pgn
  | .victim none => .idle

/-- A list that is empty at first, and any calls. -/
def pgnLts : Lts PgnMem PgnCall where
  init m := m.fifoPgn = none
  step m call m' :=
    match call with
    | .enlist pgn => ∃ pnode, m.heap pnode = none ∧ m' = m.enlistPgnNode pnode pgn
    | .clear pgn => ∃ ret, Returns (m.clearPgnNode pgn) (ret, m')
    | .victim retpgn => ∃ ret, Returns m.findVictimPage (ret, retpgn, m')

/-- A page is enlisted only while it is not in the list. -/
def EnlistsNew (m : PgnMem) (call : PgnCall) (_ : PgnMem) : Prop :=
  ∀ pgn, call = .enlist pgn → ∀ pages, m.Holds pages → pgn ∉ pages

/-- What the next call is going to do to a list that holds `pages`. -/
structure FifoSelection (tr : List PgnCall) (m : PgnMem) (pages : List ℤ) : Prop where
  nodup : pages.Nodup
  mem_iff : ∀ pgn, pgn ∈ pages ↔ ∃ t, since (tr.map PgnCall.event) pgn = some t
  returns : ∃ r, Returns m.findVictimPage r
  fails_iff : ∀ r, Returns m.findVictimPage r → (r.1 = -1 ↔ pages = [])
  fails : ∀ ret m', Returns m.findVictimPage (ret, none, m') → m' = m
  victim : ∀ ret pgn m', Returns m.findVictimPage (ret, some pgn, m') →
    Oldest (tr.map PgnCall.event) pgn ∧ m'.Holds (pages.erase pgn)
  clear : ∀ pgn, ∃ ret m', Returns (m.clearPgnNode pgn) (ret, m') ∧ m'.Holds (pages.erase pgn)

section

variable {tr : List PgnCall} {m m' : PgnMem} {pages : List ℤ}

/-- What `find_victim_page` does to a list whose newest page comes first. -/
theorem victim_cases (hm : m.Holds pages)
    (hl : NewestFirst (tr.map PgnCall.event) pages) :
    (pages = [] ∧ Returns m.findVictimPage (-1, none, m)) ∨
      ∃ pgn m', pgn ∈ pages ∧ Returns m.findVictimPage (0, some pgn, m') ∧
        Oldest (tr.map PgnCall.event) pgn ∧ m'.Holds (pages.erase pgn) := by
  induction pages using List.reverseRecOn with
  | nil => exact .inl ⟨rfl, m.findVictimPage_nil hm⟩
  | append_singleton rest pgn _ =>
    obtain ⟨m', hret, hholds⟩ := m.findVictimPage_concat hm
    refine .inr ⟨pgn, m', by simp, hret, hl.oldest, ?_⟩
    have hno : pgn ∉ rest := by
      have hnodup := hl.nodup
      rw [List.nodup_append_comm, List.singleton_append, List.nodup_cons] at hnodup
      exact hnodup.1
    rwa [List.erase_append_right _ hno, List.erase_cons_head, List.append_nil]

/-- A call keeps it that the list holds the pages that are in, the newest first. -/
theorem newestFirst_step (hm : m.Holds pages) (hl : NewestFirst (tr.map PgnCall.event) pages)
    {call : PgnCall} (hst : pgnLts.step m call m') (hnew : EnlistsNew m call m') :
    ∃ pages', m'.Holds pages' ∧ NewestFirst ((tr ++ [call]).map PgnCall.event) pages' := by
  rw [List.map_append, List.map_singleton]
  cases call with
  | enlist pgn =>
    obtain ⟨pnode, hfree, rfl⟩ := hst
    exact ⟨_, m.enlistPgnNode_holds hm hfree pgn, hl.enter (hnew pgn rfl pages hm)⟩
  | clear pgn =>
    obtain ⟨ret, hret⟩ := hst
    obtain ⟨m1, hret1, hholds⟩ := m.clearPgnNode_eq hm pgn
    cases hret.unique hret1
    exact ⟨_, hholds, hl.leave pgn⟩
  | victim retpgn =>
    obtain ⟨ret, hret⟩ := hst
    obtain ⟨hnil, hret1⟩ | ⟨pgn, m1, -, hret1, -, hholds⟩ := victim_cases hm hl
    · cases hret.unique hret1
      exact ⟨pages, hm, hl.idle⟩
    · cases hret.unique hret1
      exact ⟨_, hholds, hl.leave pgn⟩

theorem newestFirst_of_run (h : (pgnLts.guard EnlistsNew).Run tr m) :
    ∃ pages, m.Holds pages ∧ NewestFirst (tr.map PgnCall.event) pages := by
  refine h.history
    (I := fun tr m => ∃ pages, m.Holds pages ∧ NewestFirst (tr.map PgnCall.event) pages) ?_ ?_
  · intro m h0
    exact ⟨[], PgnMem.holds_nil h0, .nil⟩
  · rintro tr m call m' ⟨pages, hm, hl⟩ ⟨hst, hnew⟩
    exact newestFirst_step hm hl hst hnew

/-- After any calls that enlist a page only while it is not in the list, the victim is the page that
has been in longest, and `clear_pgn_node` takes out the page that is named. -/
theorem fifoSelection_of_run (h : (pgnLts.guard EnlistsNew).Run tr m) :
    ∃ pages, m.Holds pages ∧ FifoSelection tr m pages := by
  obtain ⟨pages, hm, hl⟩ := newestFirst_of_run h
  have hclear : ∀ pgn, ∃ ret m', Returns (m.clearPgnNode pgn) (ret, m') ∧
      m'.Holds (pages.erase pgn) := by
    intro pgn
    obtain ⟨m', hret, hholds⟩ := m.clearPgnNode_eq hm pgn
    exact ⟨_, m', hret, hholds⟩
  refine ⟨pages, hm, hl.nodup, hl.mem_iff, ?_, ?_, ?_, ?_, hclear⟩
  all_goals
    obtain ⟨hnil, hret⟩ | ⟨pgn, m1, hmem, hret, hold, hholds⟩ := victim_cases hm hl
  · exact ⟨_, hret⟩
  · exact ⟨_, hret⟩
  · intro r hr
    rw [hr.unique hret]
    simp [hnil]
  · intro r hr
    rw [hr.unique hret]
    simp [List.ne_nil_of_mem hmem]
  · intro ret m' hr
    cases hr.unique hret
    rfl
  · intro ret m' hr
    cases hr.unique hret
  · intro ret pgn m' hr
    cases hr.unique hret
  · intro ret pgn m' hr
    cases hr.unique hret
    exact ⟨hold, hholds⟩

end

/-- A run goes on with a page that is not in the list. -/
theorem run_enlist {tr : List PgnCall} {m : PgnMem} {pages : List ℤ}
    (h : (pgnLts.guard EnlistsNew).Run tr m) (hm : m.Holds pages) (pgn : ℤ) (hno : pgn ∉ pages)
    (pnode : Addr) (hfree : m.heap pnode = none) :
    (pgnLts.guard EnlistsNew).Run (tr ++ [.enlist pgn]) (m.enlistPgnNode pnode pgn) ∧
      (m.enlistPgnNode pnode pgn).Holds (pgn :: pages) := by
  have hnew : EnlistsNew m (.enlist pgn) (m.enlistPgnNode pnode pgn) := by
    rintro _ ⟨⟩ pages' hm'
    rwa [hm'.unique hm]
  exact ⟨Lts.Run.step (L := pgnLts.guard EnlistsNew) h ⟨⟨pnode, hfree, rfl⟩, hnew⟩,
    m.enlistPgnNode_holds hm hfree pgn⟩

/-- Pages 7, 8 and 9 are enlisted and 8 is taken out: the victim is 7. -/
theorem fifoSelection_three : ∃ m, (pgnLts.guard EnlistsNew).Run
      [.enlist 7, .enlist 8, .enlist 9, .clear 8] m ∧ m.Holds [9, 7] ∧
    (∃ m', Returns m.findVictimPage (0, some 7, m')) ∧
    ∃ pages, m.Holds pages ∧
      FifoSelection [.enlist 7, .enlist 8, .enlist 9, .clear 8] m pages := by
  have h0 : (pgnLts.guard EnlistsNew).Run [] ⟨fun _ => none, none⟩ := .init rfl
  obtain ⟨h1, hm1⟩ := run_enlist h0 (PgnMem.holds_nil rfl) 7 (by decide) 0 rfl
  obtain ⟨h2, hm2⟩ := run_enlist h1 hm1 8 (by decide) 1 rfl
  obtain ⟨h3, hm3⟩ := run_enlist h2 hm2 9 (by decide) 2 rfl
  obtain ⟨m, hret, hm⟩ := PgnMem.clearPgnNode_eq hm3 8
  have hrun : (pgnLts.guard EnlistsNew).Run [.enlist 7, .enlist 8, .enlist 9, .clear 8] m :=
    Lts.Run.step (L := pgnLts.guard EnlistsNew) h3 ⟨⟨_, hret⟩, by rintro _ ⟨⟩⟩
  obtain ⟨m', hret', -⟩ := PgnMem.findVictimPage_concat (show m.Holds ([9] ++ [7]) from hm)
  exact ⟨m, hrun, hm, ⟨m', hret'⟩, fifoSelection_of_run hrun⟩

end OsSim.Mem
