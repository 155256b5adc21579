import Mathlib.Logic.Function.Basic
import Mathlib.Data.List.Nodup

/-!
# Linked lists in memory

Cells at addresses `α`, each with a value in `β` and a pointer to the next cell;
`none` is the null pointer. `Seg h p l q` says that the cells `l`, given by their
addresses and values, are linked from the pointer `p` on and end in the
pointer `q`. A list is a segment that ends in the null pointer.

Results:
* `Seg.unique`, `Seg.nodup`: the pointer determines the cells of a list, and no cell
  comes twice; the same where the last pointer leads to no cell (`Dead`).
* `Seg.push`, `Seg.push_back`: a new cell in front, or behind the last one.
* `Seg.drop_head`, `Seg.unlink`: a cell is taken out at the head, or behind another cell.
* `Seg.set_val`, `Seg.absorb`: a cell gets another value, or takes over the next cell.
* `Heap.Within`: the cells that are allocated, under the same changes.
-/

namespace OsSim.LinkedList

universe u v

structure Cell (α : Type u) (β : Type v) where
  val : β
  next : Option α

/-- The cells that are allocated. -/
abbrev Heap (α : Type u) (β : Type v) := α → Option (Cell α β)

variable {α : Type u} {β : Type v}

namespace Heap

variable [DecidableEq α]

/-- A new cell. -/
def alloc (h : Heap α β) (a : α) (c : Cell α β) : Heap α β := Function.update h a (some c)

/-- `a->next = q`. -/
def setNext (h : Heap α β) (a : α) (q : Option α) : Heap α β :=
  Function.update h a ((h a).map fun c => { c with next := q })

def free (h : Heap α β) (a : α) : Heap α β := Function.update h a none

/-- `a->val = v`. -/
def setVal (h : Heap α β) (a : α) (v : β) : Heap α β :=
  Function.update h a ((h a).map fun c => { c with val := v })

theorem setNext_eq_self {h : Heap α β} {a : α} {c : Cell α β} (hc : h a = some c) :
    h.setNext a c.next = h := by
  rw [setNext, hc]
  exact Function.update_eq_self_iff.mpr hc.symm

/-- Only cells of `S` are allocated. -/
def Within (h : Heap α β) (S : α → Prop) : Prop := ∀ a, h a ≠ none → S a

omit [DecidableEq α] in
theorem within_empty (S : α → Prop) : Within (fun _ => none : Heap α β) S :=
  fun _ ha => absurd rfl ha

section

variable {h : Heap α β} {S S' : α → Prop} {a : α}

theorem Within.alloc (hw : h.Within S) (hsub : ∀ x, S x → S' x) (ha : S' a) (c : Cell α β) :
    (h.alloc a c).Within S' := by
  intro x hx
  by_cases hxa : x = a
  · rwa [hxa]
  · rw [Heap.alloc, Function.update_of_ne hxa] at hx
    exact hsub x (hw x hx)

theorem Within.free (hw : h.Within S) (hsub : ∀ x, S x → x ≠ a → S' x) :
    (h.free a).Within S' := by
  intro x hx
  by_cases hxa : x = a
  · rw [hxa, Heap.free, Function.update_self] at hx
    exact absurd rfl hx
  · rw [Heap.free, Function.update_of_ne hxa] at hx
    exact hsub x (hw x hx) hxa

theorem Within.setNext (hw : h.Within S) (a : α) (q : Option α) : (h.setNext a q).Within S := by
  intro x hx
  by_cases hxa : x = a
  · rw [hxa, Heap.setNext, Function.update_self, Ne, Option.map_eq_none_iff] at hx
    exact hxa ▸ hw a hx
  · rw [Heap.setNext, Function.update_of_ne hxa] at hx
    exact hw x hx

theorem Within.setVal (hw : h.Within S) (a : α) (v : β) : (h.setVal a v).Within S := by
  intro x hx
  by_cases hxa : x = a
  · rw [hxa, Heap.setVal, Function.update_self, Ne, Option.map_eq_none_iff] at hx
    exact hxa ▸ hw a hx
  · rw [Heap.setVal, Function.update_of_ne hxa] at hx
    exact hw x hx

end

theorem setNext_alloc (h : Heap α β) (a : α) (v : β) (p q : Option α) :
    (h.alloc a ⟨v, p⟩).setNext a q = h.alloc a ⟨v, q⟩ := by
  rw [setNext, alloc, Function.update_self, Function.update_idem, alloc]
  rfl

theorem free_alloc {h : Heap α β} {a : α} (ha : h a = none) (c : Cell α β) :
    (h.alloc a c).free a = h := by
  rw [free, alloc, Function.update_idem]
  exact Function.update_eq_self_iff.mpr ha.symm

@[simp] theorem free_setNext (h : Heap α β) (a : α) (q : Option α) :
    (h.setNext a q).free a = h.free a := Function.update_idem ..

end Heap

/-- The pointer leads to no cell: it is null, or what it pointed to has been freed. -/
def Dead (h : Heap α β) (q : Option α) : Prop := ∀ a, q = some a → h a = none

theorem dead_none (h : Heap α β) : Dead h none := nofun

/-- The cells `l` are linked from `p` to `q`. -/
inductive Seg (h : Heap α β) : Option α → List (α × β) → Option α → Prop
  | nil (p : Option α) : Seg h p [] p
  | cons {a : α} {v : β} {next q : Option α} {l : List (α × β)} :
      h a = some ⟨v, next⟩ → Seg h next l q → Seg h (some a) ((a, v) :: l) q

namespace Seg

variable {h h' : Heap α β} {p q r : Option α} {a b : α} {v w : β} {l l' : List (α × β)}

theorem append (hs : Seg h p l q) (hs' : Seg h q l' r) : Seg h p (l ++ l') r := by
  induction hs with
  | nil => exact hs'
  | cons hc _ ih => exact .cons hc (ih hs')

theorem split (hs : Seg h p (l ++ l') r) : ∃ q, Seg h p l q ∧ Seg h q l' r := by
  induction l generalizing p with
  | nil => exact ⟨p, .nil p, hs⟩
  | cons c l ih =>
    cases hs with
    | cons hc hs =>
      obtain ⟨q, h1, h2⟩ := ih hs
      exact ⟨q, .cons hc h1, h2⟩

theorem single (hc : h a = some ⟨v, q⟩) : Seg h (some a) [(a, v)] q := .cons hc (.nil q)

/-- The pointer of an empty list is null. -/
theorem eq_none (hs : Seg h p [] none) : p = none := by
  cases hs
  rfl

theorem exists_addr (hs : Seg h p l none) (hne : l ≠ []) : ∃ a, p = some a := by
  cases hs with
  | nil => exact absurd rfl hne
  | cons => exact ⟨_, rfl⟩

theorem exists_addr_some (hs : Seg h p l (some a)) : ∃ b, p = some b := by
  cases hs with
  | nil => exact ⟨_, rfl⟩
  | cons => exact ⟨_, rfl⟩

/-- The pointer to the first cell, null if there is none. -/
def headAddr (l : List (α × β)) : Option α := l.head?.map Prod.fst

/-- A cell inside a list points to the next one. -/
theorem cell (hs : Seg h p (l ++ (a, v) :: l') none) : h a = some ⟨v, headAddr l'⟩ := by
  obtain ⟨q, -, hs⟩ := hs.split
  cases hs with
  | cons hc hs =>
    cases hs with
    | nil => exact hc
    | cons _ _ => exact hc

theorem eq_headAddr (hs : Seg h p l none) : p = headAddr l := by
  cases hs with
  | nil => rfl
  | cons _ _ => rfl

/-- The pointer determines the cells. -/
theorem unique_of_dead (hs : Seg h p l q) (hs' : Seg h p l' r) (hq : Dead h q) (hr : Dead h r) :
    l = l' := by
  induction hs generalizing l' with
  | nil =>
    cases hs' with
    | nil => rfl
    | cons hc' _ =>
      rw [hq _ rfl] at hc'
      cases hc'
  | cons hc _ ih =>
    cases hs' with
    | nil =>
      rw [hr _ rfl] at hc
      cases hc
    | cons hc' hs' =>
      rw [hc] at hc'
      cases hc'
      rw [ih hs' hq]

theorem unique (hs : Seg h p l none) (hs' : Seg h p l' none) : l = l' :=
  hs.unique_of_dead hs' (dead_none h) (dead_none h)

/-- No cell comes twice: from there on the list would be as long as its own rest. -/
theorem nodup_of_dead (hs : Seg h p l q) (hq : Dead h q) : (l.map Prod.fst).Nodup := by
  induction l generalizing p with
  | nil => exact List.nodup_nil
  | cons c l ih =>
    have hs0 := hs
    cases hs with
    | @cons a v next _ _ hc hs =>
      refine List.nodup_cons.mpr ⟨fun hmem => ?_, ih hs⟩
      obtain ⟨⟨b, w⟩, hb, rfl⟩ := List.mem_map.mp hmem
      obtain ⟨l1, l2, rfl⟩ := List.append_of_mem hb
      obtain ⟨r, -, hs2⟩ := hs.split
      cases hs2 with
      | cons hc2 hs2 =>
        have hlen := congrArg List.length (hs0.unique_of_dead (.cons hc2 hs2) hq hq)
        simp only [List.length_cons, List.length_append] at hlen
        omega

theorem nodup (hs : Seg h p l none) : (l.map Prod.fst).Nodup := hs.nodup_of_dead (dead_none h)

/-- Cells outside the segment do not matter. -/
theorem frame (hs : Seg h p l q) (heq : ∀ a ∈ l.map Prod.fst, h' a = h a) : Seg h' p l q := by
  induction hs with
  | nil => exact .nil _
  | @cons a _ _ _ l hc _ ih =>
    refine .cons ((heq a (by simp)).trans hc) (ih fun b hb => heq b ?_)
    rw [List.map_cons]
    exact List.mem_cons_of_mem a hb

theorem not_mem_of_free (hs : Seg h p l q) (ha : h a = none) : a ∉ l.map Prod.fst := by
  induction hs with
  | nil => exact List.not_mem_nil
  | cons hc _ ih =>
    rw [List.map_cons, List.mem_cons, not_or]
    refine ⟨?_, ih⟩
    rintro rfl
    rw [ha] at hc
    cases hc

section

variable [DecidableEq α]

theorem update (hs : Seg h p l q) (ha : a ∉ l.map Prod.fst) (c : Option (Cell α β)) :
    Seg (Function.update h a c) p l q := by
  refine hs.frame fun b hb => Function.update_of_ne ?_ ..
  rintro rfl
  exact ha hb

/-- A new cell in front. -/
theorem push (hs : Seg h p l q) (ha : h a = none) (v : β) :
    Seg (h.alloc a ⟨v, p⟩) (some a) ((a, v) :: l) q :=
  .cons (Function.update_self ..) (hs.update (hs.not_mem_of_free ha) _)

/-- The first cell is taken out. -/
theorem drop_head (hs : Seg h p ((a, v) :: l) none) :
    ∃ next, h a = some ⟨v, next⟩ ∧ Seg (h.free a) next l none := by
  have hnodup := hs.nodup
  cases hs with
  | cons hc hs => exact ⟨_, hc, hs.update (List.nodup_cons.mp hnodup).1 _⟩

/-- The cell behind `b` is taken out. -/
theorem unlink (hs : Seg h p (l ++ (b, w) :: (a, v) :: l') none) :
    ∃ next, h a = some ⟨v, next⟩ ∧
      Seg ((h.setNext b next).free a) p (l ++ (b, w) :: l') none := by
  have hnodup := hs.nodup
  obtain ⟨q, h1, h2⟩ := hs.split
  cases h2 with
  | cons hb h2 =>
    cases h2 with
    | @cons _ _ next _ _ ha h3 =>
      refine ⟨next, ha, ?_⟩
      simp only [List.map_append, List.map_cons, List.nodup_append, List.nodup_cons,
        List.mem_cons, not_or] at hnodup
      obtain ⟨-, ⟨⟨hba, hb3⟩, ha3, -⟩, hdis⟩ := hnodup
      have hb1 : b ∉ l.map Prod.fst := fun hm => hdis b hm b (.inl rfl) rfl
      have ha1 : a ∉ l.map Prod.fst := fun hm => hdis a hm a (.inr (.inl rfl)) rfl
      have hcell : (h.setNext b next).free a b = some ⟨w, next⟩ := by
        rw [Heap.free, Function.update_of_ne hba, Heap.setNext, Function.update_self, hb]
        rfl
      exact ((h1.update hb1 _).update ha1 _).append (.cons hcell ((h3.update hb3 _).update ha3 _))

/-- The last cell is linked to a new one. -/
theorem push_back (hs : Seg h p (l ++ [(b, w)]) q) (hb : b ∉ l.map Prod.fst) (ha : h a = none)
    (v : β) :
    Seg ((h.alloc a ⟨v, none⟩).setNext b (some a)) p (l ++ [(b, w), (a, v)]) none := by
  obtain ⟨r, h1, h2⟩ := hs.split
  cases h2 with
  | cons hc _ =>
    have hab : a ≠ b := by
      rintro rfl
      rw [ha] at hc
      cases hc
    have hcb : (h.alloc a ⟨v, none⟩).setNext b (some a) b = some ⟨w, some a⟩ := by
      rw [Heap.setNext, Function.update_self, Heap.alloc, Function.update_of_ne hab.symm, hc]
      rfl
    have hca : (h.alloc a ⟨v, none⟩).setNext b (some a) a = some ⟨v, none⟩ := by
      rw [Heap.setNext, Function.update_of_ne hab, Heap.alloc, Function.update_self]
    have h1' := (h1.update (h1.not_mem_of_free ha) (some ⟨v, none⟩)).update hb
      ((h.alloc a ⟨v, none⟩ b).map fun c => { c with next := some a })
    exact h1'.append (.cons hcb (.single hca))

/-- A cell gets another value. -/
theorem set_val (hs : Seg h p (l ++ (a, v) :: l') q) (hq : Dead h q) (w : β) :
    Seg (h.setVal a w) p (l ++ (a, w) :: l') q := by
  have hnodup := hs.nodup_of_dead hq
  rw [List.map_append, List.map_cons, List.nodup_middle, List.nodup_cons, List.mem_append,
    not_or] at hnodup
  obtain ⟨⟨hl, hl'⟩, -⟩ := hnodup
  obtain ⟨r, h1, h2⟩ := hs.split
  cases h2 with
  | @cons _ _ next _ _ hc h2 =>
    have hcell : h.setVal a w a = some ⟨w, next⟩ := by
      rw [Heap.setVal, Function.update_self, hc]
      rfl
    exact (h1.update hl _).append (.cons hcell (h2.update hl' _))

/-- A cell takes over value and pointer of the next one, which is freed. -/
theorem absorb (hs : Seg h p (l ++ (a, v) :: (b, w) :: l') q) (hq : Dead h q) :
    ∃ next, h b = some ⟨w, next⟩ ∧
      Seg (((h.setVal a w).setNext a next).free b) p (l ++ (a, w) :: l') q := by
  have hnodup := hs.nodup_of_dead hq
  simp only [List.map_append, List.map_cons, List.nodup_append, List.nodup_cons, List.mem_cons,
    not_or] at hnodup
  obtain ⟨-, ⟨⟨hab, ha'⟩, hb', -⟩, hdis⟩ := hnodup
  have ha : a ∉ l.map Prod.fst := fun hm => hdis a hm a (.inl rfl) rfl
  have hb : b ∉ l.map Prod.fst := fun hm => hdis b hm b (.inr (.inl rfl)) rfl
  obtain ⟨r, h1, h2⟩ := hs.split
  cases h2 with
  | cons hca h2 =>
    cases h2 with
    | @cons _ _ next _ _ hcb h3 =>
      refine ⟨next, hcb, ?_⟩
      have hcell : ((h.setVal a w).setNext a next).free b a = some ⟨w, next⟩ := by
        rw [Heap.free, Function.update_of_ne hab, Heap.setNext, Function.update_self, Heap.setVal,
          Function.update_self, hca]
        rfl
      exact (((h1.update ha _).update ha _).update hb _).append
        (.cons hcell (((h3.update ha' _).update ha' _).update hb' _))

end

end Seg

end OsSim.LinkedList
