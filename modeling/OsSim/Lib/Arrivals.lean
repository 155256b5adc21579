import Mathlib.Data.List.Induction
import Mathlib.Data.List.MinMax
import Mathlib.Data.List.Nodup
import Mathlib.Logic.Function.Basic

/-!
# Who has been in longest

Elements enter and leave. `since hist x` is the time at which the present stay of
`x` began, where the time is the number of events that have happened before.
A list in which the newest element comes first is put together from the
history: what enters is put in front, and what leaves is erased.

Results:
* `NewestFirst.enter`, `NewestFirst.leave`, `NewestFirst.idle`: the three steps.
* `NewestFirst.oldest`: the last element of the list has been in longest.
* `NewestFirst.leave_reverse`, `NewestFirst.firstBy`: the list the other way round, from
  which the first one of the smallest key is taken.
-/

namespace OsSim.Arrivals

universe u v

inductive Event (τ : Type u)
  | enter (x : τ)
  | leave (x : τ)
  | idle

variable {τ : Type u} [DecidableEq τ]

/-- What an event at time `t` does. -/
def Event.apply (f : τ → Option ℕ) (t : ℕ) : Event τ → τ → Option ℕ
  | .enter x => Function.update f x (some t)
  | .leave x => Function.update f x none
  | .idle => f

/-- When the present stay of an element began, if it is in. -/
def since (hist : List (Event τ)) : τ → Option ℕ :=
  hist.zipIdx.foldl (fun f e => e.1.apply f e.2) fun _ => none

/-- `x` is in, and everything else that is in entered later. -/
def Oldest (hist : List (Event τ)) (x : τ) : Prop :=
  ∃ t, since hist x = some t ∧ ∀ y t', since hist y = some t' → y ≠ x → t < t'

/-- What `argmin` finds in a list that is sorted by `R`. -/
theorem argmin_first {κ : Type v} [LinearOrder κ] {key : τ → κ} {R : τ → τ → Prop} {l : List τ}
    {x : τ} (hl : l.Pairwise R) (hx : l.argmin key = some x) :
    x ∈ l ∧ ∀ y ∈ l, y ≠ x → key x < key y ∨ (key x = key y ∧ R x y) := by
  obtain ⟨hmem, hle, hidx⟩ := List.argmin_eq_some_iff.mp hx
  refine ⟨hmem, fun y hy hne => ?_⟩
  obtain hlt | heq := (hle y hy).lt_or_eq
  · exact .inl hlt
  · refine .inr ⟨heq, ?_⟩
    have hlt : l.idxOf x < l.idxOf y :=
      lt_of_le_of_ne (hidx y hy heq.ge) fun h => hne ((List.idxOf_inj hmem).mp h).symm
    have hR := List.pairwise_iff_getElem.mp hl _ _ (List.idxOf_lt_length_of_mem hmem)
      (List.idxOf_lt_length_of_mem hy) hlt
    rwa [List.getElem_idxOf, List.getElem_idxOf] at hR

/-- `x` is in, and everything else that is in has a larger key, or the same key and entered
later. -/
def FirstBy {κ : Type v} [LT κ] (key : τ → κ) (hist : List (Event τ)) (x : τ) : Prop :=
  ∃ t, since hist x = some t ∧ ∀ y t', since hist y = some t' → y ≠ x →
    key x < key y ∨ (key x = key y ∧ t < t')

theorem since_append (hist : List (Event τ)) (e : Event τ) :
    since (hist ++ [e]) = e.apply (since hist) hist.length := by
  rw [since, List.zipIdx_append, List.foldl_append, Nat.zero_add]
  rfl

theorem since_lt {hist : List (Event τ)} {x : τ} {t : ℕ} (h : since hist x = some t) :
    t < hist.length := by
  induction hist using List.reverseRecOn generalizing t with
  | nil => cases h
  | append_singleton hist e ih =>
    rw [List.length_append, List.length_singleton]
    rw [since_append] at h
    cases e with
    | enter y =>
      rw [Event.apply, Function.update_apply] at h
      split_ifs at h
      · cases h
        omega
      · have := ih h
        omega
    | leave y =>
      rw [Event.apply, Function.update_apply] at h
      split_ifs at h
      have := ih h
      omega
    | idle =>
      have := ih h
      omega

/-- The list holds the elements that are in, and each entered after those behind it. -/
structure NewestFirst (hist : List (Event τ)) (l : List τ) : Prop where
  mem_iff : ∀ x, x ∈ l ↔ ∃ t, since hist x = some t
  sorted : l.Pairwise fun x y => ∀ t t', since hist x = some t → since hist y = some t' → t' < t

namespace NewestFirst

variable {hist : List (Event τ)} {l : List τ}

theorem nil : NewestFirst ([] : List (Event τ)) [] := ⟨fun x => by simp [since], .nil⟩

theorem nodup (h : NewestFirst hist l) : l.Nodup := by
  refine h.sorted.imp_of_mem fun {x y} hx _ hlt heq => ?_
  subst heq
  obtain ⟨t, ht⟩ := (h.mem_iff x).mp hx
  exact absurd (hlt t t ht ht) (Nat.lt_irrefl t)

/-- An element that was not in enters. -/
theorem enter (h : NewestFirst hist l) {x : τ} (hx : x ∉ l) :
    NewestFirst (hist ++ [.enter x]) (x :: l) := by
  have hne : ∀ y ∈ l, since (hist ++ [.enter x]) y = since hist y := by
    intro y hy
    rw [since_append]
    refine Function.update_of_ne ?_ ..
    rintro rfl
    exact hx hy
  have hself : since (hist ++ [.enter x]) x = some hist.length := by
    rw [since_append]
    exact Function.update_self ..
  constructor
  · intro y
    rw [List.mem_cons]
    by_cases heq : y = x
    · subst heq
      simp [hself]
    · rw [since_append, Event.apply, Function.update_of_ne heq, ← h.mem_iff]
      simp [heq]
  · refine List.pairwise_cons.mpr ⟨fun y hy t t' ht ht' => ?_, ?_⟩
    · rw [hself] at ht
      rw [hne y hy] at ht'
      cases ht
      exact since_lt ht'
    · refine h.sorted.imp_of_mem fun {y z} hy hz hlt t t' ht ht' => ?_
      rw [hne y hy] at ht
      rw [hne z hz] at ht'
      exact hlt t t' ht ht'

/-- An element leaves, if it was in. -/
theorem leave (h : NewestFirst hist l) (x : τ) :
    NewestFirst (hist ++ [.leave x]) (l.erase x) := by
  have hne : ∀ y, y ≠ x → since (hist ++ [.leave x]) y = since hist y := by
    intro y hy
    rw [since_append]
    exact Function.update_of_ne hy ..
  constructor
  · intro y
    rw [h.nodup.mem_erase_iff]
    by_cases heq : y = x
    · subst heq
      simp [since_append, Event.apply]
    · rw [hne y heq, ← h.mem_iff]
      simp [heq]
  · refine (h.sorted.sublist List.erase_sublist).imp_of_mem fun {y z} hy hz hlt t t' ht ht' => ?_
    rw [h.nodup.mem_erase_iff] at hy hz
    rw [hne y hy.1] at ht
    rw [hne z hz.1] at ht'
    exact hlt t t' ht ht'

theorem idle (h : NewestFirst hist l) : NewestFirst (hist ++ [.idle]) l := by
  have heq : since (hist ++ [.idle]) = since hist := since_append hist .idle
  exact ⟨fun x => heq ▸ h.mem_iff x, heq ▸ h.sorted⟩

/-- The last element has been in longest. -/
theorem oldest {x : τ} (h : NewestFirst hist (l ++ [x])) : Oldest hist x := by
  obtain ⟨t, ht⟩ := (h.mem_iff x).mp (by simp)
  refine ⟨t, ht, fun y t' ht' hne => ?_⟩
  have hy : y ∈ l := by
    have hmem := (h.mem_iff y).mpr ⟨t', ht'⟩
    simpa [hne] using hmem
  exact (List.pairwise_append.mp h.sorted).2.2 y hy x (by simp) t' t ht' ht

/-! ## Oldest first -/

theorem leave_reverse (h : NewestFirst hist l.reverse) (x : τ) :
    NewestFirst (hist ++ [.leave x]) (l.erase x).reverse := by
  have hl : l.Nodup := List.nodup_reverse.mp h.nodup
  have heq : l.reverse.erase x = (l.erase x).reverse := by
    rw [h.nodup.erase_eq_filter, hl.erase_eq_filter, List.filter_reverse]
  exact heq ▸ h.leave x

/-- Of the elements with the smallest key, the first one of the list has been in longest. -/
theorem firstBy {κ : Type v} [LinearOrder κ] {key : τ → κ} {x : τ}
    (h : NewestFirst hist l.reverse) (hx : l.argmin key = some x) : FirstBy key hist x := by
  obtain ⟨hmem, hfirst⟩ := argmin_first (List.pairwise_reverse.mp h.sorted) hx
  obtain ⟨t, ht⟩ := (h.mem_iff x).mp (List.mem_reverse.mpr hmem)
  refine ⟨t, ht, fun y t' ht' hne => ?_⟩
  have hy : y ∈ l := List.mem_reverse.mp ((h.mem_iff y).mpr ⟨t', ht'⟩)
  obtain hlt | ⟨heq, hR⟩ := hfirst y hy hne
  · exact .inl hlt
  · exact .inr ⟨heq, hR t' t ht' ht⟩

end NewestFirst

end OsSim.Arrivals
