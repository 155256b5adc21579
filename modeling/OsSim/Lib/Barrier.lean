import OsSim.Lib.Lts

/-!
# A slot barrier

Parties work in slots. A party that has finished its work of the current slot
arrives at the barrier and waits; the next slot begins when every party has
arrived or has left for good, and from then on each waiting party may resume at
its own time.

Results:
* `Counted`, `counted_of_run`: in every run the phase of a party says how often
  it has arrived and resumed, in terms of the number of the current slot.
* `resumed_eq_or`: a party that has not left has resumed from every slot begun
  so far but possibly the last one.
* `arrived_of_tick`: a slot begins only when every party has arrived for it or
  has left.
-/

namespace OsSim.Barrier

universe u

/-- Where a party stands. -/
inductive Phase
  /-- It does its work of the current slot. -/
  | working
  /-- It has finished its work of the current slot and waits for the next one. -/
  | arrived
  /-- The slot it waits for has begun, but it has not resumed yet. -/
  | released
  | left
  deriving DecidableEq

/-- The number of slots begun so far and the phase of each party. -/
structure State (ι : Type u) where
  time : ℕ
  phase : ι → Phase

inductive Event (ι : Type u)
  | arrive (i : ι)
  | resume (i : ι)
  | leave (i : ι)
  | tick
  deriving DecidableEq

variable {ι : Type u} [DecidableEq ι]

/-- The phase after a new slot has begun. -/
def Phase.release : Phase → Phase
  | .arrived => .released
  | φ => φ

inductive Step (s : State ι) : Event ι → State ι → Prop
  | arrive (i : ι) : s.phase i = .working →
      Step s (.arrive i) { s with phase := Function.update s.phase i .arrived }
  | resume (i : ι) : s.phase i = .released →
      Step s (.resume i) { s with phase := Function.update s.phase i .working }
  | leave (i : ι) : s.phase i = .working →
      Step s (.leave i) { s with phase := Function.update s.phase i .left }
  | tick : (∀ i, s.phase i = .arrived ∨ s.phase i = .left) →
      Step s .tick { time := s.time + 1, phase := fun i => (s.phase i).release }

/-- The barrier for the parties that satisfy `P`; the others have left already. -/
def lts (P : ι → Prop) [DecidablePred P] : Lts (State ι) (Event ι) where
  init s := s = { time := 0, phase := fun i => if P i then .working else .left }
  step := Step

/-- How often party `i` has arrived and resumed, according to its phase. -/
def Counted (tr : List (Event ι)) (s : State ι) (i : ι) : Prop :=
  match s.phase i with
  | .working => tr.count (.arrive i) = s.time ∧ tr.count (.resume i) = s.time
  | .arrived => tr.count (.arrive i) = s.time + 1 ∧ tr.count (.resume i) = s.time
  | .released => tr.count (.arrive i) = s.time ∧ tr.count (.resume i) + 1 = s.time
  | .left => tr.count (.arrive i) = tr.count (.resume i)

variable {tr : List (Event ι)} {s s' : State ι}

/-- A step that changes the phase of `j` alone has to be checked for `j` alone. -/
theorem Counted.update {e : Event ι} {j : ι} {φ : Phase} (h : ∀ i, Counted tr s i)
    (he : ∀ i, i ≠ j → e ≠ .arrive i ∧ e ≠ .resume i)
    (hj : Counted (tr ++ [e]) { s with phase := Function.update s.phase j φ } j) (i : ι) :
    Counted (tr ++ [e]) { s with phase := Function.update s.phase j φ } i := by
  by_cases hij : i = j
  · rw [hij]
    exact hj
  · have hi := h i
    obtain ⟨ha, hr⟩ := he i hij
    simp only [Counted, Function.update_of_ne hij, List.count_append, List.count_singleton] at hi ⊢
    simpa [ha, hr] using hi

theorem Counted.step {e : Event ι} (h : ∀ i, Counted tr s i) (hst : Step s e s') (i : ι) :
    Counted (tr ++ [e]) s' i := by
  cases hst with
  | arrive j hj =>
    apply Counted.update h
    · intro i hij
      simpa using Ne.symm hij
    · have hi := h j
      rw [Counted, hj] at hi
      simp only [Counted, Function.update_self, List.count_append, List.count_singleton]
      simpa using hi
  | resume j hj =>
    apply Counted.update h
    · intro i hij
      simpa using Ne.symm hij
    · have hi := h j
      rw [Counted, hj] at hi
      simp only [Counted, Function.update_self, List.count_append, List.count_singleton]
      simpa using hi
  | leave j hj =>
    apply Counted.update h
    · simp
    · have hi := h j
      rw [Counted, hj] at hi
      simp only [Counted, Function.update_self, List.count_append, List.count_singleton]
      simp [hi.1, hi.2]
  | tick hall =>
    have hi := h i
    simp only [Counted, List.count_append, List.count_singleton]
    -- every party that has not left is waiting, so it turns from arrived to released
    rcases hall i with hp | hp
    · rw [Counted, hp] at hi
      simp only [hp, Phase.release]
      simpa using hi
    · rw [Counted, hp] at hi
      simp only [hp, Phase.release]
      simpa using hi

variable {P : ι → Prop} [DecidablePred P]

/-- The counts of every party agree with its phase, in every run. -/
theorem counted_of_run (h : (lts P).Run tr s) (i : ι) : Counted tr s i := by
  revert i
  refine h.history (I := fun tr s => ∀ i, Counted tr s i) ?_ ?_
  · rintro s rfl i
    by_cases hi : P i
    · simp [Counted, hi]
    · simp [Counted, hi]
  · intro tr s e s' ih hst i
    exact Counted.step ih hst i

/-- A party that has not left has resumed from every slot begun so far, or from every one but
the last. -/
theorem resumed_eq_or (h : (lts P).Run tr s) {i : ι} (hi : s.phase i ≠ .left) :
    tr.count (.resume i) = s.time ∨ tr.count (.resume i) + 1 = s.time := by
  have hc := counted_of_run h i
  unfold Counted at hc
  split at hc
  · exact .inl hc.2
  · exact .inl hc.2
  · exact .inr hc.2
  · next hp => exact absurd hp hi

/-- When a slot begins, every party has arrived for it or has left. -/
theorem arrived_of_tick (h : (lts P).Run tr s) (hst : Step s .tick s') (i : ι) :
    s.phase i = .left ∨ s.phase i = .arrived ∧ tr.count (.arrive i) = s.time + 1 := by
  cases hst with
  | tick hall =>
    rcases hall i with hp | hp
    · refine .inr ⟨hp, ?_⟩
      have hc := counted_of_run h i
      rw [Counted, hp] at hc
      exact hc.1
    · exact .inl hp

end OsSim.Barrier
