import OsSim.Lib.Lts
import Mathlib.Data.List.Nodup

/-!
# Tokens that circulate between queues and holders

Every token has a home queue. A token enters once, at the end of its home queue;
a holder with empty hands may take the first token of a queue, and it gives the
token back to the end of its home queue or lets it leave for good.

Results:
* `Exclusive.step`: every step keeps it that a token inside is in its home queue
  once, or in the hands of one holder, and never both.
* `Exclusive.place`, `Exclusive.count_eq_one`: the two cases in full.
* `puts_eq`: the tokens taken from a queue, followed by its content, are the
  tokens put there, in this order.
-/

namespace OsSim.Circulation

universe u v w

/-- Whether a token has entered, and whether it has left again. -/
inductive Stage
  | outside
  | inside
  | gone
  deriving DecidableEq

structure State (τ : Type u) (ι : Type v) (κ : Type w) where
  queue : ι → List τ
  held : κ → Option τ
  stage : τ → Stage

inductive Event (τ : Type u) (κ : Type w)
  | enter (p : τ)
  | take (k : κ) (p : τ)
  | give (k : κ) (p : τ)
  | leave (k : κ) (p : τ)

variable {τ : Type u} {ι : Type v} {κ : Type w}

namespace State

/-- `p` is put at the end of the queue `i`. -/
def put [DecidableEq ι] (s : State τ ι κ) (i : ι) (p : τ) : State τ ι κ :=
  { s with queue := Function.update s.queue i (s.queue i ++ [p]) }

/-- `k` has `o` in its hands. -/
def setHeld [DecidableEq κ] (s : State τ ι κ) (k : κ) (o : Option τ) : State τ ι κ :=
  { s with held := Function.update s.held k o }

def setStage [DecidableEq τ] (s : State τ ι κ) (p : τ) (g : Stage) : State τ ι κ :=
  { s with stage := Function.update s.stage p g }

@[simp] theorem put_held [DecidableEq ι] (s : State τ ι κ) (i : ι) (p : τ) :
    (s.put i p).held = s.held := rfl

@[simp] theorem put_stage [DecidableEq ι] (s : State τ ι κ) (i : ι) (p : τ) :
    (s.put i p).stage = s.stage := rfl

end State

section

variable [DecidableEq τ] [DecidableEq ι] [DecidableEq κ]

inductive Step (home : τ → ι) (s : State τ ι κ) : Event τ κ → State τ ι κ → Prop
  | enter (p : τ) : s.stage p = .outside →
      Step home s (.enter p) ((s.put (home p) p).setStage p .inside)
  | take (k : κ) (i : ι) (p : τ) (rest : List τ) : s.held k = none → s.queue i = p :: rest →
      Step home s (.take k p)
        ({ s with queue := Function.update s.queue i rest }.setHeld k (some p))
  | give (k : κ) (p : τ) : s.held k = some p →
      Step home s (.give k p) ((s.put (home p) p).setHeld k none)
  | leave (k : κ) (p : τ) : s.held k = some p →
      Step home s (.leave k p) ((s.setHeld k none).setStage p .gone)

/-- All queues and hands are empty before the first token has entered. -/
def lts (κ : Type w) [DecidableEq κ] (home : τ → ι) : Lts (State τ ι κ) (Event τ κ) where
  init s := s = { queue := fun _ => [], held := fun _ => none, stage := fun _ => .outside }
  step := Step home

end

/-! ## Places -/

/-- A token that is inside is at one place. -/
structure Exclusive (home : τ → ι) (s : State τ ι κ) : Prop where
  nodup : ∀ i, (s.queue i).Nodup
  home_eq : ∀ i, ∀ p ∈ s.queue i, home p = i
  queued : ∀ i, ∀ p ∈ s.queue i, s.stage p = .inside
  held : ∀ k p, s.held k = some p → s.stage p = .inside
  inj : ∀ k k' p, s.held k = some p → s.held k' = some p → k = k'
  apart : ∀ k p, s.held k = some p → p ∉ s.queue (home p)
  somewhere : ∀ p, s.stage p = .inside → p ∈ s.queue (home p) ∨ ∃ k, s.held k = some p

variable {home : τ → ι} {s s' : State τ ι κ}

theorem exclusive_init : Exclusive home
    { queue := fun _ => [], held := fun _ => none, stage := fun _ => .outside :
      State τ ι κ } := by
  refine ⟨?_, ?_, ?_, ?_, ?_, ?_, ?_⟩
  all_goals simp

/-- A token that is inside is in its home queue, once, and nobody holds it; or one holder has it,
and it is in no queue. -/
theorem Exclusive.place [DecidableEq τ] (h : Exclusive home s) {p : τ} (hp : s.stage p = .inside) :
    ((s.queue (home p)).count p = 1 ∧ (∀ i ≠ home p, p ∉ s.queue i) ∧ ∀ k, s.held k ≠ some p) ∨
      (∀ i, p ∉ s.queue i) ∧ ∃! k, s.held k = some p := by
  rcases h.somewhere p hp with hq | ⟨k, hk⟩
  · refine .inl ⟨List.count_eq_one_of_mem (h.nodup _) hq, ?_, ?_⟩
    · intro i hi hpi
      exact hi (h.home_eq i p hpi).symm
    · intro k hk
      exact h.apart k p hk hq
  · refine .inr ⟨?_, k, hk, ?_⟩
    · intro i hi
      apply h.apart k p hk
      rwa [h.home_eq i p hi]
    · intro k' hk'
      exact h.inj k' k p hk' hk

/-- Hands that have been emptied. -/
theorem held_update_none [DecidableEq κ] {k k' : κ} {q : τ} :
    Function.update s.held k none k' = some q ↔ s.held k' = some q ∧ k' ≠ k := by
  by_cases hkk : k' = k
  · subst hkk
    simp
  · simp [hkk]

theorem Exclusive.put [DecidableEq ι] (h : Exclusive home s) {p : τ} (hp : p ∉ s.queue (home p))
    (i : ι) :
    ((s.put (home p) p).queue i).Nodup ∧ (∀ q, q ∈ (s.put (home p) p).queue i ↔
      q ∈ s.queue i ∨ q = p ∧ home p = i) := by
  unfold State.put
  by_cases hi : i = home p
  · subst hi
    simp only [Function.update_self]
    refine ⟨?_, by simp⟩
    rw [List.nodup_append]
    refine ⟨h.nodup _, List.nodup_singleton p, ?_⟩
    intro a ha b hb
    rw [List.mem_singleton] at hb
    rw [hb]
    rintro rfl
    exact hp ha
  · simp only [Function.update_of_ne hi]
    refine ⟨h.nodup i, ?_⟩
    intro q
    simp [Ne.symm hi]

variable [DecidableEq τ] [DecidableEq ι] [DecidableEq κ]

omit [DecidableEq κ] in
theorem Exclusive.enter (h : Exclusive home s) {p : τ} (hp : s.stage p = .outside) :
    Exclusive home ((s.put (home p) p).setStage p .inside) := by
  have hout : ∀ i, p ∉ s.queue i := by
    intro i hi
    rw [h.queued i p hi] at hp
    cases hp
  have hnh : ∀ k, s.held k ≠ some p := by
    intro k hk
    rw [h.held k p hk] at hp
    cases hp
  have hput := h.put (hout (home p))
  unfold State.setStage
  refine ⟨fun i => (hput i).1, ?_, ?_, ?_, h.inj, ?_, ?_⟩
  · intro i q hq
    rcases ((hput i).2 q).mp hq with hq | ⟨rfl, hi⟩
    · exact h.home_eq i q hq
    · exact hi
  · intro i q hq
    rcases ((hput i).2 q).mp hq with hq' | ⟨rfl, hi⟩
    · have hne : q ≠ p := fun heq => hout i (heq ▸ hq')
      simpa only [Function.update_of_ne hne, State.put_stage] using h.queued i q hq'
    · simp
  · intro k q hk
    have hne : q ≠ p := by
      rintro rfl
      exact hnh k hk
    simpa only [Function.update_of_ne hne, State.put_stage] using h.held k q hk
  · intro k q hk hq
    rcases ((hput (home q)).2 q).mp hq with hq | ⟨rfl, _⟩
    · exact h.apart k q hk hq
    · exact hnh k hk
  · intro q hq
    by_cases hne : q = p
    · subst hne
      exact .inl (((hput (home q)).2 q).mpr (.inr ⟨rfl, rfl⟩))
    · simp only [Function.update_of_ne hne] at hq
      rcases h.somewhere q hq with hq | hq
      · exact .inl (((hput (home q)).2 q).mpr (.inl hq))
      · exact .inr hq

theorem Exclusive.take (h : Exclusive home s) {k : κ} {i : ι} {p : τ} {rest : List τ}
    (hk : s.held k = none) (hi : s.queue i = p :: rest) : Exclusive home
      ({ s with queue := Function.update s.queue i rest }.setHeld k (some p)) := by
  have hpi : p ∈ s.queue i := by simp [hi]
  have hhome : home p = i := h.home_eq i p hpi
  have hnd : p ∉ rest ∧ rest.Nodup := by
    have := h.nodup i
    rwa [hi, List.nodup_cons] at this
  have hmem : ∀ j q, q ∈ Function.update s.queue i rest j ↔ q ∈ s.queue j ∧ q ≠ p := by
    intro j q
    by_cases hj : j = i
    · subst hj
      rw [Function.update_self, hi, List.mem_cons]
      refine ⟨fun hq => ⟨.inr hq, ?_⟩, fun hq => hq.1.resolve_left hq.2⟩
      rintro rfl
      exact hnd.1 hq
    · rw [Function.update_of_ne hj]
      refine ⟨fun hq => ⟨hq, ?_⟩, fun hq => hq.1⟩
      rintro rfl
      exact hj ((h.home_eq j q hq).symm.trans hhome)
  have hfree : ∀ k', s.held k' ≠ some p := by
    intro k' hk'
    apply h.apart k' p hk'
    rwa [hhome]
  unfold State.setHeld
  refine ⟨?_, ?_, ?_, ?_, ?_, ?_, ?_⟩
  · intro j
    by_cases hj : j = i
    · subst hj
      simpa only [Function.update_self] using hnd.2
    · simpa only [Function.update_of_ne hj] using h.nodup j
  · intro j q hq
    exact h.home_eq j q ((hmem j q).mp hq).1
  · intro j q hq
    exact h.queued j q ((hmem j q).mp hq).1
  · intro k' q hk'
    by_cases hkk : k' = k
    · subst hkk
      simp only [Function.update_self, Option.some.injEq] at hk'
      subst hk'
      exact h.queued i p hpi
    · simp only [Function.update_of_ne hkk] at hk'
      exact h.held k' q hk'
  · intro k1 k2 q h1 h2
    by_cases hk1 : k1 = k <;> by_cases hk2 : k2 = k
    · rw [hk1, hk2]
    · subst hk1
      simp only [Function.update_self, Function.update_of_ne hk2, Option.some.injEq] at h1 h2
      subst h1
      exact absurd h2 (hfree k2)
    · subst hk2
      simp only [Function.update_self, Function.update_of_ne hk1, Option.some.injEq] at h1 h2
      subst h2
      exact absurd h1 (hfree k1)
    · simp only [Function.update_of_ne hk1, Function.update_of_ne hk2] at h1 h2
      exact h.inj k1 k2 q h1 h2
  · intro k' q hk' hq
    obtain ⟨hq, hne⟩ := (hmem (home q) q).mp hq
    by_cases hkk : k' = k
    · subst hkk
      simp only [Function.update_self, Option.some.injEq] at hk'
      exact hne hk'.symm
    · simp only [Function.update_of_ne hkk] at hk'
      exact h.apart k' q hk' hq
  · intro q hq
    by_cases hne : q = p
    · subst hne
      exact .inr ⟨k, by simp⟩
    · rcases h.somewhere q hq with hq | ⟨k', hk'⟩
      · exact .inl ((hmem (home q) q).mpr ⟨hq, hne⟩)
      · refine .inr ⟨k', ?_⟩
        have hkk : k' ≠ k := by
          rintro rfl
          rw [hk] at hk'
          cases hk'
        simpa only [Function.update_of_ne hkk] using hk'

omit [DecidableEq τ] in
theorem Exclusive.give (h : Exclusive home s) {k : κ} {p : τ} (hk : s.held k = some p) :
    Exclusive home ((s.put (home p) p).setHeld k none) := by
  have hput := h.put (h.apart k p hk)
  unfold State.setHeld
  refine ⟨fun i => (hput i).1, ?_, ?_, ?_, ?_, ?_, ?_⟩
  · intro i q hq
    rcases ((hput i).2 q).mp hq with hq | ⟨rfl, hi⟩
    · exact h.home_eq i q hq
    · exact hi
  · intro i q hq
    rcases ((hput i).2 q).mp hq with hq | ⟨rfl, hi⟩
    · exact h.queued i q hq
    · exact h.held k q hk
  · intro k' q hk'
    exact h.held k' q (held_update_none.mp hk').1
  · intro k1 k2 q h1 h2
    exact h.inj k1 k2 q (held_update_none.mp h1).1 (held_update_none.mp h2).1
  · intro k' q hk' hq
    obtain ⟨hk', hne⟩ := held_update_none.mp hk'
    rcases ((hput (home q)).2 q).mp hq with hq | ⟨rfl, _⟩
    · exact h.apart k' q hk' hq
    · exact hne (h.inj k' k q hk' hk)
  · intro q hq
    rcases h.somewhere q hq with hq | ⟨k', hk'⟩
    · exact .inl (((hput (home q)).2 q).mpr (.inl hq))
    · by_cases hkk : k' = k
      · rw [hkk, hk, Option.some.injEq] at hk'
        subst hk'
        exact .inl (((hput (home p)).2 p).mpr (.inr ⟨rfl, rfl⟩))
      · exact .inr ⟨k', held_update_none.mpr ⟨hk', hkk⟩⟩

omit [DecidableEq ι] in
theorem Exclusive.leave (h : Exclusive home s) {k : κ} {p : τ} (hk : s.held k = some p) :
    Exclusive home ((s.setHeld k none).setStage p .gone) := by
  unfold State.setStage State.setHeld
  refine ⟨h.nodup, h.home_eq, ?_, ?_, ?_, ?_, ?_⟩
  · intro i q hq
    have hne : q ≠ p := by
      rintro rfl
      apply h.apart k q hk
      rwa [h.home_eq i q hq]
    simpa only [Function.update_of_ne hne] using h.queued i q hq
  · intro k' q hk'
    obtain ⟨hq, hkk⟩ := held_update_none.mp hk'
    have hne : q ≠ p := fun heq => hkk (h.inj k' k p (heq ▸ hq) hk)
    simpa only [Function.update_of_ne hne] using h.held k' q hq
  · intro k1 k2 q h1 h2
    exact h.inj k1 k2 q (held_update_none.mp h1).1 (held_update_none.mp h2).1
  · intro k' q hk'
    exact h.apart k' q (held_update_none.mp hk').1
  · intro q hq
    by_cases hne : q = p
    · subst hne
      simp at hq
    · simp only [Function.update_of_ne hne] at hq
      rcases h.somewhere q hq with hq | ⟨k', hk'⟩
      · exact .inl hq
      · refine .inr ⟨k', held_update_none.mpr ⟨hk', ?_⟩⟩
        rintro rfl
        rw [hk, Option.some.injEq] at hk'
        exact hne hk'.symm

theorem Exclusive.step (h : Exclusive home s) {e : Event τ κ} (hst : Step home s e s') :
    Exclusive home s' := by
  cases hst with
  | enter p hp => exact h.enter hp
  | take k i p rest hk hi => exact h.take hk hi
  | give k p hk => exact h.give hk
  | leave k p hk => exact h.leave hk

/-! ## Order -/

/-- The tokens put on queue `i`, in order. -/
def puts (home : τ → ι) (i : ι) (tr : List (Event τ κ)) : List τ :=
  tr.filterMap fun
    | .enter p => if home p = i then some p else none
    | .give _ p => if home p = i then some p else none
    | _ => none

/-- The tokens of queue `i` that have been taken, in order. -/
def takes (home : τ → ι) (i : ι) (tr : List (Event τ κ)) : List τ :=
  tr.filterMap fun
    | .take _ p => if home p = i then some p else none
    | _ => none

theorem puts_step {tr : List (Event τ κ)} {e : Event τ κ} (hx : Exclusive home s)
    (h : ∀ i, puts home i tr = takes home i tr ++ s.queue i) (hst : Step home s e s') (i : ι) :
    puts home i (tr ++ [e]) = takes home i (tr ++ [e]) ++ s'.queue i := by
  have hi := h i
  simp only [puts, takes] at hi
  simp only [puts, takes, List.filterMap_append, hi]
  cases hst with
  | enter p hp =>
    by_cases hh : home p = i
    · subst hh
      simp [State.setStage, State.put]
    · simp [State.setStage, State.put, hh, Function.update_of_ne (Ne.symm hh)]
  | take k j p rest hk hj =>
    have hpj : home p = j := hx.home_eq j p (by simp [hj])
    subst hpj
    by_cases hh : home p = i
    · subst hh
      simp [State.setHeld, hj]
    · simp [State.setHeld, hh, Function.update_of_ne (Ne.symm hh)]
  | give k p hk =>
    by_cases hh : home p = i
    · subst hh
      simp [State.setHeld, State.put]
    · simp [State.setHeld, State.put, hh, Function.update_of_ne (Ne.symm hh)]
  | leave k p hk => simp [State.setStage, State.setHeld]

/-- First in, first out: the tokens put on a queue are those taken from it, followed by those
that are there. -/
theorem puts_eq {tr : List (Event τ κ)} (h : (lts κ home).Run tr s) (i : ι) :
    puts home i tr = takes home i tr ++ s.queue i := by
  refine (h.history (I := fun tr s => Exclusive home s ∧
    ∀ i, puts home i tr = takes home i tr ++ s.queue i) ?_ ?_).2 i
  · rintro s rfl
    exact ⟨exclusive_init, fun _ => rfl⟩
  · rintro tr s e s' ⟨hx, ih⟩ hst
    exact ⟨hx.step hst, puts_step hx ih hst⟩

end OsSim.Circulation
