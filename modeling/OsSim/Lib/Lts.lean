import Mathlib.Algebra.GroupWithZero.Nat
import Mathlib.Logic.Function.Basic
import Mathlib.Data.List.Basic
import Mathlib.Data.List.Count

/-!
# Labelled transition systems

A system is given by its initial states and its labelled steps. A run is a
finite sequence of steps from an initial state, recorded by its labels in the
order in which they happened.

Results:
* `Path.invariant`, `Run.invariant`, `Run.history`: a property of states (or of
  the labels so far and the state) that holds initially and is kept by every
  step holds along every path and every run.
* `exists_path_of_rank`, `Path.countP_le`: measures that steps lower.
* `guard`, `Run.of_guard`, `Run.guard_mono`, `Run.guard_of_invariant`: the runs all
  of whose steps meet a condition.
* `ofFn`, `exists_run_of_execAll`: systems in which a label determines the next
  state, and their runs by execution.
* `Projection.run`: a map of states and labels that sends steps to steps or to
  stuttering sends runs to runs; `Path.project` is the same for paths.
-/

namespace OsSim

universe u v

/-- Initial states and labelled steps. -/
structure Lts (σ : Type u) (α : Type v) where
  init : σ → Prop
  step : σ → α → σ → Prop

namespace Lts

variable {σ : Type u} {α : Type v}

/-- `L.Path s tr s'`: the labels `tr`, in this order, lead from `s` to `s'`. -/
inductive Path (L : Lts σ α) (s : σ) : List α → σ → Prop
  | nil : Path L s [] s
  | snoc {tr : List α} {s' s'' : σ} {a : α} :
      Path L s tr s' → L.step s' a s'' → Path L s (tr ++ [a]) s''

/-- `L.Run tr s`: the labels `tr` lead from an initial state to `s`. -/
def Run (L : Lts σ α) (tr : List α) (s : σ) : Prop := ∃ s0, L.init s0 ∧ L.Path s0 tr s

variable {L : Lts σ α}

theorem Path.single {s s' : σ} {a : α} (h : L.step s a s') : L.Path s [a] s' :=
  .snoc .nil h

theorem Path.trans {s s' s'' : σ} {tr tr' : List α} (h : L.Path s tr s')
    (h' : L.Path s' tr' s'') : L.Path s (tr ++ tr') s'' := by
  induction h' with
  | nil => rwa [List.append_nil]
  | snoc _ hst ih =>
    rw [← List.append_assoc]
    exact .snoc ih hst

theorem Path.cons {s s' s'' : σ} {a : α} {tr : List α} (h : L.step s a s')
    (h' : L.Path s' tr s'') : L.Path s (a :: tr) s'' :=
  (Path.single h).trans h'

/-- What every step keeps, a path keeps. -/
theorem Path.invariant {I : σ → Prop} (hstep : ∀ s a s', I s → L.step s a s' → I s')
    {s s' : σ} {tr : List α} (h : L.Path s tr s') (h0 : I s) : I s' := by
  induction h with
  | nil => exact h0
  | snoc _ hst ih => exact hstep _ _ _ ih hst

/-- What every step whose label satisfies `P` keeps, a path of such labels keeps. -/
theorem Path.invariant_of_forall {I : σ → Prop} {P : α → Prop}
    (hstep : ∀ s a s', P a → I s → L.step s a s' → I s') {s s' : σ} {tr : List α}
    (h : L.Path s tr s') (hP : ∀ a ∈ tr, P a) (h0 : I s) : I s' := by
  induction h with
  | nil => exact h0
  | snoc _ hst ih =>
    exact hstep _ _ _ (hP _ (by simp)) (ih fun a ha => hP a (by simp [ha])) hst

/-- Where some step lowers a measure as long as the goal has not been reached, a path leads to the
goal. -/
theorem exists_path_of_rank {I G : σ → Prop} (rank : σ → ℕ)
    (hstep : ∀ s, I s → ¬G s → ∃ a s', L.step s a s' ∧ I s' ∧ rank s' < rank s) {s : σ}
    (h : I s) : ∃ tr s', L.Path s tr s' ∧ G s' := by
  induction hr : rank s using Nat.strongRecOn generalizing s with
  | _ r ih =>
    by_cases hg : G s
    · exact ⟨[], s, .nil, hg⟩
    · obtain ⟨a, s1, hst, h1, hlt⟩ := hstep s h hg
      obtain ⟨tr, s', hp, hg'⟩ := ih _ (hr ▸ hlt) h1 rfl
      exact ⟨a :: tr, s', .cons hst hp, hg'⟩

/-- Labels of one kind that all lower a measure, and the others leave it as it is: a path has at
most as many as the measure says. -/
theorem Path.countP_le {I : σ → Prop} (P : α → Bool) (rank : σ → ℕ)
    (hstep : ∀ s a s', I s → L.step s a s' →
      I s' ∧ if P a then rank s' < rank s else rank s' ≤ rank s)
    {s s' : σ} {tr : List α} (h : L.Path s tr s') (h0 : I s) :
    I s' ∧ tr.countP P + rank s' ≤ rank s := by
  induction h with
  | nil => exact ⟨h0, by simp⟩
  | snoc _ hst ih =>
    obtain ⟨hI, hle⟩ := ih
    obtain ⟨hI', hlt⟩ := hstep _ _ _ hI hst
    refine ⟨hI', ?_⟩
    rw [List.countP_append, List.countP_singleton]
    split at hlt
    all_goals simp only [*, if_true, if_false, reduceCtorEq]; omega

theorem Run.init {s : σ} (h : L.init s) : L.Run [] s := ⟨s, h, .nil⟩

theorem Run.step {tr : List α} {s s' : σ} {a : α} (h : L.Run tr s) (hst : L.step s a s') :
    L.Run (tr ++ [a]) s' :=
  let ⟨s0, h0, hp⟩ := h
  ⟨s0, h0, hp.snoc hst⟩

/-- The last step of a run. -/
theorem Run.of_snoc {tr : List α} {s' : σ} {a : α} (h : L.Run (tr ++ [a]) s') :
    ∃ s, L.Run tr s ∧ L.step s a s' := by
  obtain ⟨s0, h0, hp⟩ := h
  generalize htr : tr ++ [a] = tr' at hp
  cases hp with
  | nil => simp at htr
  | snoc hp hst =>
    obtain ⟨rfl, ha⟩ := List.append_inj' htr rfl
    obtain rfl := List.singleton_inj.mp ha
    exact ⟨_, ⟨s0, h0, hp⟩, hst⟩

theorem Run.path {tr tr' : List α} {s s' : σ} (h : L.Run tr s) (hp : L.Path s tr' s') :
    L.Run (tr ++ tr') s' :=
  let ⟨s0, h0, hp0⟩ := h
  ⟨s0, h0, hp0.trans hp⟩

/-- A property of the labels so far and the state, kept by every step, holds along a run. -/
theorem Run.history {I : List α → σ → Prop} (h0 : ∀ s, L.init s → I [] s)
    (hstep : ∀ tr s a s', I tr s → L.step s a s' → I (tr ++ [a]) s') {tr : List α} {s : σ}
    (h : L.Run tr s) : I tr s := by
  obtain ⟨s0, hs0, hp⟩ := h
  induction hp with
  | nil => exact h0 _ hs0
  | snoc _ hst ih => exact hstep _ _ _ _ ih hst

/-- What holds initially and is kept by every step holds of every reachable state. -/
theorem Run.invariant {I : σ → Prop} (h0 : ∀ s, L.init s → I s)
    (hstep : ∀ s a s', I s → L.step s a s' → I s') {tr : List α} {s : σ} (h : L.Run tr s) :
    I s :=
  h.history (I := fun _ s => I s) h0 fun _ s a s' hI hst => hstep s a s' hI hst

/-- The steps of `L` that meet `ok`. -/
def guard (L : Lts σ α) (ok : σ → α → σ → Prop) : Lts σ α where
  init := L.init
  step s a s' := L.step s a s' ∧ ok s a s'

theorem Run.of_guard {ok : σ → α → σ → Prop} {tr : List α} {s : σ} (h : (L.guard ok).Run tr s) :
    L.Run tr s :=
  Run.history (L := L.guard ok) (I := fun tr s => L.Run tr s) (fun _ h0 => ⟨_, h0, .nil⟩)
    (fun _ _ _ _ ih hst => ih.step hst.1) h

theorem Run.guard_mono {ok ok' : σ → α → σ → Prop} (hok : ∀ s a s', ok s a s' → ok' s a s')
    {tr : List α} {s : σ} (h : (L.guard ok).Run tr s) : (L.guard ok').Run tr s :=
  Run.history (L := L.guard ok) (I := fun tr s => (L.guard ok').Run tr s)
    (fun _ h0 => ⟨_, h0, .nil⟩)
    (fun _ _ _ _ ih hst => Run.step (L := L.guard ok') ih ⟨hst.1, hok _ _ _ hst.2⟩) h

/-- Two conditions one after the other. -/
theorem Run.guard_guard {ok ok' : σ → α → σ → Prop} {tr : List α} {s : σ} :
    ((L.guard ok).guard ok').Run tr s ↔
      (L.guard fun s a s' => ok s a s' ∧ ok' s a s').Run tr s := by
  constructor
  · intro h
    refine Run.history (L := (L.guard ok).guard ok')
      (I := fun tr s => (L.guard fun s a s' => ok s a s' ∧ ok' s a s').Run tr s)
      (fun _ h0 => ⟨_, h0, .nil⟩) (fun _ _ _ _ ih hst => ?_) h
    exact Run.step (L := L.guard fun s a s' => ok s a s' ∧ ok' s a s') ih
      ⟨hst.1.1, hst.1.2, hst.2⟩
  · intro h
    refine Run.history (L := L.guard fun s a s' => ok s a s' ∧ ok' s a s')
      (I := fun tr s => ((L.guard ok).guard ok').Run tr s)
      (fun _ h0 => ⟨_, h0, .nil⟩) (fun _ _ _ _ ih hst => ?_) h
    exact Run.step (L := (L.guard ok).guard ok') ih ⟨⟨hst.1, hst.2.1⟩, hst.2.2⟩

/-- The runs of `L` are runs in which every step starts in a state that satisfies an invariant. -/
theorem Run.guard_of_invariant {I : σ → Prop} (h0 : ∀ s, L.init s → I s)
    (hstep : ∀ s a s', I s → L.step s a s' → I s') {tr : List α} {s : σ} (h : L.Run tr s) :
    (L.guard fun s _ _ => I s).Run tr s := by
  refine (h.history (I := fun tr s => (L.guard fun s _ _ => I s).Run tr s ∧ I s) ?_ ?_).1
  · intro s hs
    exact ⟨.init hs, h0 s hs⟩
  · rintro tr s a s' ⟨hrun, hI⟩ hst
    exact ⟨Run.step (L := L.guard fun s _ _ => I s) hrun ⟨hst, hI⟩, hstep s a s' hI hst⟩

/-! ## Systems given by a function -/

/-- The system that starts in `s0` and in which a label leads to at most one state. -/
def ofFn (s0 : σ) (f : σ → α → Option σ) : Lts σ α where
  init s := s = s0
  step s a s' := f s a = some s'

/-- Executing labels one after the other. -/
def execAll (f : σ → α → Option σ) : σ → List α → Option σ
  | s, [] => some s
  | s, a :: tr => (f s a).bind fun s' => execAll f s' tr

theorem path_of_execAll {s0 s s' : σ} {f : σ → α → Option σ} {tr : List α}
    (h : execAll f s tr = some s') : (ofFn s0 f).Path s tr s' := by
  induction tr generalizing s with
  | nil =>
    cases h
    exact .nil
  | cons a tr ih =>
    obtain ⟨s1, hs1, h1⟩ := Option.bind_eq_some_iff.mp h
    exact .cons hs1 (ih h1)

/-- Labels that can be executed are a run; what has been tested of the last state holds there. -/
theorem exists_run_of_execAll (s0 : σ) (f : σ → α → Option σ) (tr : List α) (test : σ → Bool)
    (h : (execAll f s0 tr).any test = true) : ∃ s, (ofFn s0 f).Run tr s ∧ test s = true := by
  obtain ⟨s, hs, ht⟩ := (Option.any_eq_true _ _).mp h
  exact ⟨s, ⟨s0, rfl, path_of_execAll hs⟩, ht⟩

/-- The same for labels each of which meets a condition before it is executed. -/
theorem exists_guarded_run_of_execAll (s0 : σ) (f : σ → α → Option σ) (ok : σ → α → Prop)
    [∀ s a, Decidable (ok s a)] (tr : List α) (test : σ → Bool)
    (h : (execAll (fun s a => if ok s a then f s a else none) s0 tr).any test = true) :
    ∃ s, ((ofFn s0 f).guard fun s a _ => ok s a).Run tr s ∧ test s = true := by
  obtain ⟨s, hrun, ht⟩ := exists_run_of_execAll s0 _ tr test h
  refine ⟨s, ?_, ht⟩
  refine hrun.history (I := fun tr s => ((ofFn s0 f).guard fun s a _ => ok s a).Run tr s) ?_ ?_
  · rintro s rfl
    exact .init rfl
  · intro tr s a s' ih hst
    have hst' : (if ok s a then f s a else none) = some s' := hst
    split at hst'
    · rename_i hok
      exact Run.step (L := (ofFn s0 f).guard fun s a _ => ok s a) ih ⟨hst', hok⟩
    · cases hst'

/-- The same for a condition that also looks at the next state. -/
theorem exists_guarded_run_of_filter (s0 : σ) (f : σ → α → Option σ) (ok : σ → α → σ → Prop)
    [∀ s a s', Decidable (ok s a s')] (tr : List α) (test : σ → Bool)
    (h : (execAll (fun s a => (f s a).filter fun s' => decide (ok s a s')) s0 tr).any test = true) :
    ∃ s, ((ofFn s0 f).guard ok).Run tr s ∧ test s = true := by
  obtain ⟨s, hrun, ht⟩ := exists_run_of_execAll s0 _ tr test h
  refine ⟨s, ?_, ht⟩
  refine hrun.history (I := fun tr s => ((ofFn s0 f).guard ok).Run tr s) ?_ ?_
  · rintro s rfl
    exact .init rfl
  · intro tr s a s' ih hst
    obtain ⟨hst', hok⟩ := Option.filter_eq_some_iff.mp hst
    exact Run.step (L := (ofFn s0 f).guard ok) ih ⟨hst', of_decide_eq_true hok⟩

/-! ## Projections -/

universe u' v'

variable {τ : Type u'} {β : Type v'}

/-- A map of states and labels under which every step of `L` becomes a step of `M`, or
leaves the image of the state as it is. -/
structure Projection (L : Lts σ α) (M : Lts τ β) where
  state : σ → τ
  label : α → Option β
  init : ∀ s, L.init s → M.init (state s)
  step : ∀ s a s', L.step s a s' →
    (∃ b, label a = some b ∧ M.step (state s) b (state s')) ∨
      (label a = none ∧ state s' = state s)

theorem Projection.run {M : Lts τ β} (P : Projection L M) {tr : List α} {s : σ}
    (h : L.Run tr s) : M.Run (tr.filterMap P.label) (P.state s) := by
  refine h.history (I := fun tr s => M.Run (tr.filterMap P.label) (P.state s))
    (fun s hs => .init (P.init s hs)) fun tr s a s' ih hst => ?_
  · rw [List.filterMap_append]
    obtain ⟨b, hb, hM⟩ | ⟨hb, heq⟩ := P.step _ _ _ hst
    · rw [List.filterMap_cons_some hb, List.filterMap_nil]
      exact .step ih hM
    · rw [List.filterMap_cons_none hb, List.filterMap_nil, List.append_nil, heq]
      exact ih

/-- The same for a path from a state that satisfies an invariant. -/
theorem Path.project {M : Lts τ β} {I : σ → Prop} (f : σ → τ) (g : α → Option β)
    (hstep : ∀ s a s', I s → L.step s a s' → I s' ∧
      ((∃ b, g a = some b ∧ M.step (f s) b (f s')) ∨ (g a = none ∧ f s' = f s)))
    {tr : List α} {s s' : σ} (h : L.Path s tr s') (h0 : I s) :
    I s' ∧ M.Path (f s) (tr.filterMap g) (f s') := by
  induction h with
  | nil => exact ⟨h0, .nil⟩
  | snoc _ hst ih =>
    obtain ⟨hI, hpath⟩ := ih
    obtain ⟨hI', hM⟩ := hstep _ _ _ hI hst
    refine ⟨hI', ?_⟩
    rw [List.filterMap_append]
    obtain ⟨b, hb, hM⟩ | ⟨hb, heq⟩ := hM
    · rw [List.filterMap_cons_some hb, List.filterMap_nil]
      exact hpath.snoc hM
    · rw [List.filterMap_cons_none hb, List.filterMap_nil, List.append_nil, heq]
      exact hpath

end Lts

end OsSim
