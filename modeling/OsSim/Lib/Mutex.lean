import OsSim.Lib.Lts
import Mathlib.Tactic.SplitIfs

/-!
# Calls that take a lock

Threads make calls one after the other. What matters of a call is when it takes
the lock, when it releases it, and when it touches the data that the lock is for.
A release makes the lock free whoever holds it, as `pthread_mutex_unlock` does
with a default mutex.

Results:
* `Disciplined`: a call that takes the lock first, releases it last, and does
  neither in between.
* `safe_of_run`: when all calls are disciplined, at most one thread is inside a
  call, what is touched is touched by the thread that holds the lock, and this
  thread can go on until it has released it.
-/

namespace OsSim.Mutex

/-- What a call does with the lock and its data. -/
inductive Op where
  | lock
  | unlock
  | touch
  deriving DecidableEq, Repr

/-- The rest of a call that holds the lock: the release is the last thing it does. -/
def Closing : List Op → Prop
  | .touch :: ops => Closing ops
  | .unlock :: ops => ops = []
  | _ => False

/-- The call takes the lock first, and releases it once, at the end. -/
def Disciplined : List Op → Prop
  | .lock :: ops => Closing ops
  | _ => False

variable {τ : Type*} [DecidableEq τ]

/-- The thread that holds the lock, and what is left of the call of each thread. -/
structure State (τ : Type*) where
  holder : Option τ
  todo : τ → List Op

/-- A thread begins a call, or executes the next operation of its call. -/
inductive Event (τ : Type*) where
  | call (t : τ) (ops : List Op)
  | exec (t : τ)

/-- The steps of threads whose calls satisfy `P`. -/
inductive Step (P : List Op → Prop) : State τ → Event τ → State τ → Prop
  | call {s : State τ} {t : τ} {ops : List Op} : s.todo t = [] → P ops →
      Step P s (.call t ops) ⟨s.holder, Function.update s.todo t ops⟩
  | lock {s : State τ} {t : τ} {ops : List Op} : s.todo t = .lock :: ops → s.holder = none →
      Step P s (.exec t) ⟨some t, Function.update s.todo t ops⟩
  | unlock {s : State τ} {t : τ} {ops : List Op} : s.todo t = .unlock :: ops →
      Step P s (.exec t) ⟨none, Function.update s.todo t ops⟩
  | touch {s : State τ} {t : τ} {ops : List Op} : s.todo t = .touch :: ops →
      Step P s (.exec t) ⟨s.holder, Function.update s.todo t ops⟩

/-- Threads that are in no call at first, and a free lock. -/
def lts (P : List Op → Prop) : Lts (State τ) (Event τ) where
  init s := s.holder = none ∧ ∀ t, s.todo t = []
  step := Step P

/-- The thread is in a call, and not at a `lock`. -/
def State.Inside (s : State τ) (t : τ) : Prop := s.todo t ≠ [] ∧ (s.todo t).head? ≠ some .lock

/-- At most one thread is inside, it holds the lock, and it can go on until it has released it. -/
structure Safe (P : List Op → Prop) (s : State τ) : Prop where
  exclusive : ∀ t t', s.Inside t → s.Inside t' → t = t'
  holds : ∀ t, s.Inside t → s.holder = some t
  releases : ∀ t, s.holder = some t → ∃ n s', (lts P).Path s (List.replicate n (.exec t)) s' ∧
    s'.holder = none ∧ s'.todo t = []

/-! ## The invariant -/

/-- The holder is in the rest of a call, the others are in no call or wait for the lock. -/
structure Inv (s : State τ) : Prop where
  holder : ∀ t, s.holder = some t → Closing (s.todo t)
  others : ∀ t, s.holder ≠ some t → s.todo t = [] ∨ Disciplined (s.todo t)

/-- What a thread may have left to do. -/
theorem Inv.todo {s : State τ} (h : Inv s) (t : τ) :
    (s.holder = some t ∧ Closing (s.todo t)) ∨
      s.holder ≠ some t ∧ (s.todo t = [] ∨ Disciplined (s.todo t)) := by
  by_cases ht : s.holder = some t
  · exact .inl ⟨ht, h.holder t ht⟩
  · exact .inr ⟨ht, h.others t ht⟩

/-- One thread goes on and the lock changes hands. -/
theorem Inv.update {s : State τ} (h : Inv s) {t : τ} {ops : List Op} {holder : Option τ}
    (hself : holder = some t → Closing ops)
    (hself' : holder ≠ some t → ops = [] ∨ Disciplined ops)
    (hother : ∀ t', t' ≠ t → (holder = some t' ↔ s.holder = some t')) :
    Inv ⟨holder, Function.update s.todo t ops⟩ := by
  constructor <;> intro t' ht' <;> by_cases e : t' = t
  · subst e
    simpa using hself ht'
  · simpa [Function.update_of_ne e] using h.holder t' ((hother t' e).mp ht')
  · subst e
    simpa using hself' ht'
  · simpa [Function.update_of_ne e] using h.others t' fun hs => ht' ((hother t' e).mpr hs)

theorem Inv.step {P : List Op → Prop} (hP : ∀ ops, P ops → Disciplined ops) {s s' : State τ}
    {a : Event τ} (h : Inv s) (hst : Step P s a s') : Inv s' := by
  cases hst with
  | @call t ops htodo hops =>
    have hne : s.holder ≠ some t := by
      intro ht
      have := h.holder t ht
      rw [htodo] at this
      exact this
    exact h.update (fun ht => absurd ht hne) (fun _ => .inr (hP ops hops)) fun _ _ => Iff.rfl
  | @lock t ops htodo hfree =>
    obtain ⟨ht, -⟩ | ⟨-, hd⟩ := h.todo t
    · rw [hfree] at ht
      cases ht
    · rw [htodo] at hd
      refine h.update (fun _ => hd.resolve_left (by simp)) (fun hne => absurd rfl hne) fun t' e => ?_
      simp [hfree, Ne.symm e]
  | @unlock t ops htodo =>
    obtain ⟨ht, hc⟩ | ⟨-, hd⟩ := h.todo t
    · rw [htodo] at hc
      refine h.update (by simp) (fun _ => .inl hc) fun t' e => ?_
      simp [ht, Ne.symm e]
    · rw [htodo] at hd
      simp [Disciplined] at hd
  | @touch t ops htodo =>
    obtain ⟨ht, hc⟩ | ⟨-, hd⟩ := h.todo t
    · rw [htodo] at hc
      exact h.update (fun _ => hc) (fun hne => absurd ht hne) fun _ _ => Iff.rfl
    · rw [htodo] at hd
      simp [Disciplined] at hd

/-- The holder touches what it still touches and releases the lock. -/
theorem exists_release {P : List Op → Prop} {t : τ} {ops : List Op} {s : State τ}
    (htodo : s.todo t = ops) (hc : Closing ops) :
    ∃ n s', (lts P).Path s (List.replicate n (.exec t)) s' ∧ s'.holder = none ∧ s'.todo t = [] := by
  induction ops generalizing s with
  | nil => exact absurd hc id
  | cons op ops ih =>
    cases op with
    | lock => exact absurd hc id
    | unlock =>
      exact ⟨1, _, .single (Step.unlock htodo), rfl, (Function.update_self ..).trans hc⟩
    | touch =>
      obtain ⟨n, s', hp, hs'⟩ := ih (s := ⟨s.holder, Function.update s.todo t ops⟩)
        (Function.update_self ..) hc
      exact ⟨n + 1, s', .cons (Step.touch htodo) hp, hs'⟩

theorem Inv.safe {s : State τ} (h : Inv s) (P : List Op → Prop) : Safe P s := by
  have hholds : ∀ t, s.Inside t → s.holder = some t := by
    rintro t ⟨hne, hlock⟩
    by_contra ht
    obtain hnil | hd := h.others t ht
    · exact hne hnil
    · -- a call that has not begun is at its `lock`
      cases hops : s.todo t with
      | nil => exact hne hops
      | cons op ops =>
        rw [hops] at hd hlock
        cases op with
        | lock => exact hlock rfl
        | unlock => exact hd
        | touch => exact hd
  refine ⟨fun t t' h1 h2 => ?_, hholds, fun t ht => exists_release rfl (h.holder t ht)⟩
  exact Option.some.inj ((hholds t h1).symm.trans (hholds t' h2))

/-- Threads whose calls are disciplined. -/
theorem safe_of_run {P : List Op → Prop} (hP : ∀ ops, P ops → Disciplined ops)
    {tr : List (Event τ)} {s : State τ} (h : (lts P).Run tr s) : Safe P s := by
  refine Inv.safe (h.invariant (fun s h0 => ?_) fun _ _ _ hi hst => hi.step hP hst) P
  obtain ⟨hfree, hnil⟩ := h0
  refine ⟨fun t ht => ?_, fun t _ => .inl (hnil t)⟩
  rw [hfree] at ht
  cases ht

end OsSim.Mutex
