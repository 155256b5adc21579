import OsSim.Lib.Lts

/-!
# Slots in which work is done

A system whose time advances in slots, and which has a limited amount of work. If, from
some time on, every slot begins with work that is due, and work that is due cannot be
waiting any more when the slot ends, then no more slots can pass than there are pieces
of work, until all is done.

Results:
* `Slots.time_le`: the slots that have passed are counted by the work that has been done.
* `Slots.countP_le`, `Slots.done_of_run`: when all is done, for a measure that work lowers.
-/

namespace OsSim.Deadline

universe u v

/-- What there is to show of a system `L` with an invariant `I`. -/
structure Slots {σ : Type u} {α : Type v} (L : Lts σ α) (I : σ → Prop) where
  time : σ → ℕ
  tick : α → Bool
  work : α → Bool
  /-- Until then slots may pass without work. -/
  start : ℕ
  /-- There is work that will be done in this slot. -/
  Due : σ → Prop
  Done : σ → Prop
  time_init : ∀ s, L.init s → time s ≤ start
  time_step : ∀ s a s', L.step s a s' → time s' = if tick a then time s + 1 else time s
  done_step : ∀ s a s', I s → L.step s a s' → Done s → Done s'
  due_step : ∀ s a s', I s → L.step s a s' → Due s → tick a = false ∧ (work a = true ∨ Due s')
  due_tick : ∀ s a s', I s → L.step s a s' → tick a = true → start < time s' → Due s' ∨ Done s'

variable {σ : Type u} {α : Type v} {L : Lts σ α} {I : σ → Prop}

namespace Slots

variable (S : Slots L I)

/-- The current slot: work has been done in it, or is due. -/
def Slot (tr : List α) (s : σ) : Prop :=
  ∃ before ≤ tr.countP S.work, S.time s ≤ S.start + 1 + before ∧
    (before < tr.countP S.work ∨ S.Due s)

variable {S}

theorem Slot.step {tr : List α} {s s' : σ} {a : α} (h : S.Slot tr s) (hI : I s)
    (hst : L.step s a s') (hlate : S.start < S.time s) :
    S.Slot (tr ++ [a]) s' ∨ S.Done s' := by
  obtain ⟨before, hle, htime, hslot⟩ := h
  have hcount : (tr ++ [a]).countP S.work = tr.countP S.work + [a].countP S.work :=
    List.countP_append
  have ht := S.time_step s a s' hst
  by_cases htick : S.tick a = true
  · -- the slot ends: nothing is due any more, so work has been done
    rw [if_pos htick] at ht
    have hlt : before < tr.countP S.work := by
      refine hslot.resolve_right fun hdue => ?_
      have hno := (S.due_step s a s' hI hst hdue).1
      rw [htick] at hno
      cases hno
    refine (S.due_tick s a s' hI hst htick (by omega)).imp (fun hdue => ?_) id
    exact ⟨tr.countP S.work, by omega, by omega, .inr hdue⟩
  · rw [if_neg htick] at ht
    refine .inl ⟨before, by omega, by omega, ?_⟩
    rcases hslot with hlt | hdue
    · exact .inl (by omega)
    · rcases (S.due_step s a s' hI hst hdue).2 with hwork | hdue'
      · have hone : [a].countP S.work = 1 := by rw [List.countP_singleton, if_pos hwork]
        exact .inl (by omega)
      · exact .inr hdue'

/-- Until all is done, every slot from the beginning on has seen work. -/
theorem time_le (hI : ∀ tr s, L.Run tr s → I s) {tr : List α} {s : σ} (h : L.Run tr s) :
    S.Done s ∨ S.time s ≤ S.start + 1 + tr.countP S.work := by
  have hslot : S.Done s ∨ S.time s ≤ S.start ∨ S.Slot tr s := by
    refine (h.history (I := fun tr s => L.Run tr s ∧
      (S.Done s ∨ S.time s ≤ S.start ∨ S.Slot tr s)) ?_ ?_).2
    · intro s h0
      exact ⟨.init h0, .inr (.inl (S.time_init s h0))⟩
    · rintro tr s a s' ⟨hrun, hs⟩ hst
      refine ⟨hrun.step hst, ?_⟩
      have hinv := hI tr s hrun
      by_cases hearly : S.time s' ≤ S.start
      · exact .inr (.inl hearly)
      rcases hs with hdone | hs
      · exact .inl (S.done_step s a s' hinv hst hdone)
      by_cases hlate : S.start < S.time s
      · have hs := hs.resolve_left (by omega)
        exact (hs.step hinv hst hlate).symm.imp id .inr
      · -- the first slot in which work is due
        have ht := S.time_step s a s' hst
        have htick : S.tick a = true := by
          by_contra hno
          rw [if_neg hno] at ht
          omega
        rw [if_pos htick] at ht
        refine (S.due_tick s a s' hinv hst htick (by omega)).symm.imp id fun hdue => .inr ?_
        exact ⟨_, Nat.le_refl _, by omega, .inr hdue⟩
  rcases hslot with hdone | hearly | ⟨before, hle, htime, -⟩
  · exact .inl hdone
  · exact .inr (by omega)
  · exact .inr (by omega)

/-- There is no more work than the measure says. -/
theorem countP_le (hI : ∀ tr s, L.Run tr s → I s) (rank : σ → ℕ) {total : ℕ}
    (hrank : ∀ s a s', I s → L.step s a s' →
      if S.work a then rank s' < rank s else rank s' ≤ rank s)
    (htotal : ∀ s, L.init s → rank s ≤ total) {tr : List α} {s : σ} (h : L.Run tr s) :
    tr.countP S.work + rank s ≤ total := by
  refine (h.history (I := fun tr s => L.Run tr s ∧ tr.countP S.work + rank s ≤ total) ?_ ?_).2
  · intro s h0
    have := htotal s h0
    exact ⟨.init h0, by rw [List.countP_nil]; omega⟩
  · rintro tr s a s' ⟨hrun, hle⟩ hst
    refine ⟨hrun.step hst, ?_⟩
    have hstep := hrank s a s' (hI tr s hrun) hst
    rw [List.countP_append, List.countP_singleton]
    split_ifs at hstep ⊢
    all_goals omega

/-- After as many slots as there is work, all is done. -/
theorem done_of_run (hI : ∀ tr s, L.Run tr s → I s) (rank : σ → ℕ) {total : ℕ}
    (hrank : ∀ s a s', I s → L.step s a s' →
      if S.work a then rank s' < rank s else rank s' ≤ rank s)
    (htotal : ∀ s, L.init s → rank s ≤ total) {tr : List α} {s : σ} (h : L.Run tr s)
    (htime : S.start + 1 + total < S.time s) : S.Done s := by
  refine (S.time_le hI h).resolve_right fun hle => ?_
  have hcount := countP_le hI rank hrank htotal h
  omega

end Slots

end OsSim.Deadline
