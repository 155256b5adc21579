import Mathlib.Data.List.Perm.Basic
import Mathlib.Data.List.Nodup
import Mathlib.Logic.Function.Basic

/-!
# Keys placed at locations

A `Store` places some keys at locations, keeps a list of unused locations and
holds a content in every location. The content of a key is the content of the
location it is placed at, so it does not say where the key lives.

Three things a manager of such a store needs, each kept by the three ways in
which it may change the store (`Relocate` a key to an unused location, `Assign`
an unused location to a key that had none, `Release` the location of a key):

* `Exclusive`: no location is used twice, and no used location is on the list.
  `Apart M` asks the first for the locations that satisfy `M` only.
* `Within V`: every location in use or on the list satisfies `V`.
* `Covers V`: no location that satisfies `V` is lost.

Relocation changes the content of no key at all (`Relocate.view_eq`); the other
two change the content of their own key only (`Assign.view_of_ne`,
`Release.view_of_ne`). `Change` is any of them.
-/

namespace OsSim.Placement

universe u v w

/-- Keys `K` placed at locations `L` with contents in `C`. -/
structure Store (K : Type u) (L : Type v) (C : Type w) where
  loc : K → Option L
  free : List L
  cell : L → C

namespace Store

variable {K : Type u} {L : Type v} {C : Type w}

/-- The content of a key. -/
def view (σ : Store K L C) (k : K) : Option C := (σ.loc k).map σ.cell

/-- No location is used twice, and the list holds unused ones only. -/
structure Exclusive (σ : Store K L C) : Prop where
  nodup : σ.free.Nodup
  inj : ∀ k k' l, σ.loc k = some l → σ.loc k' = some l → k = k'
  fresh : ∀ k l, σ.loc k = some l → l ∉ σ.free

/-- The list holds unused locations only, and of those that satisfy `M` none is used twice. -/
structure Apart (M : L → Prop) (σ : Store K L C) : Prop where
  nodup : σ.free.Nodup
  inj : ∀ k k' l, M l → σ.loc k = some l → σ.loc k' = some l → k = k'
  fresh : ∀ k l, σ.loc k = some l → l ∉ σ.free

/-- Every location of the store satisfies `V`. -/
structure Within (V : L → Prop) (σ : Store K L C) : Prop where
  free : ∀ l ∈ σ.free, V l
  used : ∀ k l, σ.loc k = some l → V l

/-- Every location that satisfies `V` is on the list or in use. -/
def Covers (V : L → Prop) (σ : Store K L C) : Prop :=
  ∀ l, V l → l ∈ σ.free ∨ ∃ k, σ.loc k = some l

/-- Reordering the list of unused locations. -/
structure Shuffle (σ σ' : Store K L C) : Prop where
  loc : σ'.loc = σ.loc
  free : σ'.free.Perm σ.free
  cell : σ'.cell = σ.cell

variable [DecidableEq K]

/-- `k` moves from `l` to the unused location `l'`, its content is copied. -/
structure Relocate (σ σ' : Store K L C) (k : K) (l l' : L) : Prop where
  source : σ.loc k = some l
  loc : σ'.loc = Function.update σ.loc k (some l')
  free : (l' :: σ'.free).Perm (l :: σ.free)
  target : l' ∈ σ.free
  copy : σ'.cell l' = σ.cell l
  keep : ∀ x, x ≠ l' → σ'.cell x = σ.cell x

/-- `k`, which had no location, gets the unused location `l`. -/
structure Assign (σ σ' : Store K L C) (k : K) (l : L) : Prop where
  source : σ.loc k = none
  loc : σ'.loc = Function.update σ.loc k (some l)
  free : (l :: σ'.free).Perm σ.free
  keep : ∀ x, x ≠ l → σ'.cell x = σ.cell x

/-- `k` gives up its location `l`. -/
structure Release (σ σ' : Store K L C) (k : K) (l : L) : Prop where
  source : σ.loc k = some l
  loc : σ'.loc = Function.update σ.loc k none
  free : σ'.free.Perm (l :: σ.free)
  cell : σ'.cell = σ.cell

variable {σ σ' : Store K L C} {k : K} {l l' : L} {V M : L → Prop}

omit [DecidableEq K] in
theorem Exclusive.apart (h : Exclusive σ) : Apart M σ :=
  ⟨h.nodup, fun k k' l _ => h.inj k k' l, h.fresh⟩

omit [DecidableEq K] in
theorem exclusive_of_apart (h : Apart (fun _ => True) σ) : Exclusive σ :=
  ⟨h.nodup, fun k k' l => h.inj k k' l trivial, h.fresh⟩

/-! ## Reordering -/

section Shuffle

omit [DecidableEq K]

theorem Shuffle.apart (h : Shuffle σ σ') (hx : Apart M σ) : Apart M σ' where
  nodup := h.free.nodup_iff.mpr hx.nodup
  inj k k' l hM h1 h2 := hx.inj k k' l hM (h.loc ▸ h1) (h.loc ▸ h2)
  fresh k l h1 := fun hm => hx.fresh k l (h.loc ▸ h1) (h.free.mem_iff.mp hm)

theorem Shuffle.exclusive (h : Shuffle σ σ') (hx : Exclusive σ) : Exclusive σ' :=
  exclusive_of_apart (h.apart hx.apart)

theorem Shuffle.within (h : Shuffle σ σ') (hw : Within V σ) : Within V σ' where
  free l hl := hw.free l (h.free.mem_iff.mp hl)
  used k l hk := hw.used k l (h.loc ▸ hk)

theorem Shuffle.covers (h : Shuffle σ σ') (hc : Covers V σ) : Covers V σ' := by
  intro l hl
  rw [h.free.mem_iff, h.loc]
  exact hc l hl

theorem Shuffle.view_eq (h : Shuffle σ σ') : σ'.view = σ.view := by
  funext k
  simp only [view, h.loc, h.cell]

end Shuffle

/-! ## Relocation -/

/-- A used location is not the target of a relocation. -/
theorem Relocate.ne_target (h : Relocate σ σ' k l l') (hx : Apart M σ) {k' : K} {x : L}
    (hk : σ.loc k' = some x) : x ≠ l' := by
  rintro rfl
  exact hx.fresh k' x hk h.target

/-- The location that is left has to be one that is not shared. -/
theorem Relocate.apart (h : Relocate σ σ' k l l') (hM : M l) (hx : Apart M σ) : Apart M σ' := by
  have hl : l ∉ σ.free := hx.fresh k l h.source
  have hnd : (l' :: σ'.free).Nodup := h.free.nodup_iff.mpr (List.nodup_cons.mpr ⟨hl, hx.nodup⟩)
  refine ⟨(List.nodup_cons.mp hnd).2, fun k1 k2 x hMx h1 h2 => ?_, fun k1 x h1 => ?_⟩
  · rw [h.loc, Function.update_apply] at h1 h2
    split_ifs at h1 h2 with e1 e2 e2
    · rw [e1, e2]
    · cases h1
      exact absurd rfl (h.ne_target hx h2)
    · cases h2
      exact absurd rfl (h.ne_target hx h1)
    · exact hx.inj k1 k2 x hMx h1 h2
  · rw [h.loc, Function.update_apply] at h1
    split_ifs at h1 with e1
    · cases h1
      exact (List.nodup_cons.mp hnd).1
    · intro hm
      have hmem : x ∈ l :: σ.free := h.free.mem_iff.mp (List.mem_cons_of_mem _ hm)
      rcases List.mem_cons.mp hmem with rfl | hmem
      · exact e1 (hx.inj k1 k x hM h1 h.source)
      · exact hx.fresh k1 x h1 hmem

theorem Relocate.exclusive (h : Relocate σ σ' k l l') (hx : Exclusive σ) : Exclusive σ' :=
  exclusive_of_apart (h.apart trivial hx.apart)

theorem Relocate.within (h : Relocate σ σ' k l l') (hw : Within V σ) : Within V σ' := by
  refine ⟨fun x hm => ?_, fun k1 x h1 => ?_⟩
  · have hmem : x ∈ l :: σ.free := h.free.mem_iff.mp (List.mem_cons_of_mem _ hm)
    rcases List.mem_cons.mp hmem with rfl | hmem
    · exact hw.used k x h.source
    · exact hw.free x hmem
  · rw [h.loc, Function.update_apply] at h1
    split_ifs at h1 with e1
    · cases h1
      exact hw.free l' h.target
    · exact hw.used k1 x h1

theorem Relocate.covers (h : Relocate σ σ' k l l') (hc : Covers V σ) : Covers V σ' := by
  intro x hV
  by_cases hx : x ∈ l' :: σ'.free
  · rcases List.mem_cons.mp hx with rfl | hx
    · exact Or.inr ⟨k, by rw [h.loc, Function.update_self]⟩
    · exact Or.inl hx
  · have hx' : x ∉ l :: σ.free := fun hm => hx (h.free.mem_iff.mpr hm)
    rw [List.mem_cons, not_or] at hx'
    obtain hm | ⟨k1, h1⟩ := hc x hV
    · exact absurd hm hx'.2
    · refine Or.inr ⟨k1, ?_⟩
      rw [h.loc, Function.update_of_ne, h1]
      rintro rfl
      rw [h.source] at h1
      exact hx'.1 (Option.some.inj h1).symm

/-- Moving a key is invisible in the contents. -/
theorem Relocate.view_eq (h : Relocate σ σ' k l l') (hx : Apart M σ) : σ'.view = σ.view := by
  funext k1
  simp only [view, h.loc, Function.update_apply]
  split_ifs with e1
  · rw [e1, h.source, Option.map_some, Option.map_some, h.copy]
  · cases h1 : σ.loc k1 with
    | none => rfl
    | some x => rw [Option.map_some, Option.map_some, h.keep x (h.ne_target hx h1)]

/-! ## Assignment -/

theorem Assign.mem (h : Assign σ σ' k l) : l ∈ σ.free := h.free.mem_iff.mp List.mem_cons_self

theorem Assign.exclusive (h : Assign σ σ' k l) (hx : Exclusive σ) : Exclusive σ' := by
  have hnd : (l :: σ'.free).Nodup := h.free.nodup_iff.mpr hx.nodup
  refine ⟨(List.nodup_cons.mp hnd).2, fun k1 k2 x h1 h2 => ?_, fun k1 x h1 => ?_⟩
  · rw [h.loc, Function.update_apply] at h1 h2
    split_ifs at h1 h2 with e1 e2 e2
    · rw [e1, e2]
    · cases h1
      exact absurd h.mem (hx.fresh k2 l h2)
    · cases h2
      exact absurd h.mem (hx.fresh k1 l h1)
    · exact hx.inj k1 k2 x h1 h2
  · rw [h.loc, Function.update_apply] at h1
    split_ifs at h1 with e1
    · cases h1
      exact (List.nodup_cons.mp hnd).1
    · exact fun hm => hx.fresh k1 x h1 (h.free.mem_iff.mp (List.mem_cons_of_mem _ hm))

theorem Assign.within (h : Assign σ σ' k l) (hw : Within V σ) : Within V σ' := by
  refine ⟨fun x hm => hw.free x (h.free.mem_iff.mp (List.mem_cons_of_mem _ hm)),
    fun k1 x h1 => ?_⟩
  rw [h.loc, Function.update_apply] at h1
  split_ifs at h1 with e1
  · cases h1
    exact hw.free l h.mem
  · exact hw.used k1 x h1

theorem Assign.covers (h : Assign σ σ' k l) (hc : Covers V σ) : Covers V σ' := by
  intro x hV
  obtain hm | ⟨k1, h1⟩ := hc x hV
  · rcases List.mem_cons.mp (h.free.mem_iff.mpr hm) with rfl | hm
    · exact Or.inr ⟨k, by rw [h.loc, Function.update_self]⟩
    · exact Or.inl hm
  · refine Or.inr ⟨k1, ?_⟩
    rw [h.loc, Function.update_of_ne, h1]
    rintro rfl
    rw [h.source] at h1
    cases h1

theorem Assign.view_of_ne (h : Assign σ σ' k l) (hx : Exclusive σ) {k1 : K} (hne : k1 ≠ k) :
    σ'.view k1 = σ.view k1 := by
  simp only [view, h.loc, Function.update_of_ne hne]
  cases h1 : σ.loc k1 with
  | none => rfl
  | some x =>
    have hxl : x ≠ l := by
      rintro rfl
      exact hx.fresh k1 x h1 h.mem
    rw [Option.map_some, Option.map_some, h.keep x hxl]

/-! ## Release -/

theorem Release.exclusive (h : Release σ σ' k l) (hx : Exclusive σ) : Exclusive σ' := by
  refine ⟨h.free.nodup_iff.mpr (List.nodup_cons.mpr ⟨hx.fresh k l h.source, hx.nodup⟩),
    fun k1 k2 x h1 h2 => ?_, fun k1 x h1 hm => ?_⟩
  · rw [h.loc, Function.update_apply] at h1 h2
    split_ifs at h1 h2 with e1 e2
    exact hx.inj k1 k2 x h1 h2
  · rw [h.loc, Function.update_apply] at h1
    split_ifs at h1 with e1
    rcases List.mem_cons.mp (h.free.mem_iff.mp hm) with rfl | hm
    · exact e1 (hx.inj k1 k x h1 h.source)
    · exact hx.fresh k1 x h1 hm

theorem Release.within (h : Release σ σ' k l) (hw : Within V σ) : Within V σ' := by
  refine ⟨fun x hm => ?_, fun k1 x h1 => ?_⟩
  · rcases List.mem_cons.mp (h.free.mem_iff.mp hm) with rfl | hm
    · exact hw.used k x h.source
    · exact hw.free x hm
  · rw [h.loc, Function.update_apply] at h1
    split_ifs at h1 with e1
    exact hw.used k1 x h1

theorem Release.covers (h : Release σ σ' k l) (hc : Covers V σ) : Covers V σ' := by
  intro x hV
  obtain hm | ⟨k1, h1⟩ := hc x hV
  · exact Or.inl (h.free.mem_iff.mpr (List.mem_cons_of_mem _ hm))
  · by_cases e : k1 = k
    · rw [e, h.source] at h1
      cases h1
      exact Or.inl (h.free.mem_iff.mpr List.mem_cons_self)
    · exact Or.inr ⟨k1, by rw [h.loc, Function.update_of_ne e, h1]⟩

theorem Release.view_of_ne (h : Release σ σ' k l) {k1 : K} (hne : k1 ≠ k) :
    σ'.view k1 = σ.view k1 := by
  simp only [view, h.loc, h.cell, Function.update_of_ne hne]

/-! ## All of them -/

/-- One of the transitions, with the key that gets or gives up a location. -/
inductive Change (σ σ' : Store K L C) : Option K → Prop
  | shuffle : Shuffle σ σ' → Change σ σ' none
  | relocate {k : K} {l l' : L} : Relocate σ σ' k l l' → Change σ σ' none
  | assign {k : K} {l : L} : Assign σ σ' k l → Change σ σ' (some k)
  | release {k : K} {l : L} : Release σ σ' k l → Change σ σ' (some k)

variable {key : Option K}

theorem Change.exclusive (h : Change σ σ' key) (hx : Exclusive σ) : Exclusive σ' := by
  cases h with
  | shuffle h => exact h.exclusive hx
  | relocate h => exact h.exclusive hx
  | assign h => exact h.exclusive hx
  | release h => exact h.exclusive hx

theorem Change.within (h : Change σ σ' key) (hw : Within V σ) : Within V σ' := by
  cases h with
  | shuffle h => exact h.within hw
  | relocate h => exact h.within hw
  | assign h => exact h.within hw
  | release h => exact h.within hw

theorem Change.covers (h : Change σ σ' key) (hc : Covers V σ) : Covers V σ' := by
  cases h with
  | shuffle h => exact h.covers hc
  | relocate h => exact h.covers hc
  | assign h => exact h.covers hc
  | release h => exact h.covers hc

theorem Change.view_of_ne (h : Change σ σ' key) (hx : Exclusive σ) {k1 : K}
    (hne : key ≠ some k1) : σ'.view k1 = σ.view k1 := by
  cases h with
  | shuffle h => rw [h.view_eq]
  | relocate h => rw [h.view_eq (M := fun _ => True) hx.apart]
  | assign h => exact h.view_of_ne hx fun e => hne (e ▸ rfl)
  | release h => exact h.view_of_ne fun e => hne (e ▸ rfl)

end Store

end OsSim.Placement
