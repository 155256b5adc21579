import Mathlib.Logic.Function.Basic
import Mathlib.Tactic.SplitIfs

/-!
# Lossy maps

A store for keys and values that may forget a key to make room for another one,
but never answers with a value that is not the last one put. The contents of the
store are seen as a function `κ → Option ν`.

Results:
* `last_put`, `last_del`: the value last put for a key, after one more operation.
* `Sub.put`, `Sub.del`: contents that are part of what has been put stay so.
-/

namespace OsSim.LossyMap

variable {κ ν : Type*} [DecidableEq κ]

/-- Put a value for a key, or delete all keys of a set. -/
inductive Op (κ ν : Type*) where
  | put (k : κ) (v : ν)
  | del (ks : κ → Bool)

/-- The operation on a map that forgets nothing. -/
def Op.apply (m : κ → Option ν) : Op κ ν → κ → Option ν
  | .put k v => Function.update m k (some v)
  | .del ks => fun k => if ks k then none else m k

/-- The value last put for a key, unless the key has been deleted since. -/
def last (ops : List (Op κ ν)) : κ → Option ν := ops.foldl Op.apply fun _ => none

/-- The contents `c` are part of the map `m`. -/
def Sub (c m : κ → Option ν) : Prop := ∀ k v, c k = some v → m k = some v

/-- A key is forgotten when the contents change from `c` to `c'`. -/
def Forgets (c c' : κ → Option ν) (k : κ) : Prop := c k ≠ none ∧ c' k = none

/-- How putting `v` for `k` may change the contents: afterwards `k` is there, other keys have the
value that they had or none, and at most one of them is forgotten. -/
structure Put (k : κ) (v : ν) (c c' : κ → Option ν) : Prop where
  hit : c' k = some v
  others : ∀ k' v', k' ≠ k → c' k' = some v' → c k' = some v'
  one : ∀ k1 k2, Forgets c c' k1 → Forgets c c' k2 → k1 = k2

/-- How deleting `ks` changes the contents. -/
structure Del (ks : κ → Bool) (c c' : κ → Option ν) : Prop where
  gone : ∀ k, ks k = true → c' k = none
  others : ∀ k, ks k = false → c' k = c k

theorem last_append (ops : List (Op κ ν)) (op : Op κ ν) :
    last (ops ++ [op]) = op.apply (last ops) := by
  simp [last]

theorem last_put (ops : List (Op κ ν)) (k : κ) (v : ν) :
    last (ops ++ [.put k v]) = Function.update (last ops) k (some v) :=
  last_append ops _

theorem last_del (ops : List (Op κ ν)) (ks : κ → Bool) (k : κ) :
    last (ops ++ [.del ks]) k = if ks k then none else last ops k := by
  rw [last_append]
  rfl

theorem Sub.put {ops : List (Op κ ν)} {c c' : κ → Option ν} (h : Sub c (last ops)) {k : κ} {v : ν}
    (hp : Put k v c c') : Sub c' (last (ops ++ [.put k v])) := by
  intro k' v' hk'
  rw [last_put, Function.update_apply]
  split_ifs with e
  · rw [← hk', e]
    exact hp.hit.symm
  · exact h k' v' (hp.others k' v' e hk')

theorem Sub.del {ops : List (Op κ ν)} {c c' : κ → Option ν} (h : Sub c (last ops)) {ks : κ → Bool}
    (hd : Del ks c c') : Sub c' (last (ops ++ [.del ks])) := by
  intro k v hk
  rw [last_del]
  cases hks : ks k with
  | true =>
    rw [hd.gone k hks] at hk
    cases hk
  | false =>
    rw [hd.others k hks] at hk
    exact h k v hk

end OsSim.LossyMap
