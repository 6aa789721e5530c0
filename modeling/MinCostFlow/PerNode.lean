/-! # One entry per node

Distances, labels and balances are tables with one entry for each of `n` nodes. A table
is known by what stands at each node.
-/

namespace MinCostFlow

/-- A table with one entry per node. -/
abbrev PerNode (α : Type) (n : Nat) := Vector α n

namespace PerNode

variable {α : Type} {n : Nat}

def all (n : Nat) (value : α) : PerNode α n := Vector.replicate n value

def entry (table : PerNode α n) (v : Fin n) : α := table.get v

def put (table : PerNode α n) (v : Fin n) (value : α) : PerNode α n := table.set v value v.isLt

@[simp] theorem entry_all (value : α) (v : Fin n) : (all n value).entry v = value := by
  simp [all, entry, Vector.get]

@[grind =] theorem entry_put (table : PerNode α n) (v w : Fin n) (value : α) :
    (table.put v value).entry w = if v = w then value else table.entry w := by
  simp only [entry, put, Vector.get, Vector.toArray_set, Fin.val_cast, Array.getElem_set, Fin.ext_iff]
  rfl

@[simp] theorem entry_put_self (table : PerNode α n) (v : Fin n) (value : α) :
    (table.put v value).entry v = value := by
  simp [entry_put]

theorem entry_put_of_ne (table : PerNode α n) {v w : Fin n} (other : v ≠ w) (value : α) :
    (table.put v value).entry w = table.entry w := by
  simp [entry_put, other]

theorem ext {left right : PerNode α n} (same : ∀ v, left.entry v = right.entry v) : left = right := by
  apply Vector.ext
  intro i bound
  exact same ⟨i, bound⟩

theorem getElem_toArray (table : PerNode α n) (v : Fin n) (bound : v.val < table.toArray.size) :
    table.toArray[v.val] = table.entry v := rfl

end PerNode

end MinCostFlow
