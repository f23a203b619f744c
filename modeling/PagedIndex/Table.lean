/-! Finite maps whose order does not matter, as lists of pairs with pairwise different keys. Looking
up after a change is described by one equation for each operation.
-/

namespace PagedIndex

/-- A finite map. -/
structure Table (α : Type u) (β : Type v) where
  pairs : List (α × β)
deriving DecidableEq, Repr

namespace Table

def empty : Table α β := ⟨[]⟩

/-- The number of keys. -/
def size (t : Table α β) : Nat := t.pairs.length

def values (t : Table α β) : List β := t.pairs.map (·.2)

variable [DecidableEq α]

def get? (t : Table α β) (a : α) : Option β :=
  (t.pairs.find? fun pair => pair.1 == a).map (·.2)

def contains (t : Table α β) (a : α) : Bool := (t.get? a).isSome

def erase (t : Table α β) (a : α) : Table α β := ⟨t.pairs.filter fun pair => pair.1 != a⟩

/-- Gives a key a value in place of the one it may have. -/
def set (t : Table α β) (a : α) (b : β) : Table α β := ⟨(a, b) :: (t.erase a).pairs⟩

@[simp] theorem get?_empty (a : α)
    : (empty : Table α β).get? a = none := rfl

theorem get?_erase (t : Table α β) (a x : α)
    : (t.erase a).get? x = if x = a then none else t.get? x := by
  obtain ⟨pairs⟩ := t
  induction pairs with
  | nil => simp [get?, erase]
  | cons pair rest ih =>
    simp only [get?, erase] at ih ⊢
    by_cases drop : pair.1 = a <;> by_cases found : pair.1 = x <;>
      simp_all

theorem get?_set (t : Table α β) (a x : α) (b : β)
    : (t.set a b).get? x = if x = a then some b else t.get? x := by
  by_cases h : x = a
  · simp [get?, set, h]
  · have step : (t.set a b).get? x = (t.erase a).get? x := by
      simp [get?, set, Ne.symm h]
    rw [step, get?_erase]
    simp [h]

end Table

end PagedIndex
