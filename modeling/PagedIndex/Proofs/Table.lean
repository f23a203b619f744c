import PagedIndex.Table

/-! Tables hold each key once. Setting and erasing keep that, so looking up a key finds the one
pair that has it.
-/

namespace PagedIndex.Table

variable [DecidableEq α] {t : Table α β}

/-- No key occurs in two pairs. -/
def Keyed (t : Table α β) : Prop := (t.pairs.map (·.1)).Nodup

omit [DecidableEq α] in
theorem keyed_empty : (empty : Table α β).Keyed := List.nodup_nil

/-- Erasing keeps the keys distinct, as a sublist of the pairs is left. -/
theorem Keyed.erase (h : t.Keyed) (a : α) : (t.erase a).Keyed :=
  (List.filter_sublist.map _).nodup h

/-- Setting keeps the keys distinct, since the key that comes in has just been erased. -/
theorem Keyed.set (h : t.Keyed) (a : α) (b : β) : (t.set a b).Keyed := by
  refine List.nodup_cons.mpr ⟨?_, h.erase a⟩
  simp [Table.erase]

/-- In a keyed table looking up a key finds exactly the pairs of the table. -/
theorem Keyed.get?_eq_some_iff (h : t.Keyed) {a : α} {b : β}
    : t.get? a = some b ↔ (a, b) ∈ t.pairs := by
  obtain ⟨pairs⟩ := t
  induction pairs with
  | nil => simp [get?]
  | cons pair rest ih =>
      obtain ⟨fresh, distinct⟩ := List.nodup_cons.mp h
      have tail := ih distinct
      obtain ⟨key, value⟩ := pair
      simp only [get?] at tail ⊢
      by_cases same : key = a
      · subst same
        have absent : (key, b) ∉ rest := fun member =>
          fresh (List.mem_map_of_mem (f := (·.1)) member)
        simp [absent, eq_comm]
      · simp only [List.find?_cons, beq_eq_false_iff_ne.mpr same, tail, List.mem_cons,
          Prod.mk.injEq, Ne.symm same, false_and, false_or]

end PagedIndex.Table
