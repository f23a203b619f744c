import PagedIndex.Proofs.Contents.Register
import PagedIndex.Proofs.Store.Reachable

/-! The write path of a store as writing to a map. Whatever branch a call takes through tree, bucket
and locator, it does to the register of the store what the same write does to a map, and what the
store tells of its records afterwards is what the map says.
-/

namespace PagedIndex.Store

open Std

variable [Ord K] {s : Store K V}

/-- A store tells of its records what a register says. -/
structure Shows (s : Store K V) (r : Register K V) : Prop where
  keyOf : ∀ record, s.contents.keyOf? record = (r.standing? record).map (·.position.key)
  contains : ∀ record, s.contents.contains record = (r.standing? record).isSome
  size : s.size = r.records.ncard
  isEmpty : s.isEmpty = true ↔ ∀ record, r.standing? record = none
  /-- Of keys that compare as equal, one is counted. -/
  keyCount
    : ∃ keys : List K, s.keyCount = keys.length ∧ keys.Pairwise (fun a b => compare a b = .lt)
        ∧ ∀ key, (∃ k ∈ keys, compare key k = .eq)
          ↔ ∃ record, r.standsUnder key record = true

/-- What a write makes of a store. -/
structure Turns (s : Store K V) (w : Write K V) (after : Store K V) : Prop where
  /-- The write does what it would do to a map. -/
  register : after.contents.register = s.contents.register.perform w
  shows : after.Shows (s.contents.register.perform w)
  /-- A record that gets a new number stands last in its bucket. -/
  latest
    : ∀ record x, after.contents.standing? record = some x → s.contents.lastSeq < x.position.seq
        → (after.contents.tree.bucket? x.position.key).bind (·.slots.getLast?)
          = some ⟨x.position.seq, x.entry⟩
  /-- Other records stand where they stood, with the entries they had. -/
  others
    : ∀ record other, w.record? = some record → other ≠ record
        → after.contents.standing? other = s.contents.standing? other
  /-- Every range has them in the order it had them in. -/
  order
    : ∀ record d, w.record? = some record
        → (after.contents.selection d).filter (·.entry.record != record)
          = (s.contents.selection d).filter (·.entry.record != record)

/-- A removal finds its record in the bucket of the key, or changes nothing. -/
theorem found_remove (s : Store K V) (held : Holdings K V) (key : K) (record : RecordKey)
    : (s.remove held key record).1 = s.contents.tree.holds key record
      ∧ (s.contents.tree.holds key record = false
        → (s.remove held key record).2.contents = s.contents) := by
  unfold remove Contents.removal
  cases s.contents.tree.holds key record with
  | true => exact ⟨rfl, nofun⟩
  | false => exact ⟨rfl, fun _ => rfl⟩

variable [TransOrd K]

theorem shows_register (h : s.contents.Coherent) : s.Shows s.contents.register where
  keyOf := h.keyOf?_eq
  contains := h.contains_eq
  size := h.size_eq_ncard
  isEmpty := by rw [isEmpty, beq_iff_eq, size, h.size_eq_zero_iff]
  keyCount := by
    refine ⟨s.contents.tree.leaves.map (·.key), ?_, List.pairwise_map.mpr h.tree.sorted, ?_⟩
    · rw [List.length_map]
      rfl
    · intro key
      rw [← h.exists_leaf_iff key]
      simp

theorem turns_perform (h : s.contents.Coherent) (held : Holdings K V) (w : Write K V)
    : s.Turns w (s.perform held w) := by
  have after : (s.perform held w).contents.Coherent := by
    rw [contents_perform]
    exact h.perform w
  have register : (s.perform held w).contents.register = s.contents.register.perform w := by
    rw [contents_perform]
    exact h.register_perform w
  have standing (record : RecordKey)
      : (s.perform held w).contents.standing? record
        = (s.contents.register.perform w).standing? record :=
    congrFun (congrArg Register.standing? register) record
  have others (record other : RecordKey) (about : w.record? = some record) (apart : other ≠ record)
      : (s.perform held w).contents.standing? other = s.contents.standing? other :=
    (standing other).trans (Register.standing?_perform_of_ne about apart)
  refine {
    register := register
    shows := register ▸ shows_register after
    latest := ?_
    others := others
    order := fun record d about =>
      h.filter_selection_congr after (fun other => others record other about) d
  }
  intro record x stands fresh
  refine after.getLast?_of_latest stands ?_
  rw [standing] at stands
  -- A number that is new is the one that the write has drawn.
  rcases Register.number_of_perform stands with ⟨next, last⟩ | ⟨y, stood, same⟩
  · exact next.trans (last.symm.trans (congrArg Register.lastSeq register).symm)
  · have given := h.bounded record y stood
    exact absurd fresh (Nat.not_lt.mpr (same ▸ given))

/-- A number that a record has after a run of writes was its own before or is new. -/
theorem number_of_performAll (h : s.contents.Coherent) {writes : List (Holdings K V × Write K V)}
    {record : RecordKey} {x : Standing K V}
    (stands : (s.performAll writes).contents.standing? record = some x)
    : s.contents.lastSeq < x.position.seq
      ∨ ∃ y, s.contents.standing? record = some y ∧ y.position.seq = x.position.seq := by
  have register := h.register_performAll (writes.map (·.2))
  rw [← contents_performAll] at register
  have stands : (s.contents.register.performAll (writes.map (·.2))).standing? record = some x :=
    register ▸ stands
  exact Register.number_of_performAll stands

/-- In every reachable store each write turns the store into what the same write makes of the map
from records to where they stand. Removals and updates tell whether the record stood under its key,
and a removal that finds nothing changes nothing. No number is given out twice, not even after
everything was dropped.
-/
theorem writes_act_on_register (h : s.Reachable) (held : Holdings K V)
    : (∀ w, s.Turns w (s.perform held w))
      ∧ (∀ key record,
          (s.remove held key record).1 = s.contents.register.standsUnder key record
          ∧ (s.contents.register.standsUnder key record = false
            → (s.remove held key record).2.contents = s.contents))
      ∧ (∀ oldKey newKey entry,
          (s.update held oldKey newKey entry).1
            = s.contents.register.standsUnder oldKey entry.record)
      ∧ (∀ cursor r, s.contents.locator.resolve cursor = some r
          → r.position.seq ≤ s.contents.lastSeq)
      ∧ (∀ writes record x, (s.performAll writes).contents.standing? record = some x
          → s.contents.lastSeq < x.position.seq
            ∨ ∃ y, s.contents.standing? record = some y ∧ y.position.seq = x.position.seq)
      ∧ ∀ writes record x, (s.clear.performAll writes).contents.standing? record = some x
          → s.contents.lastSeq < x.position.seq := by
  have coherent := h.coherent
  refine ⟨turns_perform coherent held, ?_, ?_, ?_, ?_, ?_⟩
  · intro key record
    rw [coherent.standsUnder_register]
    exact s.found_remove held key record
  · intro oldKey newKey entry
    exact (coherent.standsUnder_register oldKey entry.record).symm
  · intro cursor r resolved
    unfold Locator.resolve at resolved
    split at resolved
    next p live =>
      obtain rfl := Option.some.inj resolved
      exact coherent.liveBound cursor.record p live
    next =>
      obtain ⟨retirement, found, rfl⟩ := Option.map_eq_some_iff.mp resolved
      exact coherent.retiredBound cursor.record retirement found
  · exact fun writes record x => number_of_performAll coherent
  · intro writes record x stands
    have cleared : s.clear.contents.Coherent := s.contents.coherent_cleared
    have nothing : s.clear.contents.standing? record = none := rfl
    rcases number_of_performAll cleared stands with fresh | ⟨y, stood, _⟩
    · exact fresh
    · simp [nothing] at stood

/-- The second record moves back behind the first, under the number after the last one. -/
theorem afterMoves_writes
    : afterMoves.Reachable
      ∧ (afterMoves.insert .empty 5 ⟨⟨[2]⟩, "g"⟩).contents.standing? ⟨[2]⟩
        = some ⟨⟨5, 6⟩, ⟨⟨[2]⟩, "g"⟩⟩
      ∧ ((afterMoves.insert .empty 5 ⟨⟨[2]⟩, "g"⟩).contents.tree.bucket? 5).bind
          (·.slots.getLast?)
        = some ⟨6, ⟨⟨[2]⟩, "g"⟩⟩
      ∧ (afterMoves.remove .empty 5 ⟨[2]⟩).1 = false
      ∧ (afterMoves.remove .empty 5 ⟨[2]⟩).2.contents = afterMoves.contents := by
  obtain ⟨turns, removes, _⟩ := writes_act_on_register afterMoves_reachable .empty
  have moved : (afterMoves.insert .empty 5 ⟨⟨[2]⟩, "g"⟩).contents.standing? ⟨[2]⟩
      = some ⟨⟨5, 6⟩, ⟨⟨[2]⟩, "g"⟩⟩ := by decide
  have elsewhere : afterMoves.contents.register.standsUnder 5 ⟨[2]⟩ = false := by decide
  have absent := removes 5 ⟨[2]⟩
  rw [elsewhere] at absent
  exact ⟨afterMoves_reachable, moved,
    (turns (.insert 5 ⟨⟨[2]⟩, "g"⟩)).latest _ _ moved (by decide), absent.1, absent.2 rfl⟩

end PagedIndex.Store
