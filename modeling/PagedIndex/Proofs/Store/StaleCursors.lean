import PagedIndex.Proofs.Contents.Retirements
import PagedIndex.Proofs.Store.CursorLaw

/-! Cursors of removed records. A removed record is remembered at least until as many further
retirements have happened as the store remembers, and until then its cursor resumes after where it
stood, whatever has become of the bucket there. A move retires the moved record for a moment, so
with a full memory it costs another record its place.
-/

namespace PagedIndex.Store

open Std

variable [Ord K] {s : Store K V} {key : K} {record : RecordKey} {p : Position K}

theorem Reachable.sound (h : s.Reachable) : s.contents.locator.Sound := by
  induction h with
  | created visibility retiredCapacity pageSize logger =>
      exact Locator.sound_empty retiredCapacity
  | written _ held w ih =>
      rw [contents_perform]
      exact Contents.sound_perform ih w
  | scanned _ d ih =>
      rw [contents_scan]
      exact ih
  | paged _ d limit ih =>
      rw [contents_page]
      exact ih

/-- A removal that finds its record takes it from where it is. -/
theorem contents_remove_of_found {held : Holdings K V} (found : (s.remove held key record).1 = true)
    : s.contents.tree.holds key record = true
      ∧ (s.remove held key record).2.contents = s.contents.apply (.unlink key record) := by
  have holds : s.contents.tree.holds key record = true := by
    by_cases there : s.contents.tree.holds key record = true
    · exact there
    · simp [remove, Contents.removal, there] at found
  refine ⟨holds, ?_⟩
  have contents := s.contents_perform held (.remove key record)
  simp only [perform, Contents.perform, Contents.remove, Contents.removal, holds, if_true]
    at contents
  exact contents

variable [TransOrd K]

/-- From the removal of a record on, whatever is written that neither puts the record back nor
clears the index: while fewer further records have been retired than the store remembers, the
cursor of the record stands for where it stood, and every scan that resumes after it succeeds and
delivers what is live in the range beyond that position.
-/
theorem stale_cursor_resumes (h : s.Reachable) {held : Holdings K V}
    (stood : s.contents.locator.live? record = some p)
    (removed : (s.remove held key record).1 = true) (writes : List (Holdings K V × Write K V))
    (gone : ∀ w ∈ writes, w.2.LeavesGone record)
    (few
      : (s.remove held key record).2.contents.retirements (writes.map (·.2))
        < s.contents.locator.capacity)
    : ((s.remove held key record).2.performAll writes).contents.locator.resolve ⟨record⟩
        = some (.retired p)
      ∧ ∀ d : Descriptor K, d.isOpenRange = false
          → ((s.remove held key record).2.performAll writes).Delivers
              (d.resumed (some ⟨record⟩))
              (((((s.remove held key record).2.performAll writes).contents.selection d).filter
                fun x => (p.compare d.direction x.position).isLT).map (·.entry)) := by
  obtain ⟨holds, left⟩ := contents_remove_of_found removed
  have reached : (s.remove held key record).2.Reachable := h.written held (.remove key record)
  have sound := h.sound
  have recalls : (s.remove held key record).2.contents.locator.Recalls record p 0 := by
    rw [left]
    exact .of_retire sound stood (Nat.zero_lt_of_lt few)
  have capacity : (s.remove held key record).2.contents.locator.capacity
      = s.contents.locator.capacity := by
    rw [left, Contents.capacity_apply]
  have absent : ∀ w ∈ writes.map (·.2), w.LeavesGone record := List.forall_mem_map.mpr gone
  have kept := reached.coherent.recalls_performAll reached.sound recalls absent (by omega)
  rw [← contents_performAll] at kept
  have after := reached.performAll writes
  have resolved := kept.resolve after.sound
  exact ⟨resolved, fun d closed => delivers_resumed after.coherent closed resolved⟩

/-- The bucket of the removed record goes with it and comes back with another one. -/
theorem afterMoves_stale
    : afterMoves.contents.locator.live? ⟨[1]⟩ = some ⟨5, 1⟩
      ∧ (afterMoves.remove .empty 5 ⟨[1]⟩).1 = true
      ∧ ((afterMoves.remove .empty 5 ⟨[1]⟩).2.performAll
            [(.empty, .update 7 9 ⟨⟨[2]⟩, "g"⟩), (.empty, .insert 5 ⟨⟨[4]⟩, "h"⟩)]).Delivers
          ((Descriptor.all .ascending).resumed (some ⟨⟨[1]⟩⟩))
          [⟨⟨[4]⟩, "h"⟩, ⟨⟨[2]⟩, "g"⟩] := by
  have stood : afterMoves.contents.locator.live? ⟨[1]⟩ = some ⟨5, 1⟩ := by decide
  have removed : (afterMoves.remove .empty 5 ⟨[1]⟩).1 = true := by decide
  refine ⟨stood, removed, ?_⟩
  have resumed := (stale_cursor_resumes afterMoves_reachable stood removed
    [(.empty, .update 7 9 ⟨⟨[2]⟩, "g"⟩), (.empty, .insert 5 ⟨⟨[4]⟩, "h"⟩)]
    (by decide) (by decide)).2 (.all .ascending) rfl
  have after : ((afterMoves.remove .empty 5 ⟨[1]⟩).2.performAll
      [(.empty, .update 7 9 ⟨⟨[2]⟩, "g"⟩), (.empty, .insert 5 ⟨⟨[4]⟩, "h"⟩)]).Reachable :=
    (afterMoves_reachable.written .empty (.remove 5 ⟨[1]⟩)).performAll _
  rw [Contents.selection, after.coherent.standings_eq] at resumed
  exact resumed

/-! ## Writes of other records -/

/-- Writing one record leaves what the cursor of another stands for, unless the write moves its
record while the memory is full and the other record is the one to be forgotten next.
-/
theorem resolve_after_writing_other (h : s.Reachable) (held : Holdings K V) {w : Write K V}
    {entry : Entry V} (puts : w.entry? = some entry) (other : record ≠ entry.record)
    : (s.perform held w).contents.locator.resolve ⟨record⟩
      = if s.contents.Displaces w record then none
        else s.contents.locator.resolve ⟨record⟩ := by
  rw [contents_perform]
  exact h.coherent.resolve_perform h.sound puts other

/-- There is room for the record that moves, so the removed one is still remembered. -/
theorem afterMoves_others
    : afterMoves.Reachable
      ∧ (afterMoves.insert .empty 5 ⟨⟨[2]⟩, "g"⟩).contents.locator.resolve ⟨⟨[3]⟩⟩
        = some (.retired ⟨5, 5⟩) := by
  have apart : (⟨[3]⟩ : RecordKey) ≠ ⟨[2]⟩ := by decide
  have kept := resolve_after_writing_other afterMoves_reachable .empty
    (w := .insert 5 ⟨⟨[2]⟩, "g"⟩) rfl apart
  have room : ¬ afterMoves.contents.Displaces (.insert 5 ⟨⟨[2]⟩, "g"⟩) ⟨[3]⟩ := by decide
  rw [if_neg room] at kept
  exact ⟨afterMoves_reachable, kept.trans (by decide)⟩

/-- A store that remembers one removed record, has removed one and holds another. -/
def withFullMemory : Store Int String :=
  (create .copyOnWrite 1 10 default).performAll ([
    .insert 5 ⟨⟨[1]⟩, "a"⟩, .insert 5 ⟨⟨[2]⟩, "b"⟩, .remove 5 ⟨[1]⟩].map (.empty, ·))

/-- Moving the one record forgets the other, though none but that has been removed. -/
theorem move_forgets_removed
    : withFullMemory.Reachable
      ∧ withFullMemory.contents.locator.resolve ⟨⟨[1]⟩⟩ = some (.retired ⟨5, 1⟩)
      ∧ (withFullMemory.insert .empty 7 ⟨⟨[2]⟩, "b"⟩).contents.locator.resolve ⟨⟨[1]⟩⟩ = none
      ∧ (withFullMemory.update .empty 5 7 ⟨⟨[2]⟩, "b"⟩).2.contents.locator.resolve ⟨⟨[1]⟩⟩
        = none :=
  ⟨(Reachable.created _ _ _ _).performAll _, by decide, by decide, by decide⟩

end PagedIndex.Store
