import Mathlib
import PagedIndex.Proofs.Contents.Runs
import PagedIndex.Store.Paging

/-! Reachable stores. Requests change the contents of a store only by the writes among them, so
every store that comes of an empty one holds coherent contents.
-/

namespace PagedIndex.Store

open Std

/-! ## What requests do to the contents -/

theorem contents_resolve (s : Store K V) (cursor : Cursor)
    : (s.resolve cursor).2.contents = s.contents := by
  unfold resolve
  cases s.contents.locator.resolve cursor with
  | none => rfl
  | some r => cases r <;> rfl

variable [Ord K] {s : Store K V}

/-- Writing changes makes each of them to the contents, in order. -/
theorem contents_write (s : Store K V) (held : Holdings K V) (changes : List (Change K V))
    : (s.write held changes).contents = s.contents.applyAll changes := by
  have fold (state : Contents K V × Metrics)
      : (changes.foldl (fun state change =>
          (state.1.apply change, charge held state.1 state.2 change)) state).1
        = state.1.applyAll changes := by
    induction changes generalizing state with
    | nil => rfl
    | cons change rest ih => exact ih _
  exact fold (s.contents, s.metrics)

/-- Carries out a write, with whatever open readers hold at that moment. -/
def perform (s : Store K V) (held : Holdings K V) : Write K V → Store K V
  | .insert key entry => s.insert held key entry
  | .remove key record => (s.remove held key record).2
  | .update oldKey newKey entry => (s.update held oldKey newKey entry).2
  | .clear => s.clear

theorem contents_perform (s : Store K V) (held : Holdings K V) (w : Write K V)
    : (s.perform held w).contents = s.contents.perform w := by
  cases w with
  | insert key entry => exact s.contents_write held _
  | update oldKey newKey entry => exact s.contents_write held _
  | remove key record => exact s.contents_write held _
  | clear => rfl

/-- The store after a run of writes, each beside what readers held at it. -/
def performAll (s : Store K V) (writes : List (Holdings K V × Write K V)) : Store K V :=
  writes.foldl (fun store write => store.perform write.1 write.2) s

theorem contents_performAll (s : Store K V) (writes : List (Holdings K V × Write K V))
    : (s.performAll writes).contents = s.contents.performAll (writes.map (·.2)) := by
  induction writes generalizing s with
  | nil => rfl
  | cons write rest ih =>
      rw [performAll, List.foldl_cons, ← performAll, ih, contents_perform]
      rfl

theorem contents_openScan (s : Store K V) (d : Descriptor K) (resume : Option (Position K))
    : (s.openScan d resume).2.contents = s.contents := by
  unfold openScan
  simp only
  split <;> rfl

/-- The courses that a request for a scan can take, each with its answer and the store it leaves. -/
inductive ScanCourse (s : Store K V) (d : Descriptor K)
    : Except Fault (Scan K V) → Store K V → Prop
  | refused {fault : Fault} (invalid : d.validate = .error fault)
    : ScanCourse s d (.error fault) (s.reject fault)
  | empty (valid : d.validate = .ok ()) (nothing : d.isEmptyRange = true)
    : ScanCourse s d (.ok (.nothing d.direction)) (s.count .scans)
  | fresh (valid : d.validate = .ok ()) (possible : d.isEmptyRange = false)
      (start : d.cursor = none)
    : ScanCourse s d (.ok (s.openScan d none).1) (s.openScan d none).2
  | resumed {cursor : Cursor} {r : Resolution K} (valid : d.validate = .ok ())
      (possible : d.isEmptyRange = false) (carried : d.cursor = some cursor)
      (resolved : s.contents.locator.resolve cursor = some r)
    : ScanCourse s d (.ok ((s.resolve cursor).2.openScan d (some r.position)).1)
        ((s.resolve cursor).2.openScan d (some r.position)).2
  | unknown {cursor : Cursor} (valid : d.validate = .ok ()) (possible : d.isEmptyRange = false)
      (carried : d.cursor = some cursor)
      (unresolved : s.contents.locator.resolve cursor = none)
    : ScanCourse s d (.error (.unknownCursor cursor.record.toHex)) (s.resolve cursor).2

/-- Every request for a scan takes one of these courses. -/
theorem scanCourse (s : Store K V) (d : Descriptor K)
    : s.ScanCourse d (s.scan d).1 (s.scan d).2 := by
  unfold scan
  cases valid : d.validate with
  | error fault => exact .refused valid
  | ok _ =>
      cases possible : d.isEmptyRange with
      | true => exact .empty valid possible
      | false =>
          cases carried : d.cursor with
          | none => exact .fresh valid possible carried
          | some cursor =>
              cases resolved : s.contents.locator.resolve cursor with
              | none =>
                  have outcome : s.resolve cursor
                      = (.error (.unknownCursor cursor.record.toHex), (s.resolve cursor).2) := by
                    simp only [resolve, resolved]
                  simp only [Bool.false_eq_true, if_false]
                  rw [outcome]
                  exact .unknown valid possible carried resolved
              | some r =>
                  have outcome : s.resolve cursor = (.ok r.position, (s.resolve cursor).2) := by
                    cases r <;> simp only [resolve, resolved, Resolution.position]
                  simp only [Bool.false_eq_true, if_false]
                  rw [outcome]
                  exact .resumed valid possible carried resolved

theorem contents_scan (s : Store K V) (d : Descriptor K) : (s.scan d).2.contents = s.contents := by
  have course := s.scanCourse d
  generalize (s.scan d).1 = answer, (s.scan d).2 = t at course ⊢
  cases course with
  | refused _ => rfl
  | empty _ _ => rfl
  | fresh _ _ _ => exact s.contents_openScan d none
  | resumed _ _ _ _ => exact (contents_openScan _ _ _).trans (s.contents_resolve _)
  | unknown _ _ _ _ => exact s.contents_resolve _

theorem contents_page (s : Store K V) (d : Descriptor K) (limit : Nat)
    : (s.page d limit).2.contents = s.contents := by
  unfold page
  split
  · rfl
  · exact s.contents_scan d

/-! ## Reachable stores -/

/-- The stores that an empty one turns into. What readers hold at a write is arbitrary. -/
inductive Reachable : Store K V → Prop
  | created (visibility : Visibility) (retiredCapacity pageSize : Nat) (logger : Log.Logger)
    : Reachable (create visibility retiredCapacity pageSize logger)
  | written {store : Store K V} (reached : Reachable store) (held : Holdings K V) (w : Write K V)
    : Reachable (store.perform held w)
  | scanned {store : Store K V} (reached : Reachable store) (d : Descriptor K)
    : Reachable (store.scan d).2
  | paged {store : Store K V} (reached : Reachable store) (d : Descriptor K) (limit : Nat)
    : Reachable (store.page d limit).2

/-- Every reachable store holds coherent contents, by induction over what was asked of it. -/
theorem Reachable.coherent [TransOrd K] (h : s.Reachable) : s.contents.Coherent := by
  induction h with
  | created visibility retiredCapacity pageSize logger =>
      exact Contents.coherent_empty retiredCapacity
  | written _ held w ih =>
      rw [contents_perform]
      exact ih.perform w
  | scanned _ d ih =>
      rw [contents_scan]
      exact ih
  | paged _ d limit ih =>
      rw [contents_page]
      exact ih

theorem Reachable.performAll (h : s.Reachable) (writes : List (Holdings K V × Write K V))
    : (s.performAll writes).Reachable := by
  induction writes generalizing s with
  | nil => exact h
  | cons write rest ih => exact ih (h.written write.1 write.2)

/-- In every reachable store tree, locator and counter agree, each record has one slot, the size
counts the slots and the live records, and a write never appends below the last number of a bucket.
-/
theorem reachable_agreement [TransOrd K] (h : s.Reachable)
    : s.contents.Coherent
      ∧ (s.contents.tree.slots.map (·.entry.record)).Nodup
      ∧ s.contents.tree.size = (s.contents.tree.leaves.map (·.bucket.size)).sum
      ∧ s.contents.tree.size = s.contents.locator.live.size
      ∧ ∀ w, s.contents.AppendsInOrder (s.contents.plan w) := by
  have coherent := h.coherent
  refine ⟨coherent, coherent.single, ?_, coherent.size_eq_live, ?_⟩
  · rw [coherent.tree.size_eq, Tree.slots, List.length_flatMap]
    rfl
  · exact fun w => coherent.appendsInOrder (coherent.planShape w)

/-- A store in which one record was replaced in place, one has moved and one is gone. -/
def afterMoves : Store Int String :=
  (create .copyOnWrite 2 10 default).performAll ([
    .insert 5 ⟨⟨[1]⟩, "a"⟩, .insert 5 ⟨⟨[2]⟩, "b"⟩, .insert 5 ⟨⟨[1]⟩, "c"⟩,
    .insert 7 ⟨⟨[2]⟩, "d"⟩, .insert 5 ⟨⟨[3]⟩, "e"⟩, .remove 5 ⟨[3]⟩].map (.empty, ·))

theorem afterMoves_reachable : afterMoves.Reachable :=
  (Reachable.created _ _ _ _).performAll _

theorem afterMoves_agreement
    : afterMoves.Reachable
      ∧ afterMoves.contents.Coherent
      ∧ afterMoves.contents.tree.size = (afterMoves.contents.tree.leaves.map (·.bucket.size)).sum
      ∧ afterMoves.contents.tree.size = 2 :=
  have agreement := reachable_agreement afterMoves_reachable
  ⟨afterMoves_reachable, agreement.1, agreement.2.2.1, by decide⟩

end PagedIndex.Store
