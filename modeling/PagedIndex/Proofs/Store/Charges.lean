import PagedIndex.Proofs.Store.Reachable
import PagedIndex.Proofs.Tree.Leaves

/-! What writes and scans charge. A write copies the tree at its first effective change if the
version it finds is kept, and never at a later one, since what it has just written cannot be kept by
anybody yet. It copies nothing on account of private copies, for they have the numbers of no write.
-/

namespace PagedIndex

/-- A change puts an entry somewhere or takes one away. -/
def Change.isEffective : Change K V → Bool
  | link _ _ | unlink _ _ => true
  | miss _ _ => false

variable [Ord K] {c : Contents K V}

namespace Contents

/-- A write puts an entry somewhere or takes one away. Clearing does not count as such. -/
def Effective (c : Contents K V) : Write K V → Prop
  | .insert _ _ | .update _ _ _ => True
  | .remove key record => c.tree.holds key record = true
  | .clear => False

instance (c : Contents K V) : DecidablePred c.Effective
  | .insert _ _ | .update _ _ _ => inferInstanceAs (Decidable True)
  | .remove _ _ => inferInstanceAs (Decidable (_ = true))
  | .clear => inferInstanceAs (Decidable False)

theorem any_isEffective_insertion (c : Contents K V) (key : K) (entry : Entry V)
    : (c.insertion key entry).any (·.isEffective) = true := by
  unfold insertion
  split
  · rfl
  · split <;> simp [Change.isEffective]

/-- A write is effective if its plan has an effective change. -/
theorem any_isEffective_plan (c : Contents K V) (w : Write K V)
    : (c.plan w).any (·.isEffective) = true ↔ c.Effective w := by
  cases w with
  | insert key entry => exact iff_of_true (c.any_isEffective_insertion key entry) trivial
  | remove key record =>
      simp only [plan, removal, Effective]
      split
      next held => exact iff_of_true rfl held
      next absent => exact iff_of_false (by simp [Change.isEffective]) absent
  | update oldKey newKey entry =>
      refine iff_of_true ?_ trivial
      rw [plan, relocation, List.any_append, any_isEffective_insertion, Bool.or_true]
  | clear => simp [plan, Effective]

theorem applyAll_of_ineffective {changes : List (Change K V)}
    (ineffective : changes.any (·.isEffective) = false)
    : c.applyAll changes = c := by
  induction changes with
  | nil => rfl
  | cons change rest ih =>
      rw [List.any_cons, Bool.or_eq_false_iff] at ineffective
      cases change with
      | miss key record => exact ih ineffective.2
      | _ => simp [Change.isEffective] at ineffective

/-! ## Versions -/

theorem numbered_apply (h : c.tree.Numbered) (change : Change K V)
    : (c.apply change).tree.Numbered := by
  cases change with
  | link key entry => exact h.insert key _ entry
  | unlink key record => exact h.erase key record
  | miss key record => exact h

theorem numbered_applyAll (h : c.tree.Numbered) (changes : List (Change K V))
    : (c.applyAll changes).tree.Numbered := by
  induction changes generalizing c with
  | nil => exact h
  | cons change rest ih => exact ih (numbered_apply h change)

theorem numbered_perform (h : c.tree.Numbered) (w : Write K V) : (c.perform w).tree.Numbered := by
  rw [perform_eq]
  split
  · exact c.tree.numbered_cleared
  · exact numbered_applyAll h _

theorem version_unlink {key : K} {record : RecordKey} (held : c.tree.holds key record)
    : (c.apply (.unlink key record)).tree.version = c.tree.version + 1 := by
  simp [apply, Tree.erase, held]

/-- A write that is effective, or that clears, leads to a later version. -/
theorem lt_version_perform [Std.TransOrd K] (h : c.Coherent) {w : Write K V}
    (alters : c.Effective w ∨ w = .clear)
    : c.tree.version < (c.perform w).tree.version := by
  rw [perform_eq]
  split
  · exact Nat.lt_succ_self _
  next apart =>
    have effective : c.Effective w := alters.resolve_right fun same => apart same
    have something := (c.any_isEffective_plan w).mpr effective
    have shape := h.planShape w
    generalize c.plan w = changes at something shape
    cases shape with
    | nothing => contradiction
    | miss _ => contradiction
    | unlink held =>
        have := version_unlink held
        simp only [applyAll, List.foldl_cons, List.foldl_nil]
        omega
    | link _ => exact Nat.lt_succ_self _
    | move held =>
        have := version_unlink held
        simp only [applyAll, List.foldl_cons, List.foldl_nil]
        rw [apply, Tree.insert]
        simp only
        omega

/-- Any other write changes nothing. -/
theorem perform_of_ineffective {w : Write K V} (alters : ¬(c.Effective w ∨ w = .clear))
    : c.perform w = c := by
  obtain ⟨ineffective, apart⟩ := not_or.mp alters
  have nothing : (c.plan w).any (·.isEffective) = false := by
    rw [Bool.eq_false_iff, Ne, any_isEffective_plan]
    exact ineffective
  rw [perform_eq]
  split
  · contradiction
  · exact applyAll_of_ineffective nothing

end Contents

/-! ## Private holdings -/

namespace Holdings

/-- All that is kept is private. -/
structure Private (h : Holdings K V) : Prop where
  trees : ∀ t ∈ h.trees, t.Private
  revisions : ∀ revision ∈ h.revisions, revision = 0

variable {h : Holdings K V} {current : Tree K V}

omit [Ord K] in
/-- A private copy is no version of the index. -/
theorem holdsVersion_eq_false (numbered : current.Numbered) (copies : ∀ t ∈ h.trees, t.Private)
    : h.holdsVersion current = false := by
  rw [holdsVersion, List.any_eq_false]
  intro t member
  have apart := numbered.version
  rw [beq_iff_eq, (copies t member).version]
  omega

/-- A private copy has no bucket of the index. -/
theorem Private.holdsBucket_eq_false (copies : h.Private) (numbered : current.Numbered) (key : K)
    : h.holdsBucket current key = false := by
  rw [holdsBucket, Bool.or_eq_false_iff, Option.any_eq_false, List.any_eq_false]
  constructor
  · intro leaf found
    have apart := numbered.revisions leaf (List.mem_of_find?_eq_some found)
    simp only [List.contains_eq_mem, decide_eq_false_iff_not]
    intro kept
    rw [copies.revisions _ kept] at apart
    exact absurd apart (Nat.lt_irrefl 0)
  · intro t member
    rw [numbered.not_sharesBucket (copies.trees t member)]
    exact Bool.false_ne_true

end Holdings

namespace Store

variable {s : Store K V} {held : Holdings K V}

/-- The current version of a reachable store has the number of a write, by induction over what was
asked of it.
-/
theorem Reachable.numbered (h : s.Reachable) : s.contents.tree.Numbered := by
  induction h with
  | created _ _ _ _ => exact Tree.numbered_empty
  | written _ held w ih =>
      rw [contents_perform]
      exact Contents.numbered_perform ih w
  | scanned _ d ih =>
      rw [contents_scan]
      exact ih
  | paged _ d limit ih =>
      rw [contents_page]
      exact ih

/-! ## Writes -/

theorem treeCopies_chargeCopies (held : Holdings K V) (c : Contents K V) (m : Metrics) (key : K)
    : (chargeCopies held c m key).treeCopies
      = if held.holdsVersion c.tree then m.treeCopies + 1 else m.treeCopies := by
  unfold chargeCopies Metrics.countIf
  split <;> split <;> rfl

/-- An effective change is charged for the tree if its version is kept. -/
theorem treeCopies_charge (held : Holdings K V) (c : Contents K V) (m : Metrics)
    (change : Change K V)
    : (charge held c m change).treeCopies
      = if change.isEffective ∧ held.holdsVersion c.tree then m.treeCopies + 1
        else m.treeCopies := by
  cases change with
  | link key entry =>
      simp only [Change.isEffective, true_and]
      exact treeCopies_chargeCopies held c m key
  | unlink key record =>
      simp only [Change.isEffective, true_and]
      exact treeCopies_chargeCopies held c m key
  | miss key record =>
      simp only [Change.isEffective, Bool.false_eq_true, false_and, if_false]
      rfl

theorem bucketCopies_charge_of_unheld (unheld : ∀ key, held.holdsBucket c.tree key = false)
    (m : Metrics) (change : Change K V)
    : (charge held c m change).bucketCopies = m.bucketCopies := by
  have copies (key : K) : (chargeCopies held c m key).bucketCopies = m.bucketCopies := by
    unfold chargeCopies Metrics.countIf
    rw [unheld key]
    simp only [Bool.false_eq_true, if_false]
    split <;> rfl
  cases change with
  | link key entry => exact copies key
  | unlink key record => exact copies key
  | miss key record => rfl

theorem write_cons (s : Store K V) (held : Holdings K V) (change : Change K V)
    (rest : List (Change K V))
    : s.write held (change :: rest)
      = { s with
          contents := s.contents.apply change
          metrics := charge held s.contents s.metrics change }.write held rest :=
  rfl

/-- While only private copies are kept, no tree is copied. -/
theorem treeCopies_write_of_private (numbered : s.contents.tree.Numbered)
    (copies : ∀ t ∈ held.trees, t.Private) (changes : List (Change K V))
    : (s.write held changes).metrics.treeCopies = s.metrics.treeCopies := by
  induction changes generalizing s with
  | nil => rfl
  | cons change rest ih =>
      have unheld := Holdings.holdsVersion_eq_false numbered copies
      rw [write_cons, ih (Contents.numbered_apply numbered change), treeCopies_charge, unheld]
      simp

/-- While only private copies are kept, no bucket is copied. -/
theorem bucketCopies_write_of_private (numbered : s.contents.tree.Numbered) (copies : held.Private)
    (changes : List (Change K V))
    : (s.write held changes).metrics.bucketCopies = s.metrics.bucketCopies := by
  induction changes generalizing s with
  | nil => rfl
  | cons change rest ih =>
      rw [write_cons, ih (Contents.numbered_apply numbered change)]
      exact bucketCopies_charge_of_unheld (copies.holdsBucket_eq_false numbered) _ change

/-- If no version is kept that is later than the current one, the changes of a plan copy the tree
once if there is an effective one and the current version is kept, and only the first of them does.
-/
theorem treeCopies_write {changes : List (Change K V)} (shape : s.contents.PlanShape changes)
    (bound : ∀ t ∈ held.trees, t.version ≤ s.contents.tree.version)
    : (s.write held changes).metrics.treeCopies
      = if changes.any (·.isEffective) ∧ held.holdsVersion s.contents.tree then
          s.metrics.treeCopies + 1
        else s.metrics.treeCopies := by
  have single (change : Change K V)
      : (s.write held [change]).metrics.treeCopies
        = if [change].any (·.isEffective) ∧ held.holdsVersion s.contents.tree then
            s.metrics.treeCopies + 1
          else s.metrics.treeCopies := by
    rw [List.any_cons, List.any_nil, Bool.or_false]
    exact treeCopies_charge held _ _ change
  cases shape with
  | nothing => simp [write]
  | miss _ => exact single _
  | unlink _ => exact single _
  | link _ => exact single _
  | @move oldKey key entry found =>
      have fresh : held.holdsVersion (s.contents.apply (.unlink oldKey entry.record)).tree
          = false := by
        rw [Holdings.holdsVersion, List.any_eq_false, Contents.version_unlink found]
        intro t member
        have := bound t member
        simp only [beq_iff_eq]
        omega
      rw [write_cons, write_cons]
      change (charge held _ _ _).treeCopies = _
      rw [treeCopies_charge, fresh, treeCopies_charge]
      simp [Change.isEffective]

/-- A write charges for copies what its plan does. -/
theorem copies_perform (s : Store K V) (held : Holdings K V) (w : Write K V)
    : (s.perform held w).metrics.treeCopies
        = (s.write held (s.contents.plan w)).metrics.treeCopies
      ∧ (s.perform held w).metrics.bucketCopies
        = (s.write held (s.contents.plan w)).metrics.bucketCopies := by
  cases w <;> exact ⟨rfl, rfl⟩

theorem treeCopies_perform_of_private (numbered : s.contents.tree.Numbered)
    (copies : ∀ t ∈ held.trees, t.Private) (w : Write K V)
    : (s.perform held w).metrics.treeCopies = s.metrics.treeCopies :=
  (s.copies_perform held w).1.trans (treeCopies_write_of_private numbered copies _)

theorem bucketCopies_perform_of_private (numbered : s.contents.tree.Numbered)
    (copies : held.Private) (w : Write K V)
    : (s.perform held w).metrics.bucketCopies = s.metrics.bucketCopies :=
  (s.copies_perform held w).2.trans (bucketCopies_write_of_private numbered copies _)

/-- An effective write copies the tree once if its current version is kept, and no other write does,
whether it puts an entry where its record was or moves the record there.
-/
theorem treeCopies_perform [Std.TransOrd K] (h : s.contents.Coherent)
    (bound : ∀ t ∈ held.trees, t.version ≤ s.contents.tree.version) (w : Write K V)
    : (s.perform held w).metrics.treeCopies
      = if s.contents.Effective w ∧ held.holdsVersion s.contents.tree then s.metrics.treeCopies + 1
        else s.metrics.treeCopies := by
  rw [(s.copies_perform held w).1, treeCopies_write (h.planShape w) bound]
  simp only [Contents.any_isEffective_plan]

theorem visibility_perform (s : Store K V) (held : Holdings K V) (w : Write K V)
    : (s.perform held w).visibility = s.visibility := by
  cases w <;> rfl

/-! ## Scans -/

/-- One store is read as the other, and nothing was copied for a writer in between. -/
structure Quiet (s t : Store K V) : Prop where
  visibility : t.visibility = s.visibility
  treeCopies : t.metrics.treeCopies = s.metrics.treeCopies
  bucketCopies : t.metrics.bucketCopies = s.metrics.bucketCopies

omit [Ord K] in
theorem Quiet.trans {s t u : Store K V} (h : s.Quiet t) (g : t.Quiet u) : s.Quiet u where
  visibility := g.visibility.trans h.visibility
  treeCopies := g.treeCopies.trans h.treeCopies
  bucketCopies := g.bucketCopies.trans h.bucketCopies

omit [Ord K] in
theorem quiet_resolve (s : Store K V) (cursor : Cursor) : s.Quiet (s.resolve cursor).2 := by
  unfold resolve
  cases s.contents.locator.resolve cursor with
  | none => exact ⟨rfl, rfl, rfl⟩
  | some r => cases r <;> exact ⟨rfl, rfl, rfl⟩

theorem quiet_openScan (s : Store K V) (d : Descriptor K) (resume : Option (Position K))
    : s.Quiet (s.openScan d resume).2 := by
  unfold openScan
  simp only [count]
  split <;> exact ⟨rfl, rfl, rfl⟩

/-- No scan copies anything for a writer. -/
theorem quiet_scan (s : Store K V) (d : Descriptor K) : s.Quiet (s.scan d).2 := by
  have course := s.scanCourse d
  generalize (s.scan d).1 = answer, (s.scan d).2 = t at course ⊢
  cases course with
  | refused _ => exact ⟨rfl, rfl, rfl⟩
  | empty _ _ => exact ⟨rfl, rfl, rfl⟩
  | fresh _ _ _ => exact s.quiet_openScan d none
  | resumed _ _ _ _ => exact (s.quiet_resolve _).trans (quiet_openScan _ _ _)
  | unknown _ _ _ _ => exact s.quiet_resolve _

/-- A scan of a range that can hold keys is opened on a store that holds what this one does and has
been charged as much for private copies.
-/
theorem scan_eq_openScan {d : Descriptor K} {scan : Scan K V} (opened : (s.scan d).1 = .ok scan)
    (possible : d.isEmptyRange = false)
    : ∃ t resume, (s.scan d).2 = (openScan t d resume).2 ∧ s.Quiet t ∧ t.contents = s.contents
        ∧ t.metrics.readCopies = s.metrics.readCopies := by
  have course := s.scanCourse d
  rw [opened] at course
  generalize (s.scan d).2 = after at course ⊢
  cases course with
  | empty _ nothing => simp [possible] at nothing
  | fresh _ _ _ => exact ⟨s, none, rfl, ⟨rfl, rfl, rfl⟩, rfl, rfl⟩
  | @resumed cursor r _ _ _ resolved =>
      refine ⟨_, _, rfl, s.quiet_resolve cursor, s.contents_resolve cursor, ?_⟩
      cases r <;> simp only [resolve, resolved] <;> rfl

/-- A scan that reads a private copy is charged for the keys in its range. -/
theorem readCopies_scan [Std.TransOrd K] (isolated : s.visibility = .copyOnRead) {d : Descriptor K}
    {scan : Scan K V} (opened : (s.scan d).1 = .ok scan) (possible : d.isEmptyRange = false)
    : (s.scan d).2.metrics.readCopies
      = s.metrics.readCopies + UInt64.ofNat (s.contents.tree.leaves.filter fun leaf =>
          d.contains leaf.key).length := by
  obtain ⟨t, resume, after, quiet, contents, before⟩ := scan_eq_openScan opened possible
  have copied : (t.contents.tree.restrictedTo d).keyCount
      = (t.contents.tree.leaves.filter fun leaf => d.contains leaf.key).length := by
    rw [Tree.keyCount, Tree.leaves_restrictedTo _ possible, List.length_map]
  rw [after, openScan, ← before, ← contents, ← copied]
  simp only [count, quiet.visibility, isolated]
  rfl

end Store

end PagedIndex
