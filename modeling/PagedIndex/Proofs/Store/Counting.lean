import PagedIndex.Proofs.Store.Requests

/-! What requests are counted as. A write is counted by the changes of its plan, one of which may be
the miss of a removal; an attempt to scan is counted by what came of it. The counters of a store are
the sums of these over all requests, apart from the copies, which depend on what readers hold.
-/

namespace PagedIndex

/-- Copies are counted for what readers hold, and not for requests. -/
def Counter.OfCopies : Counter → Prop
  | treeCopies | bucketCopies | readCopies => True
  | inserts | removes | noopRemoves | scans | scansRejected | cursorResumes | staleCursorResumes
  | unknownCursors => False

/-- What a change is counted as. -/
def Change.counter : Change K V → Counter
  | link _ _ => .inserts
  | unlink _ _ => .removes
  | miss _ _ => .noopRemoves

/-- Every request that puts an entry somewhere. -/
def Request.places : Request K V → Bool
  | write _ (.insert _ _) | write _ (.update _ _ _) => true
  | write _ (.remove _ _) | write _ .clear | scan _ | page _ _ | defaultPage _ | lookup _
  | lookupAny _ => false

namespace Attempt

/-- A scan was opened. -/
@[simp] def opened (a : Attempt K) : Bool := a.fault.isNone

/-- The attempt was refused for its arguments. -/
@[simp] def rejected (a : Attempt K) : Bool :=
  a.fault.any fun
    | .invalidArgument _ => true
    | .unknownCursor _ | .malformedCursor _ | .invalidConfig _ => false

/-- The attempt was refused since its cursor stood for nothing. -/
@[simp] def unknown (a : Attempt K) : Bool :=
  a.fault.any fun
    | .unknownCursor _ => true
    | .invalidArgument _ | .malformedCursor _ | .invalidConfig _ => false

variable [Ord K]

/-- A scan of a range that can hold keys was opened after a cursor. -/
@[simp] def resumed (a : Attempt K) : Bool :=
  a.opened && !a.descriptor.isEmptyRange && a.descriptor.cursor.isSome

/-- It was opened after a live record. -/
@[simp] def resumedLive (a : Attempt K) : Bool := a.resumed && a.resolution.any (!·.isStale)

/-- It was opened after a removed record. -/
@[simp] def resumedStale (a : Attempt K) : Bool := a.resumed && a.resolution.any (·.isStale)

/-- Whether an attempt is counted as something. -/
def counts (a : Attempt K) : Counter → Bool
  | .scans => a.opened
  | .scansRejected => a.rejected
  | .unknownCursors => a.unknown
  | .cursorResumes => a.resumedLive
  | .staleCursorResumes => a.resumedStale
  | .inserts | .removes | .noopRemoves | .treeCopies | .bucketCopies | .readCopies => false

end Attempt

namespace Store

variable [Ord K] {s t u : Store K V}

/-- A request is a removal that finds nothing. -/
def misses (s : Store K V) : Request K V → Bool
  | .write held (.remove key record) => !(s.remove held key record).1
  | _ => false

/-- How often a request is counted as something. -/
def tally (s : Store K V) (r : Request K V) (c : Counter) : Nat :=
  match r with
  | .write _ w => (s.contents.plan w).countP (·.counter == c)
  | r => (s.attempts r).countP (·.counts c)

/-- How often the requests of a run are counted as something. -/
def total (s : Store K V) (requests : List (Request K V)) (c : Counter) : Nat :=
  ((s.history requests).map fun x => x.1.tally x.2 c).sum

/-- The counters of one store are those of another one and some more, leaving copies aside. -/
def Counts (s t : Store K V) (more : Counter → Nat) : Prop :=
  ∀ c, ¬ c.OfCopies → t.metrics.get c = s.metrics.get c + UInt64.ofNat (more c)

namespace Counts

omit [Ord K] in
theorem refl (s : Store K V) : s.Counts s fun _ => 0 := by
  intro c _
  simp

omit [Ord K] in
theorem trans {more further : Counter → Nat} (h : s.Counts t more) (g : t.Counts u further)
    : s.Counts u fun c => more c + further c := by
  intro c own
  rw [g c own, h c own, UInt64.ofNat_add, UInt64.add_assoc]

omit [Ord K] in
theorem congr {more other : Counter → Nat} (h : s.Counts t more)
    (same : ∀ c, ¬ c.OfCopies → more c = other c)
    : s.Counts t other := by
  intro c own
  rw [h c own, same c own]

end Counts

omit [Ord K] in
/-- Counting one happening. -/
theorem counts_count (s : Store K V) (counter : Counter)
    : s.Counts (s.count counter) fun c => if c = counter then 1 else 0 := by
  intro c _
  simp only [count, Metrics.count, Metrics.get_add]
  split
  next same => rw [same]; rfl
  next => simp

/-! ## Attempts -/

omit [Ord K] in
/-- A cursor that stands for a position is counted as a live one or as one of a removed record. -/
theorem counts_resolve {cursor : Cursor} {r : Resolution K}
    (resolved : s.contents.locator.resolve cursor = some r)
    : s.Counts (s.resolve cursor).2 fun c =>
        if c = (if r.isStale then .staleCursorResumes else .cursorResumes) then 1 else 0 := by
  cases r with
  | live p =>
      simp only [resolve, resolved]
      exact s.counts_count .cursorResumes
  | retired p =>
      simp only [resolve, resolved]
      exact s.counts_count .staleCursorResumes

/-- Opening a scan is counted as one. -/
theorem counts_openScan (s : Store K V) (d : Descriptor K) (resume : Option (Position K))
    : s.Counts (s.openScan d resume).2 fun c => if c = .scans then 1 else 0 := by
  intro c own
  have opened := s.counts_count .scans c own
  unfold openScan
  simp only
  split
  · exact opened
  · exact opened
  · -- The copies that the reader was given are counted apart.
    have apart : c ≠ .readCopies := by
      rintro rfl
      exact own trivial
    rw [← opened, Metrics.get_add, if_neg apart]

omit [Ord K] in
/-- A scan that is refused for its descriptor is refused for an argument. -/
theorem invalidArgument_of_validate {d : Descriptor K} {fault : Fault}
    (invalid : d.validate = .error fault) : ∃ reason, fault = .invalidArgument reason := by
  unfold Descriptor.validate at invalid
  split at invalid
  · exact ⟨_, (Except.error.inj invalid).symm⟩
  · simp at invalid

/-- A request for a scan is counted by what comes of it. -/
theorem counts_scan (s : Store K V) (d : Descriptor K)
    : s.Counts (s.scan d).2 fun c => ((s.attempt d (s.scan d).1).counts c).toNat := by
  have course := s.scanCourse d
  generalize (s.scan d).1 = answer, (s.scan d).2 = t at course ⊢
  cases course with
  | refused invalid =>
      obtain ⟨reason, rfl⟩ := invalidArgument_of_validate invalid
      refine (s.counts_count .scansRejected).congr fun c _ => ?_
      cases c <;> simp [attempt, Attempt.counts, Fault.of?]
  | empty valid nothing =>
      refine (s.counts_count .scans).congr fun c _ => ?_
      cases c <;> simp [attempt, Attempt.counts, Fault.of?, nothing]
  | fresh valid possible start =>
      refine (s.counts_openScan d none).congr fun c _ => ?_
      cases c <;> simp [attempt, Attempt.counts, Fault.of?, start]
  | @resumed cursor r valid possible carried resolved =>
      refine ((counts_resolve resolved).trans (counts_openScan _ d _)).congr fun c _ => ?_
      cases r <;> cases c <;>
        simp [attempt, Attempt.counts, Fault.of?, possible, carried, resolved, Resolution.isStale]
  | @unknown cursor valid possible carried unresolved =>
      have counted
          : s.Counts (s.resolve cursor).2 fun c => if c = .unknownCursors then 1 else 0 := by
        simp only [resolve, unresolved]
        exact s.counts_count .unknownCursors
      refine counted.congr fun c _ => ?_
      cases c <;> simp [attempt, Attempt.counts, Fault.of?]

/-- A page with room for entries comes to the same end as the scan that it reads. -/
theorem attempt_page {d : Descriptor K} {limit : Nat} (room : limit ≠ 0)
    : s.attempt d (s.page d limit).1 = s.attempt d (s.scan d).1 := by
  have answer : Fault.of? (s.page d limit).1 = Fault.of? (s.scan d).1 := by
    simp only [page, room, if_false, scanEntries]
    cases (s.scan d).1 <;> rfl
  simp only [attempt, answer]

/-- A page is counted as the scan that it reads, or as one that is refused for its limit. -/
theorem counts_page (s : Store K V) (d : Descriptor K) (limit : Nat)
    : s.Counts (s.page d limit).2 fun c =>
        ((s.attempt d (s.page d limit).1).counts c).toNat := by
  by_cases none : limit = 0
  · have refused : s.page d limit = (.error .zeroPageLimit, s.reject .zeroPageLimit) := by
      simp [page, none]
    rw [refused]
    refine (s.counts_count .scansRejected).congr fun c _ => ?_
    cases c <;> simp [attempt, Attempt.counts, Fault.of?, Fault.zeroPageLimit]
  · have store : (s.page d limit).2 = (s.scan d).2 := by
      simp only [page, none, if_false]
      rfl
    rw [attempt_page none, store]
    exact s.counts_scan d

/-- Attempts on stores that are read alike are answered alike. -/
theorem Twin.attempt_eq (h : s.Twin t) (d : Descriptor K)
    : t.attempt d (t.scan d).1 = s.attempt d (s.scan d).1 := by
  simp only [attempt, h.scan_eq, h.contents]

/-- A look-up of several values is counted as a scan for each of them. -/
theorem counts_lookupAny (s : Store K V) (values : List K)
    : s.Counts (s.lookupAny values).2 fun c =>
        (s.attempts (.lookupAny values)).countP (·.counts c) := by
  rw [store_lookupAny]
  simp only [attempts, List.countP_map, Function.comp_def]
  generalize Ordered.distinct values = different
  -- The stores in between are all read like the first one.
  have fold : ∀ {t : Store K V}, s.Twin t
      → t.Counts (different.foldl (fun t value => (t.lookupEqual value).2) t) fun c =>
          different.countP fun value =>
            (s.attempt (.equality value .ascending)
              (s.scan (.equality value .ascending)).1).counts c := by
    induction different with
    | nil => exact fun {t} _ => .refl t
    | cons value rest ih =>
        intro t twin
        have first := t.counts_scan (.equality value .ascending)
        rw [twin.attempt_eq] at first
        have later := ih (twin.trans (t.twin_scan (.equality value .ascending)))
        refine (first.trans later).congr fun c _ => ?_
        rw [List.countP_cons, Nat.add_comm, Bool.toNat, Bool.cond_eq_ite]
  exact fold (.refl s)

/-! ## Writes -/

/-- Counting copies leaves the other counters alone. -/
theorem get_chargeCopies (held : Holdings K V) (c : Contents K V) (m : Metrics) (key : K)
    {counter : Counter} (own : ¬ counter.OfCopies)
    : (chargeCopies held c m key).get counter = m.get counter := by
  have copies (copied : Counter) (apart : copied.OfCopies) {n : Metrics} {condition : Bool}
      : (n.countIf condition copied).get counter = n.get counter := by
    have different : counter ≠ copied := by
      rintro rfl
      exact own apart
    unfold Metrics.countIf
    split
    · rw [Metrics.count, Metrics.get_add, if_neg different]
    · rfl
  rw [chargeCopies, copies .bucketCopies trivial, copies .treeCopies trivial]

/-- A change is counted as what it is. -/
theorem get_charge (held : Holdings K V) (c : Contents K V) (m : Metrics) (change : Change K V)
    {counter : Counter} (own : ¬ counter.OfCopies)
    : (charge held c m change).get counter
      = m.get counter + UInt64.ofNat (if change.counter = counter then 1 else 0) := by
  obtain ⟨n, charged, before⟩ : ∃ n : Metrics, charge held c m change = n.count change.counter
      ∧ n.get counter = m.get counter := by
    cases change with
    | link key entry => exact ⟨_, rfl, get_chargeCopies held c m key own⟩
    | unlink key record => exact ⟨_, rfl, get_chargeCopies held c m key own⟩
    | miss key record => exact ⟨_, rfl, rfl⟩
  rw [charged, Metrics.count, Metrics.get_add, ← before]
  by_cases same : counter = change.counter
  · rw [if_pos same, if_pos same.symm, ← same]
    rfl
  · rw [if_neg same, if_neg (Ne.symm same)]
    simp

/-- Changes that are written are counted one by one. -/
theorem counts_write (s : Store K V) (held : Holdings K V) (changes : List (Change K V))
    : s.Counts (s.write held changes) fun c => changes.countP (·.counter == c) := by
  induction changes generalizing s with
  | nil => exact .refl s
  | cons change rest ih =>
      intro counter own
      simp only [List.countP_cons, beq_iff_eq]
      rw [write_cons, ih _ counter own, get_charge held s.contents s.metrics change own,
        UInt64.add_assoc, ← UInt64.ofNat_add, Nat.add_comm]

/-! ## Runs -/

/-- A request adds to the counters what it is counted as. -/
theorem counts_serve (s : Store K V) (r : Request K V) : s.Counts (s.serve r) (s.tally r) := by
  cases r with
  | write held w =>
      cases w with
      | insert key entry => exact s.counts_write held (s.contents.insertion key entry)
      | remove key record => exact s.counts_write held (s.contents.removal key record)
      | update oldKey newKey entry =>
          exact s.counts_write held (s.contents.relocation oldKey newKey entry)
      | clear => exact .refl s
  | lookupAny values => exact s.counts_lookupAny values
  | scan d =>
      refine (s.counts_scan d).congr fun c _ => ?_
      simp [tally, attempts, Bool.toNat, Bool.cond_eq_ite]
  | page d limit =>
      refine (s.counts_page d limit).congr fun c _ => ?_
      simp [tally, attempts, Bool.toNat, Bool.cond_eq_ite]
  | defaultPage d =>
      refine (s.counts_page d s.pageSize).congr fun c _ => ?_
      simp [tally, attempts, defaultPage, Bool.toNat, Bool.cond_eq_ite]
  | lookup d =>
      refine (s.counts_scan d).congr fun c _ => ?_
      simp [tally, attempts, Bool.toNat, Bool.cond_eq_ite]

/-- A run of requests adds what they are counted as altogether, by induction over the run. -/
theorem counts_serveAll (s : Store K V) (requests : List (Request K V))
    : s.Counts (s.serveAll requests) (s.total requests) := by
  induction requests generalizing s with
  | nil => exact .refl s
  | cons r rest ih =>
      refine ((s.counts_serve r).trans (ih (s.serve r))).congr fun c _ => ?_
      simp [total, history]

end Store

end PagedIndex
