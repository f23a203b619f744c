import PagedIndex.Proofs.Store.Charges
import PagedIndex.Proofs.Store.Scans
import PagedIndex.Store.Lookup

/-! Requests to a store and what comes of them. A request writes, or it asks for scans: one for a
scan, a page or a look-up, and one for each value of a look-up of several. What a store answers
depends on what it holds and how it is read, not on what it has counted, so a request that only
reads makes no difference to any later one.
-/

namespace PagedIndex

/-- What can be asked of a store. The look-ups of one key, of a comparison and of a range are those
of descriptors.
-/
inductive Request (K : Type u) (V : Type v) where
  | write (held : Holdings K V) (w : Write K V)
  | scan (d : Descriptor K)
  | page (d : Descriptor K) (limit : Nat)
  | defaultPage (d : Descriptor K)
  | lookup (d : Descriptor K)
  | lookupAny (values : List K)

/-- A request only reads. -/
def Request.Reads : Request K V → Prop
  | write _ _ => False
  | scan _ | page _ _ | defaultPage _ | lookup _ | lookupAny _ => True

instance : DecidablePred (Request.Reads (K := K) (V := V))
  | .write _ _ => inferInstanceAs (Decidable False)
  | .scan _ | .page _ _ | .defaultPage _ | .lookup _ | .lookupAny _ =>
    inferInstanceAs (Decidable True)

/-- A scan that was asked for, be it for a page or for a look-up. -/
structure Attempt (K : Type u) where
  descriptor : Descriptor K
  /-- What its cursor stood for at that moment. -/
  resolution : Option (Resolution K)
  /-- Why it was refused, if it was. -/
  fault : Option Fault

/-- The fault of an answer. -/
def Fault.of? : Except Fault α → Option Fault
  | .ok _ => none
  | .error fault => some fault

namespace Store

variable [Ord K]

/-- The store after a request. -/
def serve (s : Store K V) : Request K V → Store K V
  | .write held w => s.perform held w
  | .scan d => (s.scan d).2
  | .page d limit => (s.page d limit).2
  | .defaultPage d => (s.defaultPage d).2
  | .lookup d => (s.lookup d).2
  | .lookupAny values => (s.lookupAny values).2

/-- The store after some requests, one after the other. -/
def serveAll (s : Store K V) (requests : List (Request K V)) : Store K V := requests.foldl serve s

/-- The requests of a run, each with the store that it finds. -/
def history (s : Store K V) : List (Request K V) → List (Store K V × Request K V)
  | [] => []
  | r :: rest => (s, r) :: (s.serve r).history rest

/-- An attempt to scan that is answered so. -/
def attempt (s : Store K V) (d : Descriptor K) (answer : Except Fault α) : Attempt K :=
  { descriptor := d
    resolution := d.cursor.bind s.contents.locator.resolve
    fault := Fault.of? answer }

/-- The scans that a request asks for. -/
def attempts (s : Store K V) : Request K V → List (Attempt K)
  | .write _ _ => []
  | .scan d => [s.attempt d (s.scan d).1]
  | .page d limit => [s.attempt d (s.page d limit).1]
  | .defaultPage d => [s.attempt d (s.defaultPage d).1]
  | .lookup d => [s.attempt d (s.scan d).1]
  | .lookupAny values =>
    (Ordered.distinct values).map fun value =>
      s.attempt (.equality value .ascending) (s.scan (.equality value .ascending)).1

/-! ## Stores that are read alike -/

/-- Two stores hold the same and are read in the same way, whatever they have counted and logged. -/
structure Twin (s t : Store K V) : Prop where
  contents : t.contents = s.contents
  visibility : t.visibility = s.visibility
  pageSize : t.pageSize = s.pageSize

variable {s t u : Store K V}

namespace Twin

omit [Ord K] in
theorem refl (s : Store K V) : s.Twin s := ⟨rfl, rfl, rfl⟩

omit [Ord K] in
theorem symm (h : s.Twin t) : t.Twin s := ⟨h.contents.symm, h.visibility.symm, h.pageSize.symm⟩

omit [Ord K] in
theorem trans (h : s.Twin t) (g : t.Twin u) : s.Twin u where
  contents := g.contents.trans h.contents
  visibility := g.visibility.trans h.visibility
  pageSize := g.pageSize.trans h.pageSize

end Twin

omit [Ord K] in
theorem twin_resolve (s : Store K V) (cursor : Cursor) : s.Twin (s.resolve cursor).2 := by
  unfold resolve
  cases s.contents.locator.resolve cursor with
  | none => exact ⟨rfl, rfl, rfl⟩
  | some r => cases r <;> exact ⟨rfl, rfl, rfl⟩

theorem twin_openScan (s : Store K V) (d : Descriptor K) (resume : Option (Position K))
    : s.Twin (s.openScan d resume).2 := by
  unfold openScan
  simp only [count]
  split <;> exact ⟨rfl, rfl, rfl⟩

theorem twin_scan (s : Store K V) (d : Descriptor K) : s.Twin (s.scan d).2 := by
  have course := s.scanCourse d
  generalize (s.scan d).1 = answer, (s.scan d).2 = t at course ⊢
  cases course with
  | refused _ => exact ⟨rfl, rfl, rfl⟩
  | empty _ _ => exact ⟨rfl, rfl, rfl⟩
  | fresh _ _ _ => exact s.twin_openScan d none
  | resumed _ _ _ _ => exact (s.twin_resolve _).trans (twin_openScan _ _ _)
  | unknown _ _ _ _ => exact s.twin_resolve _

theorem twin_page (s : Store K V) (d : Descriptor K) (limit : Nat)
    : s.Twin (s.page d limit).2 := by
  unfold page
  split
  · exact ⟨rfl, rfl, rfl⟩
  · exact s.twin_scan d

/-- A look-up of several values leaves what looking up one after the other leaves. -/
theorem store_lookupAny (s : Store K V) (values : List K)
    : (s.lookupAny values).2
      = (Ordered.distinct values).foldl (fun t value => (t.lookupEqual value).2) s := by
  have fold (found : List (Entry V)) (s : Store K V) (different : List K)
      : (different.foldl (fun x value =>
            (x.1 ++ (x.2.lookupEqual value).1, (x.2.lookupEqual value).2)) (found, s)).2
        = different.foldl (fun t value => (t.lookupEqual value).2) s := by
    induction different generalizing found s with
    | nil => rfl
    | cons value rest ih => exact ih _ _
  exact fold [] s _

theorem twin_lookupAny (s : Store K V) (values : List K) : s.Twin (s.lookupAny values).2 := by
  rw [store_lookupAny]
  induction Ordered.distinct values generalizing s with
  | nil => exact .refl s
  | cons value rest ih =>
      exact (s.twin_scan (.equality value .ascending)).trans (ih (s.lookupEqual value).2)

/-- A request that only reads leaves a store that is read alike. -/
theorem twin_serve (s : Store K V) {r : Request K V} (reads : r.Reads) : s.Twin (s.serve r) := by
  cases r with
  | write held w => exact reads.elim
  | scan d => exact s.twin_scan d
  | page d limit => exact s.twin_page d limit
  | defaultPage d => exact s.twin_page d s.pageSize
  | lookup d => exact s.twin_scan d
  | lookupAny values => exact s.twin_lookupAny values

theorem pageSize_perform (s : Store K V) (held : Holdings K V) (w : Write K V)
    : (s.perform held w).pageSize = s.pageSize := by
  cases w <;> rfl

namespace Twin

/-- The same request keeps stores alike. -/
theorem serve (h : s.Twin t) (r : Request K V) : (s.serve r).Twin (t.serve r) := by
  by_cases reads : r.Reads
  · exact (s.twin_serve reads).symm.trans (h.trans (t.twin_serve reads))
  · cases r with
    | write held w =>
        refine ⟨?_, ?_, ?_⟩
        · simp only [Store.serve, contents_perform, h.contents]
        · simp only [Store.serve, visibility_perform, h.visibility]
        · simp only [Store.serve, pageSize_perform, h.pageSize]
    | _ => exact absurd trivial reads

theorem serveAll (h : s.Twin t) (requests : List (Request K V))
    : (s.serveAll requests).Twin (t.serveAll requests) := by
  induction requests generalizing s t with
  | nil => exact h
  | cons r rest ih => exact ih (h.serve r)

theorem viewFor_eq (h : s.Twin t) (d : Descriptor K) : t.viewFor d = s.viewFor d := by
  unfold viewFor
  rw [h.visibility, h.contents]

/-- Stores that are read alike answer a scan alike. -/
theorem scan_eq (h : s.Twin t) (d : Descriptor K) : (t.scan d).1 = (s.scan d).1 := by
  have course := s.scanCourse d
  generalize (s.scan d).1 = answer, (s.scan d).2 = after at course ⊢
  cases course with
  | refused invalid => exact scan_eq_error invalid
  | empty valid nothing => exact scan_eq_nothing valid nothing
  | fresh valid possible start =>
      have resumes : t.Resumes d none := by
        unfold Resumes
        rw [start]
      rw [Store.scan_eq valid possible resumes, openScan_eq, h.viewFor_eq]
  | @resumed cursor r valid possible carried resolved =>
      have resumes : t.Resumes d (some r.position) := by
        unfold Resumes
        rw [carried]
        exact ⟨r, h.contents ▸ resolved, rfl⟩
      rw [Store.scan_eq valid possible resumes, openScan_eq, viewFor_resolve, h.viewFor_eq]
  | unknown valid possible carried unresolved =>
      exact scan_eq_unknown valid possible carried (h.contents ▸ unresolved)

/-- They deliver the same groups, too. -/
theorem scanGroups_eq (h : s.Twin t) (d : Descriptor K)
    : (t.scanGroups d).1 = (s.scanGroups d).1 := by
  change (t.scan d).1.map (·.groups (t.scan d).2.contents.tree)
    = (s.scan d).1.map (·.groups (s.scan d).2.contents.tree)
  rw [h.scan_eq, contents_scan, contents_scan, h.contents]

end Twin

end Store

end PagedIndex
