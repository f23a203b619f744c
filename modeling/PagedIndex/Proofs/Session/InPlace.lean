import PagedIndex.Proofs.Scan.Frontier
import PagedIndex.Proofs.Session.Runs
import PagedIndex.Proofs.Store.Scans

/-! Scans in place. Such a scan looks at the index anew for every group, so what it yields depends
on what is written between its pulls. Still it only moves forward, and an entry that keeps its
position is either still ahead of it or has been yielded once.
-/

namespace PagedIndex

open Std

/-- A record lives at a position in all of some contents. -/
def Contents.LivesAt [Ord K] (moments : List (Contents K V)) (record : RecordKey) (p : Position K)
    : Prop :=
  ∀ m ∈ moments, ∃ q ∈ m.locator.live? record, p.compare .ascending q = .eq

instance [Ord K] (moments : List (Contents K V)) (record : RecordKey) (p : Position K)
    : Decidable (Contents.LivesAt moments record p) :=
  inferInstanceAs (Decidable (∀ m ∈ moments, ∃ q ∈ m.locator.live? record, _))

/-- The records of the entries of a group that are not consumed yet. -/
def Group.records (g : Group K V) : List RecordKey := g.pending.map (·.record)

namespace Scan

variable [Ord K] [TransOrd K] {s : Scan K V} {d : Descriptor K} {resume : Option (Position K)}
  {c : Contents K V} {record : RecordKey} {p q : Position K}

/-- Scans that still get to a record due to them are those that still get to the leaf that has it.
-/
theorem exists_home (coherent : c.Coherent) (live : c.locator.live? record = some q)
    (same : p.compare .ascending q = .eq) (inside : d.contains p.key = true)
    (beyond : q.isBeyond d.direction resume = true)
    : ∃ home ∈ c.tree.leaves, compare home.key q.key = .eq
        ∧ ∀ s : Scan K V, s.awaits p.key = true ↔ home ∈ s.toMeet c.tree d resume := by
  obtain ⟨home, member, atKey, _⟩ := coherent.exists_leaf live
  refine ⟨home, member, atKey, fun s => ?_⟩
  have here : compare home.key p.key = .eq :=
    TransCmp.eq_trans atKey (OrientedCmp.eq_symm ((Position.compare_eq_iff _).mp same).1)
  have due : home.due d.direction resume ≠ [] := by
    intro nothing
    have once := coherent.count_due member live beyond
    simp [nothing, atKey] at once
  rw [mem_toMeet_iff, d.contains_congr here, s.awaits_congr here]
  simp [member, inside, due]

/-- A pull neither loses nor repeats a live record: one that the scan still gets to is yielded, or
the scan gets to it later, but not both; and one that it has passed is not yielded.
-/
theorem Follows.count_next (h : s.Follows d resume) (coherent : c.Coherent)
    (live : c.locator.live? record = some q) (same : p.compare .ascending q = .eq)
    (inside : d.contains p.key = true) (beyond : p.isBeyond d.direction resume = true)
    : ((s.next c.tree).1.toList.flatMap Group.records).count record
        + ((s.next c.tree).2.awaits p.key).toNat
      = (s.awaits p.key).toNat := by
  rw [Position.isBeyond_congr (Position.compare_eq_of_eq _ same)] at beyond
  obtain ⟨home, member, atKey, awaits_iff_mem⟩ := exists_home coherent live same inside beyond
  have before := awaits_iff_mem s
  rcases h.next_cases coherent.tree with ⟨nothing, dry, done⟩ | ⟨leaf, rest, left, outcome⟩
  · have passed : s.awaits p.key = false := by simpa [nothing] using before
    have after : (s.next c.tree).2.awaits p.key = false := by simp [awaits, done]
    simp [dry, after, passed]
  · have after := awaits_iff_mem (s.passed leaf)
    rw [h.toMeet_passed coherent.tree left] at after
    rw [left, List.mem_cons] at before
    have there := (of_toMeet_eq_cons left).1
    have yielded : ((s.next c.tree).1.toList.flatMap Group.records).count record
        = if compare leaf.key q.key = .eq then 1 else 0 := by
      rw [outcome, ← coherent.count_due there live beyond]
      simp [Group.records, groupDue, Function.comp_def]
    rw [yielded, outcome]
    -- Leaves with equal keys are one leaf, and no leaf is met twice.
    by_cases found : home = leaf
    · subst found
      have sorted := s.sorted_toMeet d resume coherent.tree
      rw [left] at sorted
      have once : home ∉ rest := fun later => by
        simpa [ReflCmp.compare_self] using (List.pairwise_cons.mp sorted).1 home later
      have gone : (s.passed home).awaits p.key = false :=
        Bool.eq_false_iff.mpr fun later => once (after.mp later)
      have met : s.awaits p.key = true := before.mpr (Or.inl rfl)
      simp [atKey, gone, met]
    · have elsewhere : compare leaf.key q.key ≠ .eq := fun same => found
        (coherent.tree.eq_of_compare_eq member there
          (TransCmp.eq_trans atKey (OrientedCmp.eq_symm same)))
      have still : (s.passed leaf).awaits p.key = s.awaits p.key := by
        rw [Bool.eq_iff_iff, after, before, or_iff_right found]
      simp [elsewhere, still]

end Scan

namespace Session

variable [Ord K] {s : Session K V} {name : String} {scan : Scan K V} {d : Descriptor K}
  {resume : Option (Position K)} {actions : List (Action K V)}

/-- The groups that the pulls of a name yield in a run. -/
def yielded (s : Session K V) (name : String) (actions : List (Action K V)) : List (Group K V) :=
  (s.pulls name actions).flatMap (·.2.toList)

/-- What holds of a scan in place under a name through a run. -/
structure ScansInPlace (s : Session K V) (name : String) (d : Descriptor K)
    (resume : Option (Position K)) (actions : List (Action K V))
    : Prop where
  advancing
    : (s.yielded name actions).Pairwise fun a b => d.direction.compare a.key b.key = .lt
  /-- A group has what was due of its bucket at the moment of the pull. -/
  current
    : ∀ m group, (m, some group) ∈ s.pulls name actions
        → d.contains group.key = true ∧ group.HasDue m.tree d.direction resume
  /-- Set aside, it goes on having that. -/
  aside
    : ∀ aside group later, (s.run actions).pullAside name aside = (some group, later)
        → group.HasDue (s.run actions).store.contents.tree d.direction resume
          ∧ later.Serves aside group.pending
  complete
    : (∃ m, (m, none) ∈ s.pulls name actions)
        → ∀ record p, d.contains p.key = true → p.isBeyond d.direction resume = true
          → Contents.LivesAt (s.moments actions) record p
          → ((s.yielded name actions).flatMap Group.records).count record = 1

variable [TransOrd K]

namespace Course

theorem follows_run (course : Course name s scan actions) (h : s.store.Reachable)
    (follows : scan.Follows d resume)
    : ∃ later, (s.run actions).readers.get? name = some (.scan later)
        ∧ later.Follows d resume := by
  induction course with
  | ended here => exact ⟨_, here, follows⟩
  | rested _ _ ih => exact ih (reachable_act h _) follows
  | pulled _ _ ih => exact ih (reachable_act h _) (follows.next h.coherent.tree)

/-- Whatever is yielded in a run, the scan was still to get to it at the start. -/
theorem of_mem_pulls (course : Course name s scan actions) (h : s.store.Reachable)
    (follows : scan.Follows d resume) {m : Contents K V} {group : Group K V}
    (yields : (m, some group) ∈ s.pulls name actions)
    : scan.awaits group.key = true ∧ d.contains group.key = true
      ∧ group.HasDue m.tree d.direction resume := by
  induction course with
  | ended _ => exact absurd yields List.not_mem_nil
  | rested idle _ ih => exact ih (reachable_act h _) follows (idle ▸ yields)
  | pulled answer _ ih =>
      have ordered := h.coherent.tree
      rw [answer] at yields
      rcases List.mem_cons.mp yields with now | later
      · obtain ⟨rfl, pulled⟩ := Prod.mk.inj now
        exact follows.of_yield ordered pulled.symm
      · obtain ⟨awaited, rest⟩ := ih (reachable_act h _) (follows.next ordered) later
        exact ⟨(follows.of_awaits_next ordered awaited).1, rest⟩

theorem yielded_of_done (course : Course name s scan actions) (h : s.store.Reachable)
    (follows : scan.Follows d resume) (done : scan.done = true)
    : s.yielded name actions = [] := by
  refine List.flatMap_eq_nil_iff.mpr fun ⟨m, outcome⟩ yields => ?_
  cases outcome with
  | none => rfl
  | some group =>
      have awaited := (course.of_mem_pulls h follows yields).1
      simp [Scan.awaits, done] at awaited

/-- The keys that are yielded advance, by induction over the course of the scan. -/
theorem sorted_yielded (course : Course name s scan actions) (h : s.store.Reachable)
    (follows : scan.Follows d resume)
    : (s.yielded name actions).Pairwise fun a b => d.direction.compare a.key b.key = .lt := by
  unfold yielded
  induction course with
  | ended _ => exact .nil
  | rested idle _ ih => exact idle ▸ ih (reachable_act h _) follows
  | @pulled s scan a rest answer tail ih =>
      have ordered := h.coherent.tree
      have sorted := ih (reachable_act h _) (follows.next ordered)
      rw [answer]
      cases first : (scan.next s.store.contents.tree).1 with
      | none => exact sorted
      | some group =>
          refine List.pairwise_cons.mpr ⟨fun next member => ?_, sorted⟩
          obtain ⟨⟨m, _⟩, yields, there⟩ := List.mem_flatMap.mp member
          obtain rfl := Option.mem_toList.mp there
          have awaited := (tail.of_mem_pulls (reachable_act h _) (follows.next ordered) yields).1
          obtain ⟨_, _, same, beyond⟩ := follows.of_awaits_next ordered awaited
          obtain rfl := Option.some.inj (first.symm.trans same)
          exact beyond

/-- Once a scan has come to its end, it has yielded a record that has kept its position as often as
it was still to get to it, by induction over its course.
-/
theorem count_yielded (course : Course name s scan actions) (h : s.store.Reachable)
    (follows : scan.Follows d resume) {record : RecordKey} {p : Position K}
    (inside : d.contains p.key = true) (beyond : p.isBeyond d.direction resume = true)
    (lives : Contents.LivesAt (s.moments actions) record p)
    (ended : ∃ m, (m, none) ∈ s.pulls name actions)
    : ((s.yielded name actions).flatMap Group.records).count record
      = (scan.awaits p.key).toNat := by
  unfold yielded
  induction course with
  | ended _ =>
      obtain ⟨m, answer⟩ := ended
      exact absurd answer List.not_mem_nil
  | rested idle _ ih =>
      rw [idle] at ended ⊢
      refine ih (reachable_act h _) follows (fun m later => ?_) ended
      exact lives m (List.mem_cons_of_mem _ later)
  | @pulled s scan a rest answer tail ih =>
      have coherent := h.coherent
      have later := follows.next coherent.tree
      obtain ⟨q, live, same⟩ := lives s.store.contents (first_mem_moments s (a :: rest))
      have balance := follows.count_next coherent live same inside beyond
      -- Either the end comes later, or it has come with this pull and nothing is awaited after it.
      have others : (((s.act a).yielded name rest).flatMap Group.records).count record
          = ((scan.next s.store.contents.tree).2.awaits p.key).toNat := by
        obtain ⟨m, last⟩ := ended
        rw [answer] at last
        rcases List.mem_cons.mp last with now | further
        · have done := Scan.done_advance (Prod.mk.inj now).2.symm
          rw [tail.yielded_of_done (reachable_act h a) later done]
          simp [Scan.next, Scan.awaits, done]
        · refine ih (reachable_act h a) later (fun m member => ?_) ⟨m, further⟩
          exact lives m (List.mem_cons_of_mem _ member)
      rw [answer, List.flatMap_cons, List.flatMap_append, List.count_append, ← balance, ← others]
      rfl

end Course

/-- A scan that follows the index scans in place whatever is done besides. -/
theorem scansInPlace (h : s.store.Reachable) (here : s.readers.get? name = some (.scan scan))
    (follows : scan.Follows d resume)
    (whole
      : ∀ p : Position K, d.contains p.key = true → p.isBeyond d.direction resume = true
          → scan.awaits p.key = true)
    (spared : ∀ a ∈ actions, a.Spares name)
    : s.ScansInPlace name d resume actions where
  advancing := (course here spared).sorted_yielded h follows
  current m group yields := ((course here spared).of_mem_pulls h follows yields).2
  aside aside group later pulled := by
    obtain ⟨reached, there, still⟩ := (course here spared).follows_run h follows
    have answer := congrArg Prod.fst (pull_of_pullAside pulled).1
    rw [pull_scan there] at answer
    have ordered := (reachable_run h actions).coherent.tree
    exact ⟨(still.of_yield ordered answer).2.2, serves_pullAside pulled⟩
  complete ended record p inside beyond lives := by
    rw [(course here spared).count_yielded h follows inside beyond lives ended,
      whole p inside beyond]
    rfl

/-- A scan in place is opened in every reachable store, without a cursor or with one that stands
for a position. Whatever is written and whichever other readers go on between its pulls, its keys
advance strictly and stay in the range, each group has what its bucket had at the pull beyond that
position, and what keeps one position in the range beyond it up to the end is yielded exactly once.
-/
theorem in_place_scan (h : s.store.Reachable) (mode : s.store.visibility = .inPlace)
    (valid : d.validate = .ok ()) (resumes : s.store.Resumes d resume) (name : String)
    : ∃ scan, (s.store.scan d).1 = .ok scan
        ∧ ∀ actions : List (Action K V), (∀ a ∈ actions, a.Spares name)
            → (s.openScan name d).2.ScansInPlace name d resume actions := by
  have reached : (s.openScan name d).2.store.Reachable := reachable_act h (.openScan name d)
  by_cases nothing : d.isEmptyRange = true
  · have opened := Store.scan_eq_nothing valid nothing (s := s.store)
    refine ⟨_, opened, fun actions spared => ?_⟩
    refine scansInPlace reached (get?_openScan opened) (Scan.follows_of_done rfl) ?_ spared
    intro p inside
    rw [d.contains_eq_false_of_isEmptyRange nothing] at inside
    contradiction
  · have possible := Bool.eq_false_iff.mpr nothing
    have view : s.store.viewFor d = .live := by rw [Store.viewFor, mode]
    have opened := Store.scan_eq valid possible resumes
    rw [view] at opened
    refine ⟨_, opened, fun actions spared => ?_⟩
    exact scansInPlace reached (get?_openScan opened) (Scan.follows_start d resume)
      (fun p => Scan.awaits_start possible) spared

/-- A session without readers over a store in place with two entries. -/
def inPlace : Session Int String :=
  .ofStore ((Store.create .inPlace 2 10 default).performAll ([
    .insert 5 ⟨⟨[1]⟩, "a"⟩, .insert 7 ⟨⟨[2]⟩, "b"⟩].map (.empty, ·)))

/-- Between the pulls the bucket behind the scan is written to, and one ahead comes and goes. -/
theorem inPlace_scanned
    : (((inPlace.openScan "a" (.all .ascending)).2.yielded "a"
          [.pull "a", .write (.insert 5 ⟨⟨[3]⟩, "c"⟩), .write (.insert 6 ⟨⟨[4]⟩, "d"⟩),
            .write (.remove 6 ⟨[4]⟩), .pull "a", .write (.insert 9 ⟨⟨[4]⟩, "e"⟩), .pull "a",
            .pull "a"]).flatMap Group.records).count ⟨[2]⟩ = 1 := by
  have reached : inPlace.store.Reachable := (Store.Reachable.created _ _ _ _).performAll _
  have resumes : inPlace.store.Resumes (.all .ascending) none := rfl
  obtain ⟨scan, _, scans⟩ := in_place_scan reached rfl rfl resumes "a"
  exact (scans _ (by decide)).complete ⟨_, List.mem_of_getElem? (i := 3) rfl⟩ ⟨[2]⟩ ⟨7, 2⟩ rfl rfl
    (by decide)

end Session

end PagedIndex
