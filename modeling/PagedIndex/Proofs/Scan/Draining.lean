import PagedIndex.Proofs.Scan.Groups

/-! Draining a scan pull by pull. Each pull yields the first of the groups that are left and leaves
the others, so that pulling goes through the groups in order and then yields nothing any more.
-/

namespace PagedIndex.Scan

open Std

variable [Ord K] {current : Tree K V} {s : Scan K V}

/-- What a number of pulls yield when no write comes in between. -/
def pulls (current : Tree K V) : Nat → Scan K V → List (Option (Group K V))
  | 0, _ => []
  | count + 1, s => (s.next current).1 :: pulls current count (s.next current).2

/-- However often a scan is pulled, it yields some groups one by one and nothing after them. -/
def Drains (current : Tree K V) (s : Scan K V) (groups : List (Group K V)) : Prop :=
  ∀ count, s.pulls current count
    = (groups.map some).take count ++ List.replicate (count - groups.length) none

/-- Going through leaves changes neither what is read nor what is asked for. -/
theorem view_advance (s : Scan K V) (leaves : List (Leaf K V))
    : (s.advance leaves).2.view = s.view := by
  induction leaves generalizing s with
  | nil => rfl
  | cons leaf rest ih =>
      unfold advance
      split
      · rfl
      · split
        · exact ih (s.passed leaf)
        · rfl

theorem view_next (current : Tree K V) (s : Scan K V) : (s.next current).2.view = s.view :=
  s.view_advance _

/-- A scan that is done has nothing left. -/
theorem groups_done (current : Tree K V) (s : Scan K V)
    : { s with done := true }.groups current = [] := by
  simp [groups, ahead, groupsOf]

variable [TransOrd K]

/-- Of sorted leaves, the endpoint that shuts out the first shuts out no other. -/
theorem filter_excluded {direction : Direction} {leaf : Leaf K V} {rest : List (Leaf K V)}
    (sorted : (leaf :: rest).Pairwise fun a b => direction.compare a.key b.key = .lt)
    : (leaf :: rest).filter (fun other =>
          direction.reaches (some (.excluded leaf.key)) other.key)
      = rest := by
  obtain ⟨nearest, _⟩ := List.pairwise_cons.mp sorted
  rw [List.filter_cons_of_neg, List.filter_eq_self]
  · intro other member
    exact (Direction.reaches_excluded_iff _ _ _).mpr (nearest other member)
  · simp [Direction.reaches_excluded_iff, ReflCmp.compare_self]

/-- Behind the first leaf ahead come the others. -/
theorem ahead_excluded {t : Tree K V} (ordered : t.Ordered) {direction : Direction}
    {start : Option (Endpoint K)} {leaf : Leaf K V} {rest : List (Leaf K V)}
    (ahead : t.ahead direction start = leaf :: rest)
    : t.ahead direction (some (.excluded leaf.key)) = rest := by
  have sorted : (t.ahead direction start).Pairwise fun a b => direction.compare a.key b.key = .lt :=
    Direction.pairwise_arrange _ (ordered.sorted.filter _)
  have reached : direction.reaches start leaf.key = true := by
    have member : leaf ∈ t.ahead direction start := by simp [ahead]
    rw [Tree.ahead, Direction.mem_arrange] at member
    exact (List.mem_filter.mp member).2
  have narrower : t.ahead direction (some (.excluded leaf.key))
      = (t.ahead direction start).filter fun other =>
          direction.reaches (some (.excluded leaf.key)) other.key := by
    rw [Tree.ahead, Tree.ahead, ← Direction.arrange_filter, List.filter_filter]
    congr 1
    refine List.filter_congr fun other _ => ?_
    rw [Bool.eq_iff_iff, Bool.and_eq_true, iff_self_and]
    exact Direction.reaches_of_reaches_excluded _ reached
  rw [narrower, ahead]
  exact filter_excluded (ahead ▸ sorted)

theorem ahead_passed (ordered : (s.view.tree current).Ordered) {leaf : Leaf K V}
    {rest : List (Leaf K V)} (ahead : s.ahead current = leaf :: rest)
    : (s.passed leaf).ahead current = rest := by
  unfold Scan.ahead at ahead ⊢
  split at ahead
  next => exact absurd ahead (List.cons_ne_nil _ _).symm
  next more =>
    rw [if_neg (by simpa [passed] using more)]
    exact ahead_excluded ordered ahead

/-- Going through the leaves ahead yields their first group and leaves the others. -/
theorem advance_eq (ordered : (s.view.tree current).Ordered) {leaves : List (Leaf K V)}
    (ahead : s.ahead current = leaves)
    : (s.advance leaves).1 = (s.groupsOf leaves).head?
      ∧ (s.advance leaves).2.groups current = (s.groupsOf leaves).tail := by
  induction leaves generalizing s with
  | nil => exact ⟨rfl, s.groups_done current⟩
  | cons leaf rest ih =>
      have behind := ahead_passed ordered ahead
      unfold advance groupsOf
      split
      · exact ⟨rfl, s.groups_done current⟩
      · split
        · exact ih (s := s.passed leaf) ordered behind
        · refine ⟨rfl, ?_⟩
          rw [List.tail_cons, groups, behind]

/-- A pull yields the first of the groups that are left and leaves the others. -/
theorem next_eq (ordered : (s.view.tree current).Ordered)
    : (s.next current).1 = (s.groups current).head?
      ∧ (s.next current).2.groups current = (s.groups current).tail :=
  advance_eq ordered rfl

/-- A scan drains to the groups that it has left, by induction over the pulls. -/
theorem drains_groups (ordered : (s.view.tree current).Ordered)
    : s.Drains current (s.groups current) := by
  intro count
  induction count generalizing s with
  | zero => simp [pulls]
  | succ count ih =>
      -- The scan after one pull reads the same tree, so the induction hypothesis applies to it.
      obtain ⟨first, others⟩ := next_eq ordered
      have rest := ih (s := (s.next current).2) (by rw [view_next]; exact ordered)
      rw [pulls, rest, first, others]
      cases s.groups current with
      | nil => simp [List.replicate_succ]
      | cons group later => simp

end PagedIndex.Scan
