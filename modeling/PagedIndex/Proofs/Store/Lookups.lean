import PagedIndex.Proofs.Key.Order
import PagedIndex.Proofs.Range.Distinct
import PagedIndex.Proofs.Store.Selection
import PagedIndex.Store.Lookup

/-! Look-ups of several keys. Each different key is looked up by a scan of its own, and together
these scans find what a scan of everything has under the keys, in the same order.
-/

namespace PagedIndex

open Std

variable [Ord K] [TransOrd K]

omit [TransOrd K] in
theorem Descriptor.contains_all (direction : Direction) (key : K)
    : (Descriptor.all direction).contains key = true := rfl

omit [TransOrd K] in
/-- A scan of everything selects all that stands in the index. -/
theorem Contents.selection_all (c : Contents K V) : c.selection (.all .ascending) = c.standings :=
  List.filter_eq_self.mpr fun x _ => Descriptor.contains_all .ascending x.position.key

theorem Descriptor.contains_equality (value key : K) (direction : Direction)
    : (Descriptor.equality value direction).contains key = (compare value key).isEq := by
  have swap : compare key value = (compare value key).swap := OrientedCmp.eq_swap
  simp only [contains, isBelow, isAbove, equality, bounded, Endpoint.included, if_true, swap]
  cases compare value key <;> rfl

namespace Store

variable {s : Store K V}

/-! ## One key -/

/-- Without a cursor a scan gives what is selected. -/
theorem scanEntries_eq (h : s.contents.Coherent) {d : Descriptor K} (cursorless : d.cursor = none)
    : (s.scanEntries d).1 = .ok ((s.contents.selection d).map (·.entry)) := by
  have valid : d.validate = .ok () := by simp [Descriptor.validate, cursorless]
  have resumes : s.Resumes d none := by simp [Resumes, cursorless]
  obtain ⟨scan, opened, _, left⟩ := scan_entries h valid resumes
  rw [Contents.remaining_none, ← s.contents_scan d] at left
  simp only [scanEntries, opened, Except.map, left]
  rw [contents_scan]

/-- Without a cursor a look-up finds what is selected. -/
theorem lookup_eq (h : s.contents.Coherent) {d : Descriptor K} (cursorless : d.cursor = none)
    : (s.lookup d).1 = (s.contents.selection d).map (·.entry) := by
  simp only [lookup, scanEntries_eq h cursorless]
  rfl

/-- A look-up of one key finds what stands under keys that compare as equal. -/
theorem lookupEqual_eq (h : s.contents.Coherent) (value : K)
    : (s.lookupEqual value).1
      = (s.contents.standings.filter fun x => (compare value x.position.key).isEq).map
          (·.entry) := by
  rw [lookupEqual, lookup_eq h rfl, Contents.selection]
  simp only [Descriptor.contains_equality]
  rfl

/-! ## Several keys -/

omit [TransOrd K] in
theorem contents_lookupEqual (s : Store K V) (value : K)
    : (s.lookupEqual value).2.contents = s.contents :=
  s.contents_scan (.equality value .ascending)

/-- A look-up of several keys goes through the different ones, and what it counts on the way does
not change what it finds.
-/
theorem lookupAny_eq_flatMap (h : s.contents.Coherent) (values : List K)
    : (s.lookupAny values).1
      = (Ordered.distinct values).flatMap fun value =>
          (s.contents.standings.filter fun x => (compare value x.position.key).isEq).map
            (·.entry) := by
  have fold (found : List (Entry V)) (t : Store K V) (same : t.contents = s.contents)
      (different : List K)
      : (different.foldl (fun x value =>
            (x.1 ++ (x.2.lookupEqual value).1, (x.2.lookupEqual value).2)) (found, t)).1
        = found ++ different.flatMap fun value =>
            (s.contents.standings.filter fun x => (compare value x.position.key).isEq).map
              (·.entry) := by
    induction different generalizing found t with
    | nil => simp
    | cons value rest ih =>
        rw [List.foldl_cons, ih _ _ ((t.contents_lookupEqual value).trans same),
          lookupEqual_eq (same ▸ h), same, List.flatMap_cons, List.append_assoc]
  exact fold [] s rfl _

/-- What stands in an index is in the order of the keys. -/
theorem sorted_keys (h : s.contents.Coherent)
    : s.contents.standings.Pairwise fun x y =>
        (compare x.position.key y.position.key).isLE = true := by
  have sorted := h.sorted_selection (d := .all .ascending)
  rw [Contents.selection_all] at sorted
  exact sorted.imp fun lt => Position.isLE_key lt

/-- A look-up of several keys finds what stands under keys that equal one of them. -/
theorem lookupAny_eq (h : s.contents.Coherent) (values : List K)
    : (s.lookupAny values).1
      = (s.contents.standings.filter fun x =>
          values.any fun v => (compare v x.position.key).isEq).map (·.entry) := by
  have listed (key : K)
      : values.any (fun v => (compare v key).isEq)
        = (Ordered.distinct values).any fun v => (compare v key).isEq :=
    (Ordered.any_distinct values key).symm
  rw [lookupAny_eq_flatMap h, ← List.map_flatMap,
    ← Ordered.filter_any_eq_flatMap (sorted_keys h) (Ordered.ascending_distinct values)]
  simp only [listed]

/-- The groups of a list of standings whose keys are listed have what stands under such keys. -/
theorem flatMap_pending_listed {rows : List (Standing K V)} {groups : List (Group K V)}
    (divided : DividedByKey .ascending rows groups)
    (sorted : rows.Pairwise fun x y => (compare x.position.key y.position.key).isLE = true)
    (values : List K)
    : (groups.filter fun g => values.any fun v => (compare v g.key).isEq).flatMap (·.pending)
      = (rows.filter fun x => values.any fun v => (compare v x.position.key).isEq).map
          (·.entry) := by
  have ascending : ((groups.filter fun g => values.any fun v => (compare v g.key).isEq).map
      (·.key)).Pairwise fun a b => compare a b = .lt :=
    List.pairwise_map.mpr (divided.advancing.filter _)
  -- A row has a listed key if and only if its group has one.
  have listed : rows.filter (fun x => values.any fun v => (compare v x.position.key).isEq)
      = rows.filter fun x =>
          ((groups.filter fun g => values.any fun v => (compare v g.key).isEq).map (·.key)).any
            fun k => (compare k x.position.key).isEq := by
    refine List.filter_congr fun x member => ?_
    obtain ⟨group, found, same⟩ := divided.covered x member
    rw [Bool.eq_iff_iff]
    simp only [List.any_eq_true, List.mem_map, List.mem_filter, Ordering.isEq_iff_eq_eq]
    constructor
    · rintro ⟨v, isListed, equal⟩
      refine ⟨_, ⟨group, ⟨found, v, isListed, ?_⟩, rfl⟩, same⟩
      exact TransCmp.eq_trans equal (OrientedCmp.eq_symm same)
    · rintro ⟨_, ⟨other, ⟨_, v, isListed, equal⟩, rfl⟩, here⟩
      exact ⟨v, isListed, TransCmp.eq_trans equal here⟩
  rw [listed, Ordered.filter_any_eq_flatMap sorted ascending, List.map_flatMap, List.flatMap_map]
  refine List.flatMap_congr fun group member => ?_
  exact divided.pending group (List.mem_filter.mp member).1

/-- No record is found twice. -/
theorem single_lookupAny (h : s.contents.Coherent) (values : List K)
    : ((s.lookupAny values).1.map (·.record)).Nodup := by
  rw [lookupAny_eq h, List.map_map]
  exact (List.filter_sublist.map _).nodup h.single_standings

theorem mem_lookupAny_iff (h : s.contents.Coherent) {values : List K} {entry : Entry V}
    : entry ∈ (s.lookupAny values).1
      ↔ ∃ p, s.contents.standing? entry.record = some ⟨p, entry⟩
          ∧ ∃ v ∈ values, compare v p.key = .eq := by
  simp only [lookupAny_eq h, List.mem_map, List.mem_filter, h.mem_standings_iff,
    List.any_eq_true, Ordering.isEq_iff_eq_eq]
  constructor
  · rintro ⟨⟨p, _⟩, ⟨stands, listed⟩, rfl⟩
    exact ⟨p, stands, listed⟩
  · rintro ⟨p, stands, listed⟩
    exact ⟨⟨p, entry⟩, ⟨stands, listed⟩, rfl⟩

omit [TransOrd K] in
/-- Groups whose keys are listed are those whose keys are listed among the keys of groups. -/
theorem filter_listed_present (groups : List (Group K V)) (values : List K)
    : groups.filter (fun g => values.any fun v => (compare v g.key).isEq)
      = groups.filter fun g =>
          (values.filter fun v => groups.any fun other => (compare v other.key).isEq).any fun v =>
            (compare v g.key).isEq := by
  refine List.filter_congr fun g member => ?_
  rw [Bool.eq_iff_iff]
  simp only [List.any_eq_true, List.mem_filter]
  constructor
  · rintro ⟨v, isListed, same⟩
    exact ⟨v, ⟨isListed, g, member, same⟩, same⟩
  · rintro ⟨v, ⟨isListed, _⟩, same⟩
    exact ⟨v, isListed, same⟩

/-- In every reachable store a look-up of several keys, however they are spelled, ordered and
repeated, finds the entries of the groups of the full ascending scan whose keys compare as equal to
one of them, in the order of that scan. They are the entries of the live records under such keys,
each once, and keys without a group make no difference.
-/
theorem lookup_of_listed_keys (h : s.Reachable) (values : List K)
    : ∃ groups, (s.scanGroups (.all .ascending)).1 = .ok groups
        ∧ (s.scanEntries (.all .ascending)).1 = .ok (groups.flatMap (·.pending))
        ∧ (s.lookupAny values).1
          = (groups.filter fun g => values.any fun v => (compare v g.key).isEq).flatMap
              (·.pending)
        ∧ ((s.lookupAny values).1.map (·.record)).Nodup
        ∧ (∀ entry, entry ∈ (s.lookupAny values).1
            ↔ ∃ p, s.contents.standing? entry.record = some ⟨p, entry⟩
                ∧ ∃ v ∈ values, compare v p.key = .eq)
        ∧ (s.lookupAny values).1
          = (s.lookupAny (values.filter fun v =>
              groups.any fun g => (compare v g.key).isEq)).1 := by
  have coherent := h.coherent
  have resumes : s.Resumes (.all .ascending) none := rfl
  have opened : (s.scan (.all .ascending)).1 = .ok (.start (s.viewFor _) (.all .ascending) none) :=
    scan_eq rfl rfl resumes
  have divided := dividedByKey_start (s := s) (d := .all .ascending) coherent rfl
  rw [Contents.selection_all] at divided
  have found (values : List K) := (lookupAny_eq coherent values).trans
    (flatMap_pending_listed divided (sorted_keys coherent) values).symm
  refine ⟨_, ?_, ?_, found values, single_lookupAny coherent values,
    fun _ => mem_lookupAny_iff coherent, ?_⟩
  · simp only [scanGroups, opened, Except.map, contents_scan]
  · rw [divided.whole, scanEntries_eq coherent rfl, Contents.selection_all]
  · rw [found, found, filter_listed_present]

/-- A store with two spellings of two under one key. -/
def twoSpellings : Store Key String :=
  (create .copyOnRead 2 10 default).performAll ([
    .insert (.text "two") ⟨⟨[3]⟩, "c"⟩, .insert (.real 0xc000000000000000) ⟨⟨[1]⟩, "a"⟩,
    .insert (.int 2) ⟨⟨[2]⟩, "b"⟩, .insert (.bool true) ⟨⟨[4]⟩, "d"⟩].map (.empty, ·))

/-- Looking up two in both spellings, beside a key that is absent, finds its entries once. -/
theorem twoSpellings_found
    : twoSpellings.Reachable
      ∧ (∃ groups, (twoSpellings.scanGroups (.all .ascending)).1 = .ok groups
        ∧ (twoSpellings.lookupAny [.int 2, .null, .real 0xc000000000000000]).1
          = (groups.filter fun g =>
              [Key.int 2, .null, .real 0xc000000000000000].any fun v =>
                (compare v g.key).isEq).flatMap (·.pending))
      ∧ (twoSpellings.lookupAny [.int 2, .null, .real 0xc000000000000000]).1
        = [⟨⟨[1]⟩, "a"⟩, ⟨⟨[2]⟩, "b"⟩] := by
  have reachable : twoSpellings.Reachable := (Reachable.created _ _ _ _).performAll _
  obtain ⟨groups, scanned, _, found, _⟩ :=
    lookup_of_listed_keys reachable [.int 2, .null, .real 0xc000000000000000]
  exact ⟨reachable, ⟨groups, scanned, found⟩, by decide +kernel⟩

end Store

end PagedIndex
