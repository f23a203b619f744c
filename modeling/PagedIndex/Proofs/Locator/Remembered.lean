import Mathlib.Data.List.Basic
import PagedIndex.Proofs.Locator.Positions

/-! What a locator remembers of removed records, as a list from the earliest retirement to the
latest. The queue also holds places that do not count any more, but read through the stamps it is
this list: placing a record takes it from the list, and retiring one adds it at the end and drops
the earliest ones beyond the capacity.
-/

namespace PagedIndex.Locator

/-- The retirement that a place in the queue stands for, if it still counts. -/
def recollect? (retired : Table RecordKey (Retirement K)) (place : RecordKey × Nat)
    : Option (RecordKey × Position K) :=
  (retired.get? place.1).bind fun r =>
    if r.stamp = place.2 then some (place.1, r.position) else none

/-- The retirements that the places of a queue stand for. -/
def recalled (retired : Table RecordKey (Retirement K)) (queue : List (RecordKey × Nat))
    : List (RecordKey × Position K) :=
  queue.filterMap (recollect? retired)

/-- The removed records that a locator remembers, where each stood, the earliest first. -/
def remembered (l : Locator K) : List (RecordKey × Position K) := recalled l.retired l.queue

/-- The record that is forgotten next. -/
def oldest? (l : Locator K) : Option RecordKey := l.remembered.head?.map (·.1)

/-- Every retired record waits in the queue under its stamp, and stamps rise along the queue. -/
structure Queued (retired : Table RecordKey (Retirement K)) (queue : List (RecordKey × Nat))
    : Prop where
  keyed : retired.Keyed
  rising : queue.Pairwise (·.2 < ·.2)
  waiting : ∀ record r, retired.get? record = some r → (record, r.stamp) ∈ queue

/-- What every locator satisfies that comes of an empty one. -/
structure Sound (l : Locator K) : Prop where
  queued : Queued l.retired l.queue
  stamped : ∀ place ∈ l.queue, place.2 ≤ l.lastStamp
  apart : ∀ record p, l.live? record = some p → l.retired.get? record = none
  bounded : l.retired.size ≤ l.capacity

section Reading

variable {retired : Table RecordKey (Retirement K)} {queue rest : List (RecordKey × Nat)}
  {place : RecordKey × Nat}

theorem recollect?_eq_some_iff {x : RecordKey × Position K}
    : recollect? retired place = some x
      ↔ x.1 = place.1 ∧ retired.get? place.1 = some ⟨x.2, place.2⟩ := by
  obtain ⟨record, p⟩ := x
  simp only [recollect?, Option.bind_eq_some_iff, Option.ite_none_right_eq_some, Option.some.injEq,
    Prod.mk.injEq]
  constructor
  · rintro ⟨r, found, current, rfl, rfl⟩
    exact ⟨rfl, by rw [found, ← current]⟩
  · rintro ⟨rfl, found⟩
    exact ⟨_, found, rfl, rfl, rfl⟩

theorem isCurrent_eq (retired : Table RecordKey (Retirement K)) (place : RecordKey × Nat)
    : isCurrent retired place = (recollect? retired place).isSome := by
  unfold isCurrent recollect?
  cases retired.get? place.1 with
  | none => rfl
  | some r => by_cases current : r.stamp = place.2 <;> simp [current]

/-- Erasing a record makes its places count no more. -/
theorem recollect?_erase (retired : Table RecordKey (Retirement K)) (record : RecordKey)
    (place : RecordKey × Nat)
    : recollect? (retired.erase record) place
      = if place.1 = record then none else recollect? retired place := by
  by_cases same : place.1 = record <;> simp [recollect?, Table.get?_erase, same]

theorem recollect?_set_of_ne {record : RecordKey} (other : place.1 ≠ record) (r : Retirement K)
    : recollect? (retired.set record r) place = recollect? retired place := by
  simp [recollect?, Table.get?_set, other]

namespace Queued

/-- A place whose record is retired again later does not count: stamps rise. -/
theorem recollect?_eq_none_of_later (h : Queued retired (place :: rest))
    {x : RecordKey × Position K} (current : recollect? retired place = some x)
    {later : RecordKey × Nat} (member : later ∈ rest) (same : later.1 = place.1)
    : recollect? retired later = none := by
  refine Option.eq_none_iff_forall_ne_some.mpr fun y again => ?_
  have first := (recollect?_eq_some_iff.mp current).2
  have second := (recollect?_eq_some_iff.mp again).2
  rw [same, first] at second
  have stamps := congrArg Retirement.stamp (Option.some.inj second)
  have rises := (List.pairwise_cons.mp h.rising).1 later member
  simp only at stamps
  omega

/-- The list has exactly the retired records, each at its last position. -/
theorem mem_recalled_iff (h : Queued retired queue) {x : RecordKey × Position K}
    : x ∈ recalled retired queue ↔ ∃ stamp, retired.get? x.1 = some ⟨x.2, stamp⟩ := by
  rw [recalled, List.mem_filterMap]
  constructor
  · rintro ⟨place, _, current⟩
    obtain ⟨same, found⟩ := recollect?_eq_some_iff.mp current
    exact ⟨place.2, same ▸ found⟩
  · rintro ⟨stamp, found⟩
    exact ⟨(x.1, stamp), h.waiting x.1 _ found, recollect?_eq_some_iff.mpr ⟨rfl, found⟩⟩

/-- No record is in the list twice. -/
theorem single_recalled (h : Queued retired queue)
    : ((recalled retired queue).map (·.1)).Nodup := by
  rw [recalled, List.map_filterMap, List.Nodup, List.pairwise_filterMap]
  refine h.rising.imp fun {a b} rises x left y right same => ?_
  obtain ⟨x', currentA, rfl⟩ := Option.map_eq_some_iff.mp left
  obtain ⟨y', currentB, rfl⟩ := Option.map_eq_some_iff.mp right
  obtain ⟨ownA, foundA⟩ := recollect?_eq_some_iff.mp currentA
  obtain ⟨ownB, foundB⟩ := recollect?_eq_some_iff.mp currentB
  rw [← ownA, same, ownB, foundB] at foundA
  have stamps := congrArg Retirement.stamp (Option.some.inj foundA)
  simp only at stamps
  omega

theorem length_recalled (h : Queued retired queue)
    : (recalled retired queue).length = retired.size := by
  have records : ((recalled retired queue).map (·.1)).Perm (retired.pairs.map (·.1)) := by
    refine (List.perm_ext_iff_of_nodup h.single_recalled h.keyed).mpr fun record => ?_
    simp only [List.mem_map, Prod.exists, exists_and_right, exists_eq_right]
    constructor
    · rintro ⟨p, member⟩
      obtain ⟨stamp, found⟩ := h.mem_recalled_iff.mp member
      exact ⟨_, h.keyed.get?_eq_some_iff.mp found⟩
    · rintro ⟨r, member⟩
      exact ⟨r.position, h.mem_recalled_iff.mpr ⟨r.stamp, h.keyed.get?_eq_some_iff.mpr member⟩⟩
  have lengths := records.length_eq
  rwa [List.length_map, List.length_map] at lengths

/-! ## Evicting -/

/-- Dropping a place that counts drops its record and leaves the rest of the list. -/
theorem drop_current (h : Queued retired (place :: rest)) {x : RecordKey × Position K}
    (current : recollect? retired place = some x)
    : Queued (retired.erase place.1) rest
      ∧ recalled retired (place :: rest) = x :: recalled (retired.erase place.1) rest := by
  refine ⟨⟨h.keyed.erase _, (List.pairwise_cons.mp h.rising).2, ?_⟩, ?_⟩
  · intro record r found
    rw [Table.get?_erase] at found
    split at found
    next => contradiction
    next other =>
      rcases List.mem_cons.mp (h.waiting record r found) with same | later
      · exact absurd (congrArg Prod.fst same) other
      · exact later
  · rw [recalled, List.filterMap_cons_some current, recalled]
    congr 1
    refine List.filterMap_congr fun later member => ?_
    rw [recollect?_erase]
    split
    next same => exact h.recollect?_eq_none_of_later current member same
    next => rfl

/-- Dropping a place that does not count changes nothing in the list. -/
theorem drop_stale (h : Queued retired (place :: rest)) (stale : recollect? retired place = none)
    : Queued retired rest ∧ recalled retired (place :: rest) = recalled retired rest := by
  refine ⟨⟨h.keyed, (List.pairwise_cons.mp h.rising).2, ?_⟩, List.filterMap_cons_none stale⟩
  intro record r found
  rcases List.mem_cons.mp (h.waiting record r found) with same | later
  · have current : recollect? retired place = some (record, r.position) :=
      recollect?_eq_some_iff.mpr ⟨congrArg Prod.fst same, same ▸ found⟩
    simp [stale] at current
  · exact later

/-- Evicting drops the earliest retirements beyond the capacity, by induction over the queue. -/
theorem evict (h : Queued retired queue) (capacity : Nat)
    : Queued (Locator.evict capacity retired queue).1 (Locator.evict capacity retired queue).2
      ∧ recalled (Locator.evict capacity retired queue).1 (Locator.evict capacity retired queue).2
        = (recalled retired queue).drop ((recalled retired queue).length - capacity) := by
  induction queue generalizing retired with
  | nil => exact ⟨h, by simp [Locator.evict, recalled]⟩
  | cons place rest ih =>
      have size := h.length_recalled
      unfold Locator.evict
      split
      next few => exact ⟨h, by rw [size, Nat.sub_eq_zero_of_le few, List.drop_zero]⟩
      next many =>
        rw [isCurrent_eq]
        cases current : recollect? retired place with
        | some x =>
            obtain ⟨left, whole⟩ := h.drop_current current
            obtain ⟨queued, evicted⟩ := ih left
            refine ⟨queued, ?_⟩
            rw [whole, List.length_cons] at size
            have more : (recalled (retired.erase place.1) rest).length + 1 - capacity
                = (recalled (retired.erase place.1) rest).length - capacity + 1 := by omega
            rw [whole, List.length_cons, more, List.drop_succ_cons]
            exact evicted
        | none =>
            obtain ⟨left, whole⟩ := h.drop_stale current
            rw [whole]
            exact ih left

/-- Leaving out the places that do not count changes nothing in the list. -/
theorem filter_isCurrent (h : Queued retired queue)
    : Queued retired (queue.filter (isCurrent retired))
      ∧ recalled retired (queue.filter (isCurrent retired)) = recalled retired queue := by
  refine ⟨⟨h.keyed, h.rising.filter _, ?_⟩, ?_⟩
  · intro record r found
    refine List.mem_filter.mpr ⟨h.waiting record r found, ?_⟩
    simp [isCurrent, found]
  · rw [recalled, List.filterMap_filter, recalled]
    refine List.filterMap_congr fun place _ => ?_
    rw [isCurrent_eq]
    cases recollect? retired place <;> rfl

/-- A retirement under a new stamp goes to the end of the list. -/
theorem append (h : Queued retired queue) {record : RecordKey} {stamp : Nat}
    (fresh : ∀ place ∈ queue, place.2 < stamp) (absent : retired.get? record = none)
    (p : Position K)
    : Queued (retired.set record ⟨p, stamp⟩) (queue ++ [(record, stamp)])
      ∧ recalled (retired.set record ⟨p, stamp⟩) (queue ++ [(record, stamp)])
        = recalled retired queue ++ [(record, p)] := by
  refine ⟨⟨h.keyed.set _ _, ?_, ?_⟩, ?_⟩
  · refine List.pairwise_append.mpr ⟨h.rising, by simp, ?_⟩
    simpa using fresh
  · intro other r found
    rw [Table.get?_set] at found
    split at found
    next same =>
      obtain rfl := Option.some.inj found
      simp [same]
    next => exact List.mem_append_left _ (h.waiting other r found)
  · have last : recollect? (retired.set record ⟨p, stamp⟩) (record, stamp) = some (record, p) := by
      simp [recollect?, Table.get?_set]
    rw [recalled, List.filterMap_append, List.filterMap_cons_some last, List.filterMap_nil,
      recalled]
    congr 1
    refine List.filterMap_congr fun place member => ?_
    by_cases same : place.1 = record
    · -- An earlier place of the record has another stamp, and did not count before either.
      have stale : stamp ≠ place.2 := Nat.ne_of_gt (fresh place member)
      simp [recollect?, Table.get?_set, same, absent, stale]
    · exact recollect?_set_of_ne same _

end Queued

theorem mem_of_mem_evict {capacity : Nat}
    (kept : place ∈ (evict capacity retired queue).2)
    : place ∈ queue := by
  induction queue generalizing retired with
  | nil => exact kept
  | cons first rest ih =>
      unfold evict at kept
      split at kept
      · exact kept
      · exact List.mem_cons_of_mem _ (ih kept)

end Reading

/-! ## Locators -/

variable {l : Locator K}

theorem capacity_retire (l : Locator K) (record : RecordKey)
    : (l.retire record).capacity = l.capacity := by
  unfold retire
  split
  · rfl
  · simp only
    split <;> rfl

theorem retire_of_not_live {record : RecordKey} (absent : l.live? record = none)
    : l.retire record = l := by
  simp only [live?] at absent
  simp [retire, absent]

theorem sound_empty (capacity : Nat) : (empty capacity : Locator K).Sound where
  queued := ⟨Table.keyed_empty, .nil, by simp [empty]⟩
  stamped := by simp [empty]
  apart := by simp
  bounded := Nat.zero_le _

theorem sound_cleared (l : Locator K) : l.cleared.Sound where
  queued := ⟨Table.keyed_empty, .nil, by simp [cleared]⟩
  stamped := by simp [cleared]
  apart := by simp
  bounded := Nat.zero_le _

namespace Sound

theorem length_remembered (h : l.Sound) : l.remembered.length = l.retired.size :=
  h.queued.length_recalled

theorem length_remembered_le (h : l.Sound) : l.remembered.length ≤ l.capacity :=
  h.length_remembered ▸ h.bounded

theorem mem_remembered_iff (h : l.Sound) {x : RecordKey × Position K}
    : x ∈ l.remembered ↔ ∃ stamp, l.retired.get? x.1 = some ⟨x.2, stamp⟩ :=
  h.queued.mem_recalled_iff

theorem not_mem_of_live (h : l.Sound) {record : RecordKey} {p : Position K}
    (live : l.live? record = some p) (q : Position K)
    : (record, q) ∉ l.remembered := by
  rw [h.mem_remembered_iff, h.apart record p live]
  simp

end Sound

/-! ## Placing -/

/-- Placing a record takes it from the list. -/
theorem remembered_place (l : Locator K) (record : RecordKey) (p : Position K)
    : (l.place record p).remembered = l.remembered.filter (·.1 != record) := by
  simp only [remembered, recalled, List.filter_filterMap, place]
  refine List.filterMap_congr fun place _ => ?_
  rw [recollect?_erase]
  cases current : recollect? l.retired place with
  | none => simp
  | some x =>
      obtain ⟨own, _⟩ := recollect?_eq_some_iff.mp current
      by_cases same : place.1 = record <;> simp [Option.filter, same, own]

namespace Sound

theorem place (h : l.Sound) (record : RecordKey) (p : Position K) : (l.place record p).Sound where
  queued := by
    refine ⟨h.queued.keyed.erase record, h.queued.rising, fun other r found => ?_⟩
    rw [retired?_place] at found
    split at found
    · contradiction
    · exact h.queued.waiting other r found
  stamped := h.stamped
  apart := by
    intro other q live
    rw [live?_place] at live
    rw [retired?_place]
    split at live
    next same => rw [if_pos same]
    next different =>
      rw [if_neg different]
      exact h.apart other q live
  bounded := Nat.le_trans (List.length_filter_le _ _) h.bounded

/-! ## Retiring -/

/-- Retiring a record adds it to the list and drops the earliest ones beyond the capacity. -/
theorem remembered_retire (h : l.Sound) {record : RecordKey} {p : Position K}
    (live : l.live? record = some p)
    : Queued (l.retire record).retired (l.retire record).queue
      ∧ (l.retire record).remembered
        = (l.remembered ++ [(record, p)]).drop (l.remembered.length + 1 - l.capacity) := by
  have absent := h.apart record p live
  simp only [live?] at live
  unfold retire
  simp only [live]
  split
  next none =>
    -- Without a capacity the list is empty before and after.
    have empty : l.remembered = [] := by
      have few := h.length_remembered_le
      rw [none] at few
      exact List.eq_nil_of_length_eq_zero (Nat.le_zero.mp few)
    refine ⟨h.queued, ?_⟩
    rw [empty, none]
    exact empty
  next =>
    obtain ⟨queued, appended⟩ :=
      h.queued.append (fun place member => Nat.lt_succ_of_le (h.stamped place member)) absent p
    obtain ⟨left, evicted⟩ := queued.evict l.capacity
    rw [appended, List.length_append] at evicted
    simp only
    split
    · obtain ⟨compact, same⟩ := left.filter_isCurrent
      exact ⟨compact, same.trans evicted⟩
    · exact ⟨left, evicted⟩

/-- The stamps that wait after a retirement are old ones or the one just given out. -/
theorem stamped_retire (h : l.Sound) (record : RecordKey)
    : ∀ place ∈ (l.retire record).queue, place.2 ≤ (l.retire record).lastStamp := by
  unfold retire
  split
  · exact h.stamped
  · simp only
    split
    · exact h.stamped
    · intro place member
      simp only at member ⊢
      have kept : place ∈ l.queue ++ [(record, l.lastStamp + 1)] := by
        split at member
        · exact mem_of_mem_evict (List.mem_filter.mp member).1
        · exact mem_of_mem_evict member
      rcases List.mem_append.mp kept with old | new
      · exact Nat.le_succ_of_le (h.stamped place old)
      · exact Nat.le_of_eq (congrArg Prod.snd (List.mem_singleton.mp new))

theorem retire (h : l.Sound) (record : RecordKey) : (l.retire record).Sound := by
  cases live : l.live? record with
  | none =>
      rw [retire_of_not_live live]
      exact h
  | some p =>
      obtain ⟨queued, list⟩ := h.remembered_retire live
      refine ⟨queued, h.stamped_retire record, ?_, ?_⟩
      · intro other q lives
        rw [live?_retire] at lives
        split at lives
        next => contradiction
        next different =>
          refine Option.eq_none_iff_forall_ne_some.mpr fun r found => ?_
          rcases retired_retire found with old | ⟨same, _⟩
          · simp [h.apart other q lives] at old
          · exact different same
      · have lengths := congrArg List.length list
        rw [remembered, queued.length_recalled, List.length_drop, List.length_append,
          List.length_singleton] at lengths
        rw [lengths, capacity_retire]
        omega

/-! ## Resolving -/

/-- The cursor of a remembered record stands for where the record stood. -/
theorem resolve_remembered (h : l.Sound) {record : RecordKey} {p : Position K}
    (member : (record, p) ∈ l.remembered)
    : l.resolve ⟨record⟩ = some (.retired p) := by
  obtain ⟨stamp, found⟩ := h.mem_remembered_iff.mp member
  have gone : l.live.get? record = none := by
    refine Option.eq_none_iff_forall_ne_some.mpr fun q live => ?_
    simp [h.apart record q live] at found
  simp [resolve, gone, found]

/-- Locators that have a record live at the same position, or remember it at the same, resolve its
cursor alike.
-/
theorem resolve_congr {other : Locator K} (h : l.Sound) (h' : other.Sound) {record : RecordKey}
    (live : other.live? record = l.live? record)
    (retired : ∀ p, (record, p) ∈ other.remembered ↔ (record, p) ∈ l.remembered)
    : other.resolve ⟨record⟩ = l.resolve ⟨record⟩ := by
  simp only [live?] at live
  unfold resolve
  simp only [live]
  cases l.live.get? record with
  | some p => rfl
  | none =>
      simp only [h.mem_remembered_iff, h'.mem_remembered_iff] at retired
      cases mine : l.retired.get? record with
      | some r =>
          obtain ⟨stamp, found⟩ := (retired r.position).mpr ⟨r.stamp, mine⟩
          rw [found]
          rfl
      | none =>
          cases theirs : other.retired.get? record with
          | none => rfl
          | some r =>
              obtain ⟨stamp, found⟩ := (retired r.position).mp ⟨r.stamp, theirs⟩
              simp [mine] at found

/-- A record that neither lives nor is remembered is unknown. -/
theorem resolve_eq_none (h : l.Sound) {record : RecordKey} (absent : l.live? record = none)
    (forgotten : ∀ p, (record, p) ∉ l.remembered)
    : l.resolve ⟨record⟩ = none := by
  simp only [live?] at absent
  have unknown : l.retired.get? record = none := by
    refine Option.eq_none_iff_forall_ne_some.mpr fun r found => forgotten r.position ?_
    exact h.mem_remembered_iff.mpr ⟨r.stamp, found⟩
  simp [resolve, absent, unknown]

end Sound

end PagedIndex.Locator
