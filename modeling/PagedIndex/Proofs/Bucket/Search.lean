import PagedIndex.Proofs.Bucket.Order

/-! Binary search in a bucket finds where a test on sequence numbers turns from true to false, so
the parts of a bucket before and beyond a sequence number are those that filtering would give. The
two parts are apart, and only the slot of the number itself is in neither.
-/

namespace PagedIndex.Bucket

variable {b : Bucket V} {early : Nat → Bool}

/-- The search is down to the positions from `low` to `high`: every slot before them passes the
test and every slot from `high` on fails it.
-/
structure Narrowed (b : Bucket V) (early : Nat → Bool) (low high : Nat) : Prop where
  ordered : low ≤ high
  within : high ≤ b.size
  before : ∀ i, i < low → ∀ slot, b.get? i = some slot → early slot.seq = true
  beyond : ∀ i, high ≤ i → ∀ slot, b.get? i = some slot → early slot.seq = false

/-- A slot that passes the test is preceded by slots that pass it. -/
def FallsOnce (b : Bucket V) (early : Nat → Bool) : Prop :=
  b.slots.Pairwise fun x y => early y.seq = true → early x.seq = true

theorem FallsOnce.early_of_le (falls : b.FallsOnce early) {i j : Nat} (le : i ≤ j) {x y : Slot V}
    (left : b.get? i = some x) (right : b.get? j = some y) (passed : early y.seq = true)
    : early x.seq = true := by
  rcases Nat.lt_or_eq_of_le le with lt | rfl
  · obtain ⟨hi, rfl⟩ := List.getElem?_eq_some_iff.mp left
    obtain ⟨hj, rfl⟩ := List.getElem?_eq_some_iff.mp right
    exact List.pairwise_iff_getElem.mp falls i j hi hj lt passed
  · obtain rfl := Option.some.inj (left.symm.trans right)
    exact passed

/-- The search narrows down to the one point where the test turns, by induction on its calls. -/
theorem search_narrowed (falls : b.FallsOnce early) {low high : Nat}
    (h : b.Narrowed early low high)
    : b.Narrowed early (b.search early low high) (b.search early low high) := by
  fun_induction search b early low high with
  | case1 low high below middle slot found passed ih =>
      -- The middle passes, and with it everything up to it.
      refine ih ⟨by omega, h.within, ?_, h.beyond⟩
      intro i lt other there
      exact falls.early_of_le (Nat.le_of_lt_succ lt) there found passed
  | case2 low high below middle slot found failed ih =>
      -- The middle fails, and with it everything from there on.
      refine ih ⟨by omega, by have := h.within; omega, h.before, ?_⟩
      intro i le other there
      by_cases passed : early other.seq = true
      · exact absurd (falls.early_of_le le found there passed) failed
      · simpa using passed
  | case3 low high below middle missing ih =>
      -- The middle lies inside the bucket, so this branch is never taken.
      have short : b.size ≤ middle := by simpa [get?, size] using missing
      have := h.within
      omega
  | case4 low high closed =>
      obtain rfl : low = high := by have := h.ordered; omega
      exact h

/-- At the point where the test turns a bucket falls into those that pass and those that fail. -/
theorem Narrowed.take_and_drop {n : Nat} (h : b.Narrowed early n n)
    : b.slots.take n = b.slots.filter (fun slot => early slot.seq)
      ∧ b.slots.drop n = b.slots.filter (fun slot => !early slot.seq) := by
  have front : ∀ slot ∈ b.slots.take n, early slot.seq = true := by
    intro slot member
    obtain ⟨i, found⟩ := List.mem_iff_getElem?.mp member
    rw [List.getElem?_take] at found
    split at found
    next lt => exact h.before i lt slot found
    next => exact absurd found (Option.some_ne_none slot).symm
  have back : ∀ slot ∈ b.slots.drop n, early slot.seq = false := by
    intro slot member
    obtain ⟨i, found⟩ := List.mem_iff_getElem?.mp member
    rw [List.getElem?_drop] at found
    exact h.beyond (n + i) (Nat.le_add_right n i) slot found
  have whole := List.take_append_drop n b.slots
  constructor
  · conv => rhs; rw [← whole]
    rw [List.filter_append, List.filter_eq_self.mpr front,
      List.filter_eq_nil_iff.mpr (by simpa using back), List.append_nil]
  · conv => rhs; rw [← whole]
    rw [List.filter_append, List.filter_eq_nil_iff.mpr (by simpa using front),
      List.filter_eq_self.mpr (by simpa using back), List.nil_append]

/-- Before the search has looked at a slot it is down to the whole bucket. -/
theorem narrowed_whole (b : Bucket V) (early : Nat → Bool) : b.Narrowed early 0 b.size := by
  refine ⟨Nat.zero_le _, Nat.le_refl _, ?_, ?_⟩
  · intro i lt
    omega
  · intro i le slot found
    have missing : b.get? i = none := by simpa [get?, size] using le
    simp [missing] at found

/-- A test that falls once along a bucket is found out by a search of the whole bucket. -/
theorem search_take_and_drop (falls : b.FallsOnce early)
    : b.slots.take (b.search early 0 b.size) = b.slots.filter (fun slot => early slot.seq)
      ∧ b.slots.drop (b.search early 0 b.size) = b.slots.filter (fun slot => !early slot.seq) :=
  (search_narrowed falls (b.narrowed_whole early)).take_and_drop

/-- The search counts the slots that pass. -/
theorem search_eq_countP (falls : b.FallsOnce early)
    : b.search early 0 b.size = b.slots.countP fun slot => early slot.seq := by
  have within := (search_narrowed falls (b.narrowed_whole early)).within
  rw [List.countP_eq_length_filter, ← (search_take_and_drop falls).1, List.length_take_of_le within]

/-- A test that falls once divides a bucket into what passes and what fails. -/
theorem FallsOnce.filter_append_filter (falls : b.FallsOnce early)
    : b.slots.filter (fun slot => early slot.seq) ++ b.slots.filter (fun slot => !early slot.seq)
      = b.slots := by
  rw [← (search_take_and_drop falls).1, ← (search_take_and_drop falls).2, List.take_append_drop]

/-! ## The parts around a sequence number -/

theorem fallsOnce_upTo (rising : b.slots.Pairwise (·.seq < ·.seq)) (seq : Nat)
    : b.FallsOnce fun s => decide (s ≤ seq) :=
  rising.imp fun lt => by simpa using fun le => Nat.le_trans (Nat.le_of_lt lt) le

theorem fallsOnce_before (rising : b.slots.Pairwise (·.seq < ·.seq)) (seq : Nat)
    : b.FallsOnce fun s => decide (s < seq) :=
  rising.imp fun lt => by simpa using fun le => Nat.lt_trans lt le

/-- The slots inserted after a number are those from the search for it on. -/
theorem drop_countUpTo (rising : b.slots.Pairwise (·.seq < ·.seq)) (seq : Nat)
    : b.slots.drop (b.countUpTo seq) = b.slots.filter fun slot => decide (seq < slot.seq) := by
  rw [countUpTo, (search_take_and_drop (fallsOnce_upTo rising seq)).2]
  simp only [← decide_not, Nat.not_le]

/-- The slots inserted before a number are those up to the search for it. -/
theorem take_countBefore (rising : b.slots.Pairwise (·.seq < ·.seq)) (seq : Nat)
    : b.slots.take (b.countBefore seq) = b.slots.filter fun slot => decide (slot.seq < seq) :=
  (search_take_and_drop (fallsOnce_before rising seq)).1

/-- At most one slot has a given number. -/
theorem length_numbered_le (rising : b.slots.Pairwise (·.seq < ·.seq)) (seq : Nat)
    : (b.slots.filter fun slot => decide (slot.seq = seq)).length ≤ 1 := by
  have numbered : ∀ slot ∈ b.slots.filter (fun slot => decide (slot.seq = seq)), slot.seq = seq :=
    fun slot member => by simpa using (List.mem_filter.mp member).2
  have filtered := rising.filter fun slot => decide (slot.seq = seq)
  cases here : b.slots.filter fun slot => decide (slot.seq = seq) with
  | nil => simp
  | cons x rest =>
      cases rest with
      | nil => simp
      | cons y others =>
          rw [here] at numbered filtered
          have order := (List.pairwise_cons.mp filtered).1 y (by simp)
          rw [numbered x (by simp), numbered y (by simp)] at order
          exact absurd order (Nat.lt_irrefl seq)

/-- What comes before a number, what has it and what comes after it make up a bucket, in this
order.
-/
theorem parts_append (rising : b.slots.Pairwise (·.seq < ·.seq)) (seq : Nat)
    : b.slots.filter (fun slot => decide (slot.seq < seq))
        ++ b.slots.filter (fun slot => decide (slot.seq = seq))
        ++ b.slots.filter (fun slot => decide (seq < slot.seq))
      = b.slots := by
  have before := (fallsOnce_before rising seq).filter_append_filter
  -- What is not before the number is a bucket of its own, which falls into two parts again.
  have later : (b.slots.filter fun slot => !decide (slot.seq < seq)).Pairwise (·.seq < ·.seq) :=
    rising.filter _
  have upTo := (fallsOnce_upTo (b := ⟨_⟩) later seq).filter_append_filter
  simp only [List.filter_filter] at upTo
  rw [List.append_assoc]
  conv => rhs; rw [← before, ← upTo]
  congr 2
  all_goals
    refine List.filter_congr fun slot _ => ?_
    rw [Bool.eq_iff_iff]
    simp only [Bool.and_eq_true, Bool.not_eq_true', decide_eq_true_eq, decide_eq_false_iff_not]
    omega

/-- The slots at the positions of a half-open interval. -/
def slice (b : Bucket V) (interval : Nat × Nat) : List (Slot V) :=
  (b.slots.take interval.2).drop interval.1

/-- For every number along a bucket, whether a slot has it, it lies between two slots or outside of
them all: the search for it counts the slots up to it or before it, so ascending travel has left
just the slots after it and descending travel just those before it. No position lies in both
remainders, and between them they leave out the slot of the number itself, if there is one.
-/
theorem remainders_around_number (rising : b.slots.Pairwise (·.seq < ·.seq)) (seq : Nat)
    : b.countUpTo seq = b.slots.countP (fun slot => decide (slot.seq ≤ seq))
      ∧ b.countBefore seq = b.slots.countP (fun slot => decide (slot.seq < seq))
      ∧ b.slice (b.beyond .ascending seq) = b.slots.filter (fun slot => decide (seq < slot.seq))
      ∧ b.slice (b.beyond .descending seq) = b.slots.filter (fun slot => decide (slot.seq < seq))
      ∧ (b.beyond .descending seq).2 ≤ (b.beyond .ascending seq).1
      ∧ b.slice (b.beyond .descending seq) ++ b.slots.filter (fun slot => decide (slot.seq = seq))
          ++ b.slice (b.beyond .ascending seq)
        = b.slots
      ∧ (b.slots.filter fun slot => decide (slot.seq = seq)).length ≤ 1 := by
  have upTo : b.countUpTo seq = b.slots.countP fun slot => decide (slot.seq ≤ seq) :=
    search_eq_countP (fallsOnce_upTo rising seq)
  have before : b.countBefore seq = b.slots.countP fun slot => decide (slot.seq < seq) :=
    search_eq_countP (fallsOnce_before rising seq)
  have ascending : b.slice (b.beyond .ascending seq)
      = b.slots.filter fun slot => decide (seq < slot.seq) := by
    rw [slice, beyond, size, List.take_length, drop_countUpTo rising]
  have descending : b.slice (b.beyond .descending seq)
      = b.slots.filter fun slot => decide (slot.seq < seq) := by
    rw [slice, beyond, List.drop_zero, take_countBefore rising]
  refine ⟨upTo, before, ascending, descending, ?_, ?_, length_numbered_le rising seq⟩
  · simp only [beyond, upTo, before]
    refine List.countP_mono_left fun slot _ earlier => ?_
    simpa using Nat.le_of_lt (of_decide_eq_true earlier)
  · rw [ascending, descending, parts_append rising seq]

/-- A bucket with gaps between its numbers. -/
def twoFiveNine : Bucket String :=
  ⟨[⟨2, ⟨⟨[1]⟩, "a"⟩⟩, ⟨5, ⟨⟨[2]⟩, "b"⟩⟩, ⟨9, ⟨⟨[3]⟩, "c"⟩⟩]⟩

/-- Of the numbers two, five and nine, five divides the others and six leaves none out. -/
theorem remainders_around_five
    : twoFiveNine.slots.Pairwise (·.seq < ·.seq)
      ∧ twoFiveNine.countUpTo 5 = 2
      ∧ twoFiveNine.countBefore 5 = 1
      ∧ twoFiveNine.slice (twoFiveNine.beyond .ascending 5) = [⟨9, ⟨⟨[3]⟩, "c"⟩⟩]
      ∧ twoFiveNine.slice (twoFiveNine.beyond .descending 6)
          ++ twoFiveNine.slice (twoFiveNine.beyond .ascending 6)
        = twoFiveNine.slots := by
  have rising : twoFiveNine.slots.Pairwise (·.seq < ·.seq) := by decide
  obtain ⟨upTo, before, after, _⟩ := remainders_around_number rising 5
  obtain ⟨_, _, _, _, _, whole, _⟩ := remainders_around_number rising 6
  have missing : twoFiveNine.slots.filter (fun slot => decide (slot.seq = 6)) = [] := by decide
  rw [missing, List.append_nil] at whole
  exact ⟨rising, upTo.trans (by decide), before.trans (by decide), after.trans (by decide), whole⟩

end PagedIndex.Bucket
