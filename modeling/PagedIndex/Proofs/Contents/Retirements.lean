import PagedIndex.Proofs.Contents.Runs
import PagedIndex.Proofs.Locator.Remembered

/-! How long removed records are remembered. Every change that unlinks a record retires it, whether
the record is removed or only makes way for itself under another key; so a retirement is safe from
as many further unlinks as the memory has room for.
-/

namespace PagedIndex

namespace Locator

variable {l : Locator K} {record other : RecordKey} {p : Position K} {later : Nat}

/-- A record is remembered at a position, and at most so many records were retired after it. -/
def Recalls (l : Locator K) (record : RecordKey) (p : Position K) (later : Nat) : Prop :=
  ∃ before after, l.remembered = before ++ (record, p) :: after ∧ after.length ≤ later

namespace Recalls

/-- What has just been retired is the latest retirement. -/
theorem of_retire (h : l.Sound) (live : l.live? record = some p) (room : 0 < l.capacity)
    : (l.retire record).Recalls record p 0 := by
  refine ⟨l.remembered.drop (l.remembered.length + 1 - l.capacity), [], ?_, Nat.le_refl 0⟩
  rw [(h.remembered_retire live).2, List.drop_append_of_le_length]
  omega

/-- Placing another record leaves a retirement where it is, or closer to the end. -/
theorem place (h : l.Recalls record p later) (apart : other ≠ record) (q : Position K)
    : (l.place other q).Recalls record p later := by
  obtain ⟨before, after, list, few⟩ := h
  refine ⟨before.filter (·.1 != other), after.filter (·.1 != other), ?_, ?_⟩
  · rw [remembered_place, list, List.filter_append, List.filter_cons_of_pos]
    simpa using Ne.symm apart
  · exact Nat.le_trans (List.length_filter_le _ _) few

/-- A further retirement drops only what was retired before, as long as there is room for the rest.
-/
theorem retire (h : l.Recalls record p later) (sound : l.Sound) (room : later + 1 < l.capacity)
    (other : RecordKey)
    : (l.retire other).Recalls record p (later + 1) := by
  obtain ⟨before, after, list, few⟩ := h
  cases live : l.live? other with
  | none =>
      rw [retire_of_not_live live]
      exact ⟨before, after, list, Nat.le_succ_of_le few⟩
  | some q =>
      refine ⟨before.drop (l.remembered.length + 1 - l.capacity), after ++ [(other, q)], ?_, ?_⟩
      · have lengths := congrArg List.length list
        rw [List.length_append, List.length_cons] at lengths
        rw [(sound.remembered_retire live).2]
        conv => lhs; rw [list, List.append_assoc, ← list]
        rw [List.drop_append_of_le_length (by omega), List.cons_append]
      · simpa using few

theorem resolve (h : l.Recalls record p later) (sound : l.Sound)
    : l.resolve ⟨record⟩ = some (.retired p) := by
  obtain ⟨before, after, list, _⟩ := h
  exact sound.resolve_remembered (by simp [list])

end Recalls

/-! ## Placing and moving another record -/

namespace Sound

/-- Placing a record does not change what the cursor of another one stands for. -/
theorem resolve_place (h : l.Sound) (apart : record ≠ other) (p : Position K)
    : (l.place other p).resolve ⟨record⟩ = l.resolve ⟨record⟩ := by
  refine h.resolve_congr (h.place other p) ?_ fun q => ?_
  · rw [live?_place, if_neg apart]
  · rw [remembered_place, List.mem_filter]
    simpa using fun _ => apart

/-- A move takes from the rest of the list what its retirement half drops. -/
theorem mem_remembered_move (h : l.Sound) {left : Position K} (lived : l.live? other = some left)
    (apart : record ≠ other) (arrived q : Position K)
    : (record, q) ∈ ((l.retire other).place other arrived).remembered
      ↔ (record, q) ∈ l.remembered.drop (l.remembered.length + 1 - l.capacity) := by
  have last : (record, q) ∉ [(other, left)].drop
      (l.remembered.length + 1 - l.capacity - l.remembered.length) := fun member => by
    simpa [apart] using List.mem_of_mem_drop member
  rw [remembered_place, List.mem_filter, (h.remembered_retire lived).2, List.drop_append,
    List.mem_append]
  simp [last, apart]

/-- Moving a record makes the locator forget the earliest retirement if its memory is full, and
changes nothing else about the cursors of other records.
-/
theorem resolve_move (h : l.Sound) {left : Position K} (lived : l.live? other = some left)
    (apart : record ≠ other) (arrived : Position K)
    : ((l.retire other).place other arrived).resolve ⟨record⟩
      = if l.remembered.length = l.capacity ∧ l.oldest? = some record then none
        else l.resolve ⟨record⟩ := by
  have sound := (h.retire other).place other arrived
  have live : ((l.retire other).place other arrived).live? record = l.live? record := by
    rw [live?_place, if_neg apart, live?_retire, if_neg apart]
  have kept := h.mem_remembered_move lived apart arrived
  have few := h.length_remembered_le
  have single := h.queued.single_recalled
  change (l.remembered.map (·.1)).Nodup at single
  split
  next displaced =>
    obtain ⟨full, first⟩ := displaced
    rw [full, Nat.add_sub_cancel_left, List.drop_one] at kept
    cases list : l.remembered with
    | nil => simp [oldest?, list] at first
    | cons x rest =>
        rw [list] at kept single
        obtain rfl : x.1 = record := by simpa [oldest?, list] using first
        have dropped (q : Position K)
            : (x.1, q) ∉ ((l.retire other).place other arrived).remembered := fun member =>
          (List.nodup_cons.mp single).1 (List.mem_map_of_mem (f := (·.1)) ((kept q).mp member))
        have gone : l.live? x.1 = none := by
          refine Option.eq_none_iff_forall_ne_some.mpr fun p lives => ?_
          exact h.not_mem_of_live lives x.2 (by simp [list])
        exact sound.resolve_eq_none (live.trans gone) dropped
  next stays =>
    refine h.resolve_congr sound live fun q => (kept q).trans ?_
    rcases Nat.lt_or_eq_of_le few with room | full
    · rw [Nat.sub_eq_zero_of_le room, List.drop_zero]
    · rw [full, Nat.add_sub_cancel_left, List.drop_one]
      cases list : l.remembered with
      | nil => rfl
      | cons x rest =>
          have notFirst : record ≠ x.1 := fun same =>
            stays ⟨full, by simp [oldest?, list, same]⟩
          have notHead : (record, q) ≠ x := fun same => notFirst (congrArg Prod.fst same)
          simp [notHead]

end Sound

end Locator

/-- A change takes a record from where it stands, which retires it. -/
def Change.isUnlink : Change K V → Bool
  | link _ _ | miss _ _ => false
  | unlink _ _ => true

namespace Write

/-- The entry that a write puts into the index. -/
def entry? : Write K V → Option (Entry V)
  | insert _ entry | update _ _ entry => some entry
  | remove _ _ | clear => none

/-- A write puts no entry of a record into the index and does not make the index forget. -/
def LeavesGone (record : RecordKey) : Write K V → Prop
  | insert _ entry | update _ _ entry => entry.record ≠ record
  | remove _ _ => True
  | clear => False

instance (record : RecordKey) : DecidablePred (LeavesGone (K := K) (V := V) record)
  | insert _ _ | update _ _ _ => inferInstanceAs (Decidable (_ ≠ _))
  | remove _ _ => inferInstanceAs (Decidable True)
  | clear => inferInstanceAs (Decidable False)

end Write

namespace Contents

open Std

variable [Ord K] {c : Contents K V} {w : Write K V} {record : RecordKey} {p : Position K}

/-- The number of retirements in a run of writes. -/
def retirements (c : Contents K V) : List (Write K V) → Nat
  | [] => 0
  | w :: rest => (c.plan w).countP (·.isUnlink) + (c.perform w).retirements rest

/-! ## The memory is sound -/

theorem sound_apply (h : c.locator.Sound) (change : Change K V)
    : (c.apply change).locator.Sound := by
  cases change with
  | link key entry => exact h.place _ _
  | unlink key record => exact h.retire record
  | miss key record => exact h

theorem sound_applyAll (h : c.locator.Sound) (changes : List (Change K V))
    : (c.applyAll changes).locator.Sound := by
  induction changes generalizing c with
  | nil => exact h
  | cons change rest ih => exact ih (sound_apply h change)

theorem sound_perform (h : c.locator.Sound) (w : Write K V) : (c.perform w).locator.Sound := by
  rw [perform_eq]
  split
  · exact c.locator.sound_cleared
  · exact sound_applyAll h _

/-! ## The capacity stays -/

theorem capacity_apply (c : Contents K V) (change : Change K V)
    : (c.apply change).locator.capacity = c.locator.capacity := by
  cases change with
  | link key entry => rfl
  | unlink key record => exact c.locator.capacity_retire record
  | miss key record => rfl

theorem capacity_applyAll (c : Contents K V) (changes : List (Change K V))
    : (c.applyAll changes).locator.capacity = c.locator.capacity := by
  induction changes generalizing c with
  | nil => rfl
  | cons change rest ih => exact (ih (c.apply change)).trans (c.capacity_apply change)

theorem capacity_perform (c : Contents K V) (w : Write K V)
    : (c.perform w).locator.capacity = c.locator.capacity := by
  rw [perform_eq]
  split
  · rfl
  · exact c.capacity_applyAll _

/-! ## The plans of writes that put an entry into the index -/

/-- Such a plan is a link of the entry, or an unlink of its record and then the link. -/
theorem Coherent.placement_cases [OrientedOrd K] (h : c.Coherent) {entry : Entry V}
    (puts : w.entry? = some entry)
    : (∃ key, c.plan w = [.link key entry])
      ∨ ∃ oldKey key, c.tree.holds oldKey entry.record
          ∧ c.plan w = [.unlink oldKey entry.record, .link key entry] := by
  have insertion (key : K)
      : (∃ new, c.insertion key entry = [.link new entry])
        ∨ ∃ old new, c.tree.holds old entry.record
            ∧ c.insertion key entry = [.unlink old entry.record, .link new entry] := by
    rcases h.insertion_cases key entry with ⟨_, plan⟩ | ⟨q, _, _, held, plan⟩
    · exact Or.inl ⟨key, plan⟩
    · exact Or.inr ⟨q.key, key, held, plan⟩
  cases w with
  | insert key placed =>
      obtain rfl : placed = entry := Option.some.inj puts
      exact insertion key
  | update oldKey newKey placed =>
      obtain rfl : placed = entry := Option.some.inj puts
      simp only [plan]
      rcases relocation_cases c oldKey newKey placed with ⟨held, plan⟩ | ⟨_, plan⟩
      · exact Or.inr ⟨oldKey, newKey, held, plan⟩
      · rw [plan]
        exact insertion newKey
  | remove _ _ => contradiction
  | clear => contradiction

/-- A write that leaves a record gone links other records only. -/
theorem Coherent.ne_of_link_mem_plan [OrientedOrd K] (h : c.Coherent) (gone : w.LeavesGone record)
    {key : K} {entry : Entry V} (member : .link key entry ∈ c.plan w)
    : entry.record ≠ record := by
  have placed (put : Entry V) (puts : w.entry? = some put) : entry = put := by
    rcases h.placement_cases puts with ⟨_, plan⟩ | ⟨_, _, _, plan⟩ <;>
      simp [plan] at member <;> exact member.2
  cases w with
  | insert _ put => exact placed put rfl ▸ gone
  | update _ _ put => exact placed put rfl ▸ gone
  | remove key other =>
      simp only [plan, removal] at member
      split at member <;> simp at member
  | clear => exact gone.elim

/-! ## Retirements over a run -/

/-- Changes that link other records push a retirement back by as many places as they unlink. -/
theorem recalls_applyAll {changes : List (Change K V)} (sound : c.locator.Sound) {later : Nat}
    (recalls : c.locator.Recalls record p later)
    (others : ∀ key entry, .link key entry ∈ changes → entry.record ≠ record)
    (room : later + changes.countP (·.isUnlink) < c.locator.capacity)
    : (c.applyAll changes).locator.Recalls record p (later + changes.countP (·.isUnlink)) := by
  induction changes generalizing c later with
  | nil => exact recalls
  | cons change rest ih =>
      have tail : ∀ key entry, .link key entry ∈ rest → entry.record ≠ record :=
        fun key entry member => others key entry (List.mem_cons_of_mem _ member)
      rw [← c.capacity_apply change] at room
      rw [List.countP_cons] at room ⊢
      cases change with
      | link key entry =>
          have apart : entry.record ≠ record := others key entry (by simp)
          simp only [Change.isUnlink, Bool.false_eq_true, if_false, Nat.add_zero] at room ⊢
          exact ih (sound_apply sound _) (recalls.place apart _) tail room
      | unlink key other =>
          simp only [Change.isUnlink, if_true] at room ⊢
          have pushed : (c.apply (.unlink key other)).locator.Recalls record p (later + 1) := by
            refine recalls.retire sound ?_ other
            rw [← c.locator.capacity_retire other]
            change later + 1 < (c.apply (.unlink key other)).locator.capacity
            omega
          rw [Nat.add_comm _ 1, ← Nat.add_assoc] at room ⊢
          exact ih (sound_apply sound _) pushed tail room
      | miss key other =>
          simp only [Change.isUnlink, Bool.false_eq_true, if_false, Nat.add_zero] at room ⊢
          exact ih sound recalls tail room

variable [TransOrd K]

/-- A record that is not brought back is remembered over a run of writes that retires fewer records
than the memory has room for beside it, by induction over the writes.
-/
theorem Coherent.recalls_performAll (h : c.Coherent) (sound : c.locator.Sound) {later : Nat}
    (recalls : c.locator.Recalls record p later) {writes : List (Write K V)}
    (gone : ∀ w ∈ writes, w.LeavesGone record)
    (room : later + c.retirements writes < c.locator.capacity)
    : (c.performAll writes).locator.Recalls record p (later + c.retirements writes) := by
  induction writes generalizing c later with
  | nil => exact recalls
  | cons w rest ih =>
      have first := gone w (by simp)
      have carried : c.perform w = c.applyAll (c.plan w) := by
        rw [perform_eq]
        split
        · exact first.elim
        · rfl
      rw [retirements, ← Nat.add_assoc] at room ⊢
      refine ih (h.perform w) (sound_perform sound w) ?_
        (fun v member => gone v (List.mem_cons_of_mem w member)) ?_
      · rw [carried]
        refine recalls_applyAll sound recalls (fun _ _ => h.ne_of_link_mem_plan first) ?_
        omega
      · rw [capacity_perform]
        exact room

/-! ## What a write does to the cursors of other records -/

/-- A write unlinks a record while the memory is full, and another record is the next to be
forgotten.
-/
def Displaces (c : Contents K V) (w : Write K V) (record : RecordKey) : Prop :=
  (c.plan w).any (·.isUnlink) = true ∧ c.locator.remembered.length = c.locator.capacity
    ∧ c.locator.oldest? = some record

instance (c : Contents K V) (w : Write K V) (record : RecordKey)
    : Decidable (c.Displaces w record) :=
  inferInstanceAs (Decidable (_ ∧ _ ∧ _))

/-- After a write of one record, the cursor of another stands for what it stood for before, unless
the write moves its record with a full memory and the other one is the next to be forgotten.
-/
theorem Coherent.resolve_perform (h : c.Coherent) (sound : c.locator.Sound) {entry : Entry V}
    (puts : w.entry? = some entry) (other : record ≠ entry.record)
    : (c.perform w).locator.resolve ⟨record⟩
      = if c.Displaces w record then none else c.locator.resolve ⟨record⟩ := by
  have carried : c.perform w = c.applyAll (c.plan w) := by
    rw [perform_eq]
    split
    · contradiction
    · rfl
  rcases h.placement_cases puts with ⟨key, plan⟩ | ⟨oldKey, key, held, plan⟩
  · have inPlace : ¬ c.Displaces w record := by simp [Displaces, plan, Change.isUnlink]
    rw [if_neg inPlace, carried, plan]
    exact sound.resolve_place other _
  · obtain ⟨left, lived, _⟩ := h.live_of_holds held
    have moves : c.Displaces w record
        ↔ c.locator.remembered.length = c.locator.capacity
          ∧ c.locator.oldest? = some record := by
      simp [Displaces, plan, Change.isUnlink]
    rw [carried, plan]
    simp only [moves]
    exact sound.resolve_move lived other _

end Contents

end PagedIndex
