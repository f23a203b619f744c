import PagedIndex.Bucket

/-! Buckets stay in order. The view of a bucket is the slot that each record has in it; appending
and erasing are described by what they do to that view.
-/

namespace PagedIndex.Bucket

variable {b : Bucket V}

/-- The slot of a record. -/
def slot? (b : Bucket V) (record : RecordKey) : Option (Slot V) :=
  b.slots.find? fun slot => slot.entry.record == record

/-- Sequence numbers rise strictly along the bucket and no record has two slots. -/
structure Ordered (b : Bucket V) : Prop where
  rising : b.slots.Pairwise (·.seq < ·.seq)
  single : (b.slots.map (·.entry.record)).Nodup

theorem ordered_empty : (empty : Bucket V).Ordered := ⟨.nil, .nil⟩

theorem seqOf?_eq (b : Bucket V) (record : RecordKey)
    : b.seqOf? record = (b.slot? record).map (·.seq) := rfl

theorem contains_eq (b : Bucket V) (record : RecordKey)
    : b.contains record = (b.slot? record).isSome := by
  rw [contains, slot?, Bool.eq_iff_iff, List.any_eq_true, List.find?_isSome]

theorem record_of_slot? {record : RecordKey} {slot : Slot V} (found : b.slot? record = some slot)
    : slot.entry.record = record := by
  simpa using List.find?_some found

/-- In an ordered bucket a slot is the one of its record. -/
theorem Ordered.slot?_eq_some_iff (h : b.Ordered) {record : RecordKey} {slot : Slot V}
    : b.slot? record = some slot ↔ slot ∈ b.slots ∧ slot.entry.record = record := by
  refine ⟨fun found => ⟨List.mem_of_find?_eq_some found, record_of_slot? found⟩, ?_⟩
  obtain ⟨slots⟩ := b
  have single := h.single
  rintro ⟨member, rfl⟩
  clear h
  simp only [slot?] at member ⊢
  induction slots with
  | nil => exact absurd member List.not_mem_nil
  | cons head rest ih =>
      obtain ⟨fresh, distinct⟩ := List.nodup_cons.mp single
      rcases List.mem_cons.mp member with rfl | later
      · simp
      · have other : head.entry.record ≠ slot.entry.record := fun same =>
          fresh (List.mem_map.mpr ⟨slot, later, same.symm⟩)
        simp [other, ih distinct later]

/-! ## Appending -/

/-- Replacing the entry of a record changes what is in its slot and no other slot. -/
private theorem find?_replace (slots : List (Slot V)) (entry : Entry V) (record : RecordKey)
    : (slots.map fun slot =>
          if slot.entry.record == entry.record then { slot with entry } else slot).find?
        (fun slot => slot.entry.record == record)
      = (slots.find? fun slot => slot.entry.record == record).map fun slot =>
          if record = entry.record then { slot with entry } else slot := by
  rw [List.find?_map]
  have kept : ((fun slot : Slot V => slot.entry.record == record) ∘ fun slot =>
      if slot.entry.record == entry.record then { slot with entry } else slot)
      = fun slot => slot.entry.record == record := by
    funext slot
    by_cases replaced : slot.entry.record = entry.record <;> simp [replaced]
  rw [kept]
  cases found : slots.find? fun slot => slot.entry.record == record with
  | none => rfl
  | some slot =>
      have own : slot.entry.record = record := by simpa using List.find?_some found
      simp [own]

/-- Appending gives the record of the entry its slot, and leaves the other slots as they are. -/
theorem slot?_append (b : Bucket V) (seq : Nat) (entry : Entry V) (record : RecordKey)
    : (b.append seq entry).slot? record
      = if record = entry.record then some ⟨b.placedSeq seq entry.record, entry⟩
        else b.slot? record := by
  have held := b.contains_eq entry.record
  cases found : b.slot? entry.record with
  | some slot =>
      simp only [found, Option.isSome_some] at held
      simp only [append, held, if_true, placedSeq, seqOf?_eq, found]
      simp only [slot?] at found ⊢
      rw [find?_replace]
      by_cases same : record = entry.record
      · subst same
        simp [found]
      · simp [same]
  | none =>
      simp only [found, Option.isSome_none] at held
      simp only [append, held, Bool.false_eq_true, if_false, placedSeq, seqOf?_eq, found]
      simp only [slot?] at found ⊢
      rw [List.find?_append]
      by_cases same : record = entry.record
      · subst same
        simp [found]
      · simp [same, Ne.symm same]

/-- The numbers along a bucket are not touched by appending, but for one that comes in last. -/
theorem map_seq_append (b : Bucket V) (seq : Nat) (entry : Entry V)
    : (b.append seq entry).slots.map (·.seq)
      = b.slots.map (·.seq) ++ if b.contains entry.record then [] else [seq] := by
  unfold append
  split
  · simp only [List.map_map, List.append_nil]
    refine List.map_congr_left fun slot _ => ?_
    simp only [Function.comp_apply]
    split <;> rfl
  · simp

/-- Nor are the records along a bucket. -/
theorem map_record_append (b : Bucket V) (seq : Nat) (entry : Entry V)
    : (b.append seq entry).slots.map (·.entry.record)
      = b.slots.map (·.entry.record) ++ if b.contains entry.record then [] else [entry.record] := by
  unfold append
  split
  · simp only [List.map_map, List.append_nil]
    refine List.map_congr_left fun slot _ => ?_
    simp only [Function.comp_apply]
    split
    next same => exact (eq_of_beq same).symm
    next => rfl
  · simp

/-- Appending adds one entry unless it replaces one. -/
theorem size_append (b : Bucket V) (seq : Nat) (entry : Entry V)
    : (b.append seq entry).size = b.size + if b.contains entry.record then 0 else 1 := by
  have lengths := congrArg List.length (b.map_seq_append seq entry)
  simp only [List.length_map, List.length_append] at lengths
  rw [size, lengths, size]
  split <;> rfl

/-- A bucket stays in order when the number that comes in lies above all its numbers. -/
theorem Ordered.append (h : b.Ordered) {seq : Nat} (last : ∀ slot ∈ b.slots, slot.seq < seq)
    (entry : Entry V)
    : (b.append seq entry).Ordered := by
  constructor
  · have rising : (b.slots.map (·.seq)).Pairwise (· < ·) := List.pairwise_map.mpr h.rising
    have appended : ((b.append seq entry).slots.map (·.seq)).Pairwise (· < ·) := by
      rw [map_seq_append]
      split
      · simpa using rising
      · refine List.pairwise_append.mpr ⟨rising, by simp, ?_⟩
        simpa using last
    exact List.pairwise_map.mp appended
  · rw [map_record_append]
    split
    · simpa using h.single
    next absent =>
      refine List.nodup_append.mpr ⟨h.single, by simp, ?_⟩
      intro held member incoming added same
      subst same
      obtain rfl := List.mem_singleton.mp added
      obtain ⟨slot, found, own⟩ := List.mem_map.mp member
      exact absent (List.any_eq_true.mpr ⟨slot, found, beq_iff_eq.mpr own⟩)

theorem append_ne_nil (b : Bucket V) (seq : Nat) (entry : Entry V)
    : (b.append seq entry).slots ≠ [] := by
  intro empty
  have lost := b.slot?_append seq entry entry.record
  simp [slot?, empty] at lost

/-! ## Erasing -/

/-- Erasing takes the slot of a record away and leaves the other slots as they are. -/
theorem slot?_erase (b : Bucket V) (erased record : RecordKey)
    : (b.erase erased).slot? record = if record = erased then none else b.slot? record := by
  simp only [erase, slot?, List.find?_filter]
  by_cases same : record = erased
  · subst same
    simp
  · rw [if_neg same]
    congr 1
    funext slot
    by_cases here : slot.entry.record = record <;> simp [here, same]

theorem Ordered.erase (h : b.Ordered) (record : RecordKey) : (b.erase record).Ordered where
  rising := h.rising.filter _
  single := (List.filter_sublist.map _).nodup h.single

/-- Erasing a record that is held takes one entry away. -/
theorem Ordered.size_erase (h : b.Ordered) {record : RecordKey} (held : b.contains record)
    : (b.erase record).size = b.size - 1 := by
  have present : record ∈ b.slots.map (·.entry.record) := by
    obtain ⟨slot, found, own⟩ := List.any_eq_true.mp held
    exact List.mem_map.mpr ⟨slot, found, eq_of_beq own⟩
  have records : (b.erase record).slots.map (·.entry.record)
      = (b.slots.map (·.entry.record)).erase record := by
    rw [h.single.erase_eq_filter, List.filter_map]
    rfl
  have lengths := congrArg List.length records
  rwa [List.length_map, List.length_erase_of_mem present, List.length_map] at lengths

end PagedIndex.Bucket
