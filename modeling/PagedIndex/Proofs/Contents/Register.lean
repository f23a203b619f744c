import Mathlib.Data.Set.Card
import PagedIndex.Proofs.Contents.Standings

/-! Registers: an index seen as a map from records to where they stand with which entry. A register
has writes of its own, which know nothing of buckets or of a locator; writing to an index does to
its register just that.
-/

namespace PagedIndex

open Std

/-- The record that a write is about. Clearing is about none in particular. -/
def Write.record? : Write K V → Option RecordKey
  | .insert _ entry | .update _ _ entry => some entry.record
  | .remove _ record => some record
  | .clear => none

/-- The key under which a write puts its entry, if it puts one. -/
def Write.target? : Write K V → Option K
  | .insert key _ | .update _ key _ => some key
  | .remove _ _ | .clear => none

/-- A map from records to where they stand with which entry. -/
structure Register (K : Type u) (V : Type v) where
  standing? : RecordKey → Option (Standing K V)
  /-- The last number that was given out. -/
  lastSeq : Nat

namespace Register

/-- The records that stand somewhere. -/
def records (r : Register K V) : Set RecordKey := {record | (r.standing? record).isSome}

/-- Puts an entry under a key and a number, in place of what its record had. A number is drawn for
it in any case.
-/
def put (r : Register K V) (key : K) (seq : Nat) (entry : Entry V) : Register K V :=
  { standing? := fun record =>
      if record = entry.record then some ⟨⟨key, seq⟩, entry⟩ else r.standing? record
    lastSeq := r.lastSeq + 1 }

/-- Puts an entry under a key and the number after the last one. -/
def append (r : Register K V) (key : K) (entry : Entry V) : Register K V :=
  r.put key (r.lastSeq + 1) entry

def erase (r : Register K V) (record : RecordKey) : Register K V :=
  { r with standing? := fun other => if other = record then none else r.standing? other }

/-- Nothing stands any more, but the numbers go on. -/
def cleared (r : Register K V) : Register K V := { r with standing? := fun _ => none }

variable [Ord K]

/-- A record stands under a key. -/
def standsUnder (r : Register K V) (key : K) (record : RecordKey) : Bool :=
  (r.standing? record).any fun x => (compare key x.position.key).isEq

/-- Replaces the entry of a record that stands under the key, which keeps its number. Any other
record is put at the end, wherever it stood.
-/
def insert (r : Register K V) (key : K) (entry : Entry V) : Register K V :=
  match r.standing? entry.record with
  | none => r.append key entry
  | some x =>
    if (compare key x.position.key).isEq then r.put key x.position.seq entry
    else r.append key entry

/-- Takes a record away if it stands under the key. -/
def remove (r : Register K V) (key : K) (record : RecordKey) : Register K V :=
  if r.standsUnder key record then r.erase record else r

/-- Puts the entry of a record that stands under the old key at the end of the new one, which may be
the same. Any other record is inserted.
-/
def update (r : Register K V) (oldKey newKey : K) (entry : Entry V) : Register K V :=
  if r.standsUnder oldKey entry.record then r.append newKey entry else r.insert newKey entry

def perform (r : Register K V) : Write K V → Register K V
  | .insert key entry => r.insert key entry
  | .remove key record => r.remove key record
  | .update oldKey newKey entry => r.update oldKey newKey entry
  | .clear => r.cleared

/-- The register after a run of writes. -/
def performAll (r : Register K V) (writes : List (Write K V)) : Register K V :=
  writes.foldl perform r

variable {r : Register K V}

omit [Ord K] in
/-- What is put in place of a record does not depend on what is taken away first. -/
theorem put_erase (r : Register K V) (key : K) (seq : Nat) (entry : Entry V)
    : (r.erase entry.record).put key seq entry = r.put key seq entry := by
  rw [put, put, mk.injEq]
  refine ⟨funext fun record => ?_, rfl⟩
  by_cases same : record = entry.record <;> simp [erase, same]

/-- An insertion puts its entry under the number of the record or under the next one. -/
theorem insert_cases (r : Register K V) (key : K) (entry : Entry V)
    : (∃ x, r.standing? entry.record = some x ∧ compare key x.position.key = .eq
          ∧ r.insert key entry = r.put key x.position.seq entry)
      ∨ (r.standsUnder key entry.record = false ∧ r.insert key entry = r.append key entry) := by
  unfold insert
  cases stands : r.standing? entry.record with
  | none => exact Or.inr ⟨by simp [standsUnder, stands], rfl⟩
  | some x =>
      by_cases here : compare key x.position.key = .eq
      · exact Or.inl ⟨x, rfl, here, by simp [here]⟩
      · exact Or.inr ⟨by simp [standsUnder, stands, here], by simp [here]⟩

/-- A write puts an entry under the number its record has or under the next one, or takes a record
away or all of them.
-/
theorem perform_cases (r : Register K V) (w : Write K V)
    : (∃ key seq entry, w.record? = some entry.record ∧ w.target? = some key
          ∧ r.perform w = r.put key seq entry
          ∧ (seq = r.lastSeq + 1
            ∨ ∃ x, r.standing? entry.record = some x ∧ compare key x.position.key = .eq
              ∧ x.position.seq = seq))
      ∨ (∃ record, w.record? = some record ∧ (r.perform w = r.erase record ∨ r.perform w = r))
      ∨ (w = .clear ∧ r.perform w = r.cleared) := by
  have insertion (key : K) (entry : Entry V)
      : ∃ seq, r.insert key entry = r.put key seq entry
          ∧ (seq = r.lastSeq + 1
            ∨ ∃ x, r.standing? entry.record = some x ∧ compare key x.position.key = .eq
              ∧ x.position.seq = seq) := by
    rcases r.insert_cases key entry with ⟨x, stands, here, kept⟩ | ⟨_, fresh⟩
    · exact ⟨_, kept, Or.inr ⟨x, stands, here, rfl⟩⟩
    · exact ⟨_, fresh, Or.inl rfl⟩
  cases w with
  | insert key entry =>
      obtain ⟨seq, done, number⟩ := insertion key entry
      exact Or.inl ⟨key, seq, entry, rfl, rfl, done, number⟩
  | remove key record =>
      refine Or.inr (Or.inl ⟨record, rfl, ?_⟩)
      simp only [perform, remove]
      split
      · exact Or.inl rfl
      · exact Or.inr rfl
  | update oldKey newKey entry =>
      by_cases under : r.standsUnder oldKey entry.record = true
      · have fresh : r.update oldKey newKey entry = r.append newKey entry := by
          simp [update, under]
        exact Or.inl ⟨newKey, _, entry, rfl, rfl, fresh, Or.inl rfl⟩
      · obtain ⟨seq, done, number⟩ := insertion newKey entry
        have inserted : r.update oldKey newKey entry = r.put newKey seq entry := by
          simp [update, under, done]
        exact Or.inl ⟨newKey, seq, entry, rfl, rfl, inserted, number⟩
  | clear => exact Or.inr (Or.inr ⟨rfl, rfl⟩)

/-- A write leaves every record alone but the one it is about. -/
theorem standing?_perform_of_ne {w : Write K V} {record other : RecordKey}
    (about : w.record? = some record) (apart : other ≠ record)
    : (r.perform w).standing? other = r.standing? other := by
  rcases r.perform_cases w with
    ⟨key, seq, entry, puts, _, done, _⟩ | ⟨taken, takes, done | done⟩ | ⟨rfl, _⟩
  · obtain rfl := Option.some.inj (about.symm.trans puts)
    simp [done, put, apart]
  · obtain rfl := Option.some.inj (about.symm.trans takes)
    simp [done, erase, apart]
  · rw [done]
  · contradiction

/-! ## Numbers -/

/-- No record stands under a number that has not been given out. -/
def Bounded (r : Register K V) : Prop :=
  ∀ record x, r.standing? record = some x → x.position.seq ≤ r.lastSeq

theorem lastSeq_le_perform (r : Register K V) (w : Write K V)
    : r.lastSeq ≤ (r.perform w).lastSeq := by
  rcases r.perform_cases w with
    ⟨key, seq, entry, _, _, done, _⟩ | ⟨record, _, done | done⟩ | ⟨_, done⟩
  all_goals simp [done, put, erase, cleared]

/-- After a write a record has the next number, or the one it had. -/
theorem number_of_perform {w : Write K V} {record : RecordKey} {x : Standing K V}
    (stands : (r.perform w).standing? record = some x)
    : (x.position.seq = r.lastSeq + 1 ∧ (r.perform w).lastSeq = r.lastSeq + 1)
      ∨ ∃ y, r.standing? record = some y ∧ y.position.seq = x.position.seq := by
  rcases r.perform_cases w with
    ⟨key, seq, entry, _, _, done, number⟩ | ⟨taken, _, done | done⟩ | ⟨_, done⟩
  · rw [done] at stands ⊢
    simp only [put] at stands ⊢
    split at stands
    next own =>
      obtain rfl := Option.some.inj stands
      rcases number with next | ⟨y, stood, _, kept⟩
      · exact Or.inl ⟨next, trivial⟩
      · exact Or.inr ⟨y, own ▸ stood, kept⟩
    next => exact Or.inr ⟨x, stands, rfl⟩
  · simp only [done, erase] at stands
    split at stands
    · contradiction
    · exact Or.inr ⟨x, stands, rfl⟩
  · exact Or.inr ⟨x, done ▸ stands, rfl⟩
  · simp [done, cleared] at stands

/-- No number is used twice: after any run of writes a record has a number that had not been given
out before, or the one it had before. By induction over the writes.
-/
theorem number_of_performAll {writes : List (Write K V)} {record : RecordKey} {x : Standing K V}
    (stands : (r.performAll writes).standing? record = some x)
    : r.lastSeq < x.position.seq
      ∨ ∃ y, r.standing? record = some y ∧ y.position.seq = x.position.seq := by
  induction writes generalizing r with
  | nil => exact Or.inr ⟨x, stands, rfl⟩
  | cons w rest ih =>
      rcases ih stands with fresh | ⟨y, stood, same⟩
      · exact Or.inl (Nat.lt_of_le_of_lt (r.lastSeq_le_perform w) fresh)
      · rw [← same]
        exact (number_of_perform stood).imp_left fun next => by omega

end Register

/-! ## The register of an index -/

namespace Contents

variable [Ord K] {c : Contents K V}

/-- What an index holds, as a map. -/
def register (c : Contents K V) : Register K V :=
  { standing? := c.standing?, lastSeq := c.lastSeq }

namespace Coherent

variable [TransOrd K]

theorem register_link (h : c.Coherent) (key : K) (entry : Entry V)
    : (c.apply (.link key entry)).register
      = c.register.put key (c.tree.placedSeq key (c.lastSeq + 1) entry.record) entry := by
  rw [register, Register.put, Register.mk.injEq]
  refine ⟨funext fun record => ?_, rfl⟩
  simp only [standing?, apply, Locator.live?_place, Tree.slot?_insert h.tree.sorted, register]
  by_cases same : record = entry.record <;> simp [same, ReflCmp.compare_self]

theorem register_unlink (h : c.Coherent) (key : K) (record : RecordKey)
    : (c.apply (.unlink key record)).register = c.register.erase record := by
  rw [register, Register.erase, Register.mk.injEq]
  refine ⟨funext fun other => ?_, rfl⟩
  simp only [standing?, apply, Locator.live?_retire, Tree.slot?_erase h.tree.sorted, register]
  by_cases same : other = record <;> simp [same]

/-- A record stands under a key if the bucket there holds it. -/
theorem standsUnder_register (h : c.Coherent) (key : K) (record : RecordKey)
    : c.register.standsUnder key record = c.tree.holds key record := by
  rw [Bool.eq_iff_iff, Register.standsUnder, Option.any_eq_true]
  constructor
  · rintro ⟨x, stands, here⟩
    have here : compare key x.position.key = .eq := by simpa using here
    obtain ⟨_, slot, found, _⟩ := standing?_eq_some_iff.mp stands
    rw [Tree.slot?, ← Tree.slotIn_congr _ here, ← Tree.slot?] at found
    rw [Tree.holds_eq, found, Option.isSome_some]
  · intro held
    obtain ⟨p, live, here⟩ := h.live_of_holds held
    obtain ⟨x, stands, rfl⟩ := h.standing?_of_live live
    exact ⟨x, stands, by simpa using here⟩

/-- Linking a settled record inserts it. -/
theorem register_link_of_settled (h : c.Coherent) {key : K} {entry : Entry V}
    (settled : c.SettledAt key entry.record)
    : (c.apply (.link key entry)).register = c.register.insert key entry := by
  rw [h.register_link]
  rcases h.placedSeq_cases settled with ⟨p, live, kept⟩ | ⟨gone, fresh⟩
  · obtain ⟨x, stands, rfl⟩ := h.standing?_of_live live
    have here := settled x.position live
    simp [Register.insert, register, stands, here, kept]
  · have nowhere : c.standing? entry.record = none := by simp [standing?, gone]
    simp [Register.insert, register, nowhere, Register.append, fresh]

/-- Unlinking a record and linking it anew puts it at the end. -/
theorem register_move (h : c.Coherent) {oldKey : K} (key : K) {entry : Entry V}
    (held : c.tree.holds oldKey entry.record)
    : (c.applyAll [.unlink oldKey entry.record, .link key entry]).register
      = c.register.append key entry := by
  have settled := c.settledAt_unlink oldKey key entry.record
  have nowhere : (c.register.erase entry.record).standing? entry.record = none := by
    simp [Register.erase]
  have moved := (h.unlink held).register_link_of_settled settled
  rw [h.register_unlink, Register.insert, nowhere] at moved
  exact moved.trans (c.register.put_erase key _ entry)

theorem register_insert (h : c.Coherent) (key : K) (entry : Entry V)
    : (c.insert key entry).register = c.register.insert key entry := by
  unfold Contents.insert
  rcases h.insertion_cases key entry with ⟨settled, plan⟩ | ⟨p, live, elsewhere, held, plan⟩
  · rw [plan]
    exact h.register_link_of_settled settled
  · obtain ⟨x, stands, rfl⟩ := h.standing?_of_live live
    have apart : (compare key x.position.key).isEq = false := by simpa using elsewhere
    rw [plan, h.register_move key held]
    simp [Register.insert, register, stands, apart]

/-- A write does to the register what it does to a map. -/
theorem register_perform (h : c.Coherent) (w : Write K V)
    : (c.perform w).register = c.register.perform w := by
  cases w with
  | insert key entry => exact h.register_insert key entry
  | remove key record =>
      simp only [Contents.perform, Contents.remove, removal, Register.perform, Register.remove,
        h.standsUnder_register]
      split
      · exact h.register_unlink key record
      · rfl
  | update oldKey newKey entry =>
      simp only [Contents.perform, Contents.update, Register.perform, Register.update,
        h.standsUnder_register]
      rcases relocation_cases c oldKey newKey entry with ⟨held, plan⟩ | ⟨absent, plan⟩
      · rw [if_pos held, plan]
        exact h.register_move newKey held
      · rw [if_neg absent, plan]
        exact h.register_insert newKey entry
  | clear => rfl

theorem register_performAll (h : c.Coherent) (writes : List (Write K V))
    : (c.performAll writes).register = c.register.performAll writes := by
  induction writes generalizing c with
  | nil => rfl
  | cons w rest ih =>
      have tail := ih (h.perform w)
      rwa [h.register_perform] at tail

omit [TransOrd K] in
/-- Numbers under which records stand have been given out. -/
theorem bounded (h : c.Coherent) : c.register.Bounded := fun record x stands =>
  h.liveBound record x.position (standing?_eq_some_iff.mp stands).1

/-! ## What an index tells of its register -/

theorem keyOf?_eq (h : c.Coherent) (record : RecordKey)
    : c.keyOf? record = (c.register.standing? record).map (·.position.key) := by
  unfold keyOf?
  cases live : c.locator.live? record with
  | none => simp [register, standing?, live]
  | some p =>
      obtain ⟨x, stands, rfl⟩ := h.standing?_of_live live
      simp [register, stands]

theorem contains_eq (h : c.Coherent) (record : RecordKey)
    : c.contains record = (c.register.standing? record).isSome := by
  have keys := congrArg Option.isSome (h.keyOf?_eq record)
  rwa [keyOf?, Option.isSome_map, Option.isSome_map] at keys

/-- The records that stand somewhere are those in the slots of the tree. -/
theorem records_register (h : c.Coherent)
    : c.register.records = ↑(c.tree.slots.map (·.entry.record)).toFinset := by
  ext record
  rw [Register.records, Set.mem_ofPred_eq, ← h.contains_eq, List.coe_toFinset, Set.mem_ofPred_eq,
    h.mem_records_iff]
  rfl

/-- The size counts the records that stand somewhere. -/
theorem size_eq_ncard (h : c.Coherent) : c.tree.size = c.register.records.ncard := by
  rw [h.records_register, Set.ncard_coe_finset, List.toFinset_card_of_nodup h.single,
    List.length_map, h.tree.size_eq]

/-- The size is zero if no record stands anywhere. -/
theorem size_eq_zero_iff (h : c.Coherent)
    : c.tree.size = 0 ↔ ∀ record, c.register.standing? record = none := by
  have finite : c.register.records.Finite := h.records_register ▸ Finset.finite_toSet _
  rw [h.size_eq_ncard, Set.ncard_eq_zero finite, Set.eq_empty_iff_forall_notMem]
  simp [Register.records]

/-- The keys of the leaves are those under which records stand. -/
theorem exists_leaf_iff (h : c.Coherent) (key : K)
    : (∃ leaf ∈ c.tree.leaves, compare key leaf.key = .eq)
      ↔ ∃ record, c.register.standsUnder key record = true := by
  simp only [h.standsUnder_register, Tree.holds_eq, Option.isSome_iff_exists]
  constructor
  · rintro ⟨leaf, found, here⟩
    obtain ⟨slot, rest, shape⟩ := List.exists_cons_of_ne_nil (h.tree.filled leaf found)
    refine ⟨slot.entry.record, slot, h.tree.slot?_eq_some_iff.mpr ⟨leaf, found, here, ?_, rfl⟩⟩
    simp [shape]
  · rintro ⟨record, slot, there⟩
    obtain ⟨leaf, found, here, _⟩ := h.tree.slot?_eq_some_iff.mp there
    exact ⟨leaf, found, here⟩

/-- The record with the latest number stands last in its bucket. -/
theorem getLast?_of_latest (h : c.Coherent) {record : RecordKey} {x : Standing K V}
    (stands : c.standing? record = some x) (latest : x.position.seq = c.lastSeq)
    : (c.tree.bucket? x.position.key).bind (·.slots.getLast?)
      = some ⟨x.position.seq, x.entry⟩ := by
  obtain ⟨live, slot, found, own⟩ := standing?_eq_some_iff.mp stands
  obtain ⟨leaf, member, here, there, _⟩ := h.tree.slot?_eq_some_iff.mp found
  have number : slot.seq = x.position.seq := by
    obtain ⟨p, lives, _, same⟩ := h.live_of_slot? found
    obtain rfl := Option.some.inj (live.symm.trans lives)
    exact same.symm
  -- Nothing can follow the slot, since it would have to have a greater number.
  obtain ⟨before, after, split⟩ := List.append_of_mem there
  have rising := (h.tree.buckets leaf member).rising
  rw [split, List.pairwise_append, List.pairwise_cons] at rising
  have last : after = [] := by
    refine List.eq_nil_iff_forall_not_mem.mpr fun later follows => ?_
    have above := rising.2.1.1 later follows
    have inTree : later ∈ c.tree.slots :=
      List.mem_flatMap.mpr ⟨leaf, member, by simp [split, follows]⟩
    have given := h.seq_le inTree
    omega
  have leafHere : c.tree.leaf? x.position.key = some leaf :=
    (Tree.find?_leaf_eq_some_iff h.tree.sorted).mpr ⟨member, here⟩
  rw [Tree.bucket?, leafHere, Option.map_some, Option.bind_some, split, last,
    List.getLast?_concat, ← number, ← own]

/-- What is selected apart from one record depends on the other records alone. -/
theorem filter_selection_congr {e : Contents K V} (h : c.Coherent) (g : e.Coherent)
    {record : RecordKey} (same : ∀ other, other ≠ record → e.standing? other = c.standing? other)
    (d : Descriptor K)
    : (e.selection d).filter (·.entry.record != record)
      = (c.selection d).filter (·.entry.record != record) := by
  have sortedE := g.sorted_selection (d := d) |>.filter (·.entry.record != record)
  have sortedC := h.sorted_selection (d := d) |>.filter (·.entry.record != record)
  have members (x : Standing K V)
      : x ∈ (e.selection d).filter (·.entry.record != record)
        ↔ x ∈ (c.selection d).filter (·.entry.record != record) := by
    rw [List.mem_filter, List.mem_filter, g.mem_selection_iff, h.mem_selection_iff, bne_iff_ne]
    refine and_congr_left fun apart => ?_
    rw [same _ apart]
  refine List.Perm.eq_of_pairwise ?_ sortedE sortedC ?_
  · intro a b _ _ ab ba
    have := OrientedCmp.gt_of_lt ab
    simp [ba] at this
  · refine (List.perm_ext_iff_of_nodup ?_ ?_).mpr members
    · exact (List.filter_sublist.map _ |>.nodup g.single_selection).of_map _
    · exact (List.filter_sublist.map _ |>.nodup h.single_selection).of_map _

end Coherent

end Contents

end PagedIndex
