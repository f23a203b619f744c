import PagedIndex.Proofs.Contents.Renumbering
import PagedIndex.Proofs.Store.Selection
import PagedIndex.Proofs.Store.WritePath

/-! Independent writes commute. Made the other way round they leave a store of the same size with as
many keys, they give their callers the same answers, and every scan from the near end of its range
or from a live record yields the same groups.
-/

namespace PagedIndex

open Std

variable [Ord K]

/-- Groups under keys that compare as equal, with the same entries to come. -/
structure Group.Alike (a b : Group K V) : Prop where
  key : compare a.key b.key = .eq
  pending : a.pending = b.pending

/-! ## Divisions of rows alike -/

variable [TransOrd K] {rows counterparts : List (Standing K V)}

/-- Rows that go side by side have the same entries under equal keys. -/
theorem entries_eq_of_alike (alike : List.Forall₂ Standing.Alike rows counterparts) {key near : K}
    (same : compare key near = .eq)
    : (rows.filter fun x => (compare key x.position.key).isEq).map (·.entry)
      = (counterparts.filter fun x => (compare near x.position.key).isEq).map (·.entry) := by
  induction alike with
  | nil => rfl
  | @cons x y _ _ head _ ih =>
      have under : compare key x.position.key = compare near y.position.key := by
        rw [TransCmp.congr_left same, TransCmp.congr_right head.key]
      simp only [List.filter_cons, under]
      split
      · rw [List.map_cons, List.map_cons, head.entry, ih]
      · exact ih

namespace DividedByKey

variable {direction : Direction} {groups others : List (Group K V)}

/-- For every group there is one with its key on the other side. -/
theorem exists_near (h : DividedByKey direction rows groups)
    (g : DividedByKey direction counterparts others)
    (alike : List.Forall₂ Standing.Alike rows counterparts) {group : Group K V}
    (member : group ∈ groups)
    : ∃ other ∈ others, compare group.key other.key = .eq := by
  have filled := h.filled group member
  rw [h.pending group member, entries_eq_of_alike alike ReflCmp.compare_self] at filled
  obtain ⟨entry, there⟩ := List.exists_mem_of_ne_nil _ filled
  obtain ⟨y, underKey, _⟩ := List.mem_map.mp there
  obtain ⟨row, near⟩ := List.mem_filter.mp underKey
  obtain ⟨other, found, covers⟩ := g.covered y row
  exact ⟨other, found, TransCmp.eq_trans (by simpa using near) (OrientedCmp.eq_symm covers)⟩

/-- The groups that divide rows alike go side by side. -/
theorem alike (h : DividedByKey direction rows groups)
    (g : DividedByKey direction counterparts others)
    (alike : List.Forall₂ Standing.Alike rows counterparts)
    : List.Forall₂ Group.Alike groups others := by
  have flipped : List.Forall₂ Standing.Alike counterparts rows :=
    (alike.imp fun _ _ related => related.symm).flip
  refine forall₂_of_ascending direction.compare h.advancing g.advancing ?_ ?_ ?_
  · intro group member
    obtain ⟨other, found, near⟩ := h.exists_near g alike member
    exact ⟨other, found, direction.compare_eq_iff.mpr near⟩
  · intro other member
    obtain ⟨group, found, near⟩ := g.exists_near h flipped member
    exact ⟨group, found, direction.compare_eq_iff.mpr (OrientedCmp.eq_symm near)⟩
  · intro group member other found near
    have same := direction.compare_eq_iff.mp near
    refine ⟨same, ?_⟩
    rw [h.pending group member, g.pending other found]
    exact entries_eq_of_alike alike same

end DividedByKey

/-! ## Scans of stores alike -/

namespace Store

variable {s t : Store K V} {d : Descriptor K}

omit [TransOrd K] in
/-- A scan is refused by two stores for the same fault of its descriptor, or it is opened in both
and yields the same groups when it is drained without writes.
-/
def ScansAlike (s t : Store K V) (d : Descriptor K) : Prop :=
  match d.validate with
  | .error fault => (s.scan d).1 = .error fault ∧ (t.scan d).1 = .error fault
  | .ok () =>
      ∃ mine theirs groups others, (s.scan d).1 = .ok mine ∧ (t.scan d).1 = .ok theirs
        ∧ mine.Drains (s.scan d).2.contents.tree groups
        ∧ theirs.Drains (t.scan d).2.contents.tree others
        ∧ List.Forall₂ Group.Alike groups others

/-- Stores with registers alike resume alike, from the near end of a range or from after any record
that is live.
-/
theorem exists_resumesAlike (h : s.contents.Coherent)
    (alike : s.contents.register.Alike t.contents.register)
    (live : ∀ cursor ∈ d.cursor, s.contents.contains cursor.record = true)
    : ∃ mine theirs, s.Resumes d mine ∧ t.Resumes d theirs
        ∧ s.contents.register.ResumesAlike t.contents.register mine theirs := by
  unfold Resumes
  cases carried : d.cursor with
  | none => exact ⟨none, none, rfl, rfl, Or.inl ⟨rfl, rfl⟩⟩
  | some cursor =>
      obtain ⟨x, standsX⟩ : ∃ x, s.contents.standing? cursor.record = some x := by
        rw [← Option.isSome_iff_exists, ← live cursor carried, h.contains_eq]
        rfl
      obtain ⟨y, standsY, _⟩ := exists_of_rel (alike.standing cursor.record) standsX
      exact ⟨some x.position, some y.position,
        ⟨_, Contents.resolve_of_standing? standsX, rfl⟩,
        ⟨_, Contents.resolve_of_standing? standsY, rfl⟩,
        Or.inr ⟨cursor.record, x, y, standsX, standsY, rfl, rfl⟩⟩

/-- Stores with registers alike are scanned alike. -/
theorem scansAlike_of_alike (h : s.contents.Coherent) (g : t.contents.Coherent)
    (alike : s.contents.register.Alike t.contents.register)
    (live : ∀ cursor ∈ d.cursor, s.contents.contains cursor.record = true)
    : s.ScansAlike t d := by
  unfold ScansAlike
  split
  next fault invalid => exact ⟨scan_eq_error invalid, scan_eq_error invalid⟩
  next valid =>
    rw [contents_scan, contents_scan]
    by_cases nothing : d.isEmptyRange = true
    · have drained (u : Store K V)
          : (Scan.nothing d.direction : Scan K V).Drains u.contents.tree [] :=
        Scan.drains_groups (s := .nothing d.direction) (Tree.ordered_nil 0)
      exact ⟨_, _, [], [], scan_eq_nothing valid nothing, scan_eq_nothing valid nothing, drained s,
        drained t, .nil⟩
    · have possible := Bool.eq_false_iff.mpr nothing
      obtain ⟨mine, theirs, resumesS, resumesT, together⟩ := exists_resumesAlike h alike live
      have rows : List.Forall₂ Standing.Alike (s.contents.remaining d mine)
          (t.contents.remaining d theirs) := h.remaining_alike g alike together
      exact ⟨_, _, _, _, scan_eq valid possible resumesS, scan_eq valid possible resumesT,
        Scan.drains_groups (ordered_viewFor h d), Scan.drains_groups (ordered_viewFor g d),
        (dividedByKey_remaining h possible mine).alike
          (dividedByKey_remaining g possible theirs) rows⟩

/-! ## Independent writes -/

omit [TransOrd K] in
/-- What a write tells its caller: whether it found its record, unless it does not look for one. -/
def answer (s : Store K V) (held : Holdings K V) : Write K V → Option Bool
  | .insert _ _ | .clear => none
  | .remove key record => some (s.remove held key record).1
  | .update oldKey newKey entry => some (s.update held oldKey newKey entry).1

/-- The answer of a write depends only on where its record stands. -/
theorem answer_congr (h : s.contents.Coherent) (g : t.contents.Coherent) (held other : Holdings K V)
    {w : Write K V} {record : RecordKey} (about : w.record? = some record)
    (same : s.contents.standing? record = t.contents.standing? record)
    : s.answer held w = t.answer other w := by
  have holds (key : K) : s.contents.tree.holds key record = t.contents.tree.holds key record := by
    rw [← h.standsUnder_register, ← g.standsUnder_register]
    simp only [Register.standsUnder, Contents.register, same]
  cases w with
  | insert key entry => rfl
  | remove key taken =>
      obtain rfl := Option.some.inj about
      rw [answer, answer, (s.found_remove held key taken).1, (t.found_remove other key taken).1,
        holds]
  | update oldKey newKey entry =>
      obtain rfl := Option.some.inj about
      exact congrArg some (holds oldKey)
  | clear => rfl

/-- In every reachable store two writes about different records that do not put them under equal
keys may be made in either order, whatever readers hold at them. The stores are of one size and have
as many keys, both writes give the same answer in both orders, and every scan without a cursor or
with one of a record that is live afterwards yields the same groups, although the numbers may differ.
-/
theorem independent_writes_commute (h : s.Reachable) {v w : Write K V}
    (independent : v.Independent w) (a b a' b' : Holdings K V)
    : ((s.perform a v).perform b w).size = ((s.perform b' w).perform a' v).size
      ∧ ((s.perform a v).perform b w).keyCount = ((s.perform b' w).perform a' v).keyCount
      ∧ s.answer a v = (s.perform b' w).answer a' v
      ∧ (s.perform a v).answer b w = s.answer b' w
      ∧ ∀ d : Descriptor K,
          (∀ cursor ∈ d.cursor,
            ((s.perform a v).perform b w).contents.contains cursor.record = true)
          → ((s.perform a v).perform b w).ScansAlike ((s.perform b' w).perform a' v) d := by
  have coherent := h.coherent
  have first := ((h.written a v).written b w).coherent
  have second := ((h.written b' w).written a' v).coherent
  have alike : ((s.perform a v).perform b w).contents.register.Alike
      ((s.perform b' w).perform a' v).contents.register := by
    simp only [contents_perform]
    rw [(coherent.perform v).register_perform, (coherent.perform w).register_perform,
      coherent.register_perform, coherent.register_perform]
    exact Register.alike_perform_perform coherent.bounded independent
  obtain ⟨p, q, aboutV, aboutW, different⟩ := independent.records
  refine ⟨first.size_eq_of_alike second alike, first.keyCount_eq_of_alike second alike, ?_, ?_, ?_⟩
  · exact answer_congr coherent (h.written b' w).coherent a a' aboutV
      ((turns_perform coherent b' w).others q p aboutW different).symm
  · exact answer_congr (h.written a v).coherent coherent b b' aboutW
      ((turns_perform coherent a v).others p q aboutV different.symm)
  · exact fun d live => scansAlike_of_alike first second alike live

/-- The second record moves away from where the third one is put, so that the bucket there is taken
down and set up again in the one order but not in the other.
-/
theorem afterMoves_commute
    : (Write.insert 5 ⟨⟨[2]⟩, "g"⟩ : Write Int String).Independent (.insert 7 ⟨⟨[3]⟩, "h"⟩)
      ∧ ((afterMoves.perform .empty (.insert 5 ⟨⟨[2]⟩, "g"⟩)).perform .empty
          (.insert 7 ⟨⟨[3]⟩, "h"⟩)).ScansAlike
        ((afterMoves.perform .empty (.insert 7 ⟨⟨[3]⟩, "h"⟩)).perform .empty
          (.insert 5 ⟨⟨[2]⟩, "g"⟩)) ((Descriptor.all .ascending).resumed (some ⟨⟨[1]⟩⟩)) := by
  have independent
      : (Write.insert 5 ⟨⟨[2]⟩, "g"⟩ : Write Int String).Independent (.insert 7 ⟨⟨[3]⟩, "h"⟩) :=
    ⟨⟨⟨[2]⟩, ⟨[3]⟩, rfl, rfl, by decide⟩, by simp [Write.target?]⟩
  obtain ⟨_, _, _, _, scans⟩ :=
    independent_writes_commute afterMoves_reachable independent .empty .empty .empty .empty
  refine ⟨independent, scans _ fun cursor carried => ?_⟩
  obtain rfl := Option.some.inj carried
  decide

end Store

end PagedIndex
