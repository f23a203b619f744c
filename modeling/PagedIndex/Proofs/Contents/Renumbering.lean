import PagedIndex.Proofs.Contents.Register

/-! Indexes that differ only in their numbers. Writes of different records that are made the other
way round draw other numbers, but every record stands under the same key, with the same entry and in
the same order to all others. Nothing that is read depends on more than that.
-/

namespace PagedIndex

open Std

/-- Two strictly ascending lists that cover each other go side by side. -/
theorem forall₂_of_ascending (cmp : T → T → Ordering) [TransCmp cmp] {f : α → T} {g : β → T}
    {R : α → β → Prop} {xs : List α} {ys : List β}
    (sortedX : xs.Pairwise fun a b => cmp (f a) (f b) = .lt)
    (sortedY : ys.Pairwise fun a b => cmp (g a) (g b) = .lt)
    (left : ∀ x ∈ xs, ∃ y ∈ ys, cmp (f x) (g y) = .eq)
    (right : ∀ y ∈ ys, ∃ x ∈ xs, cmp (f x) (g y) = .eq)
    (related : ∀ x ∈ xs, ∀ y ∈ ys, cmp (f x) (g y) = .eq → R x y)
    : List.Forall₂ R xs ys := by
  induction xs generalizing ys with
  | nil =>
      cases ys with
      | nil => exact .nil
      | cons y _ =>
          obtain ⟨x, member, _⟩ := right y (by simp)
          exact absurd member List.not_mem_nil
  | cons x rest ih =>
      obtain ⟨partner, there, matched⟩ := left x (by simp)
      cases ys with
      | nil => exact absurd there List.not_mem_nil
      | cons y more =>
          obtain ⟨aboveX, tailX⟩ := List.pairwise_cons.mp sortedX
          obtain ⟨aboveY, tailY⟩ := List.pairwise_cons.mp sortedY
          -- Were the partner of either head further on, the other head would have none.
          have heads : cmp (f x) (g y) = .eq := by
            rcases List.mem_cons.mp there with rfl | further
            · exact matched
            · obtain ⟨other, member, near⟩ := right y (by simp)
              rcases List.mem_cons.mp member with rfl | beyond
              · exact near
              · have down : cmp (g y) (f x) = .lt :=
                  TransCmp.lt_of_lt_of_eq (aboveY partner further) (OrientedCmp.eq_symm matched)
                have up : cmp (f x) (g y) = .lt :=
                  TransCmp.lt_of_lt_of_eq (aboveX other beyond) near
                simp [OrientedCmp.gt_of_lt down] at up
          refine .cons (related x (by simp) y (by simp) heads) (ih tailX tailY ?_ ?_ ?_)
          · intro a member
            obtain ⟨b, found, near⟩ := left a (by simp [member])
            rcases List.mem_cons.mp found with rfl | later
            · have := TransCmp.lt_of_eq_of_lt (OrientedCmp.eq_symm heads) (aboveX a member)
              simp [OrientedCmp.eq_symm near] at this
            · exact ⟨b, later, near⟩
          · intro b member
            obtain ⟨a, found, near⟩ := right b (by simp [member])
            rcases List.mem_cons.mp found with rfl | later
            · have := TransCmp.lt_of_eq_of_lt heads (aboveY b member)
              simp [near] at this
            · exact ⟨a, later, near⟩
          · exact fun a memberA b memberB =>
              related a (by simp [memberA]) b (by simp [memberB])

/-! ## Options side by side -/

theorem rel_imp {R S : α → β → Prop} {a : Option α} {b : Option β} (h : Option.Rel R a b)
    (imp : ∀ x y, R x y → S x y)
    : Option.Rel S a b := by
  cases h with
  | none => exact .none
  | some related => exact .some (imp _ _ related)

theorem rel_swap {R : α → β → Prop} {a : Option α} {b : Option β} (h : Option.Rel R a b)
    : Option.Rel (fun y x => R x y) b a := by
  cases h with
  | none => exact .none
  | some related => exact .some related

theorem exists_of_rel {R : α → β → Prop} {a : Option α} {b : Option β} (h : Option.Rel R a b)
    {x : α} (found : a = some x)
    : ∃ y, b = some y ∧ R x y := by
  subst found
  cases h with
  | some related => exact ⟨_, rfl, related⟩

/-! ## Registers up to their numbers -/

variable [Ord K]

/-- Two standings under equal keys with the same entry. -/
structure Standing.Alike (x y : Standing K V) : Prop where
  key : compare x.position.key y.position.key = .eq
  entry : x.entry = y.entry

theorem Standing.Alike.symm [OrientedOrd K] {x y : Standing K V} (h : x.Alike y) : y.Alike x where
  key := OrientedCmp.eq_symm h.key
  entry := h.entry.symm

/-- A standing and what it has become under other numbers. The number is the same if it had been
given out by a moment, and otherwise it is in both cases one that was given out later.
-/
structure Standing.Renumbered (n : Nat) (x y : Standing K V) : Prop where
  key : x.position.key = y.position.key
  entry : x.entry = y.entry
  number
    : (x.position.seq = y.position.seq ∧ x.position.seq ≤ n)
      ∨ (n < x.position.seq ∧ n < y.position.seq)

omit [Ord K] in
theorem Standing.Renumbered.symm {n : Nat} {x y : Standing K V} (h : x.Renumbered n y)
    : y.Renumbered n x where
  key := h.key.symm
  entry := h.entry.symm
  number := by
    have := h.number
    omega

/-- Where two standings stand to each other does not depend on their numbers unless both are new
under equal keys.
-/
theorem Standing.Renumbered.compare_eq {n : Nat} {x y x' y' : Standing K V}
    (hx : x.Renumbered n x') (hy : y.Renumbered n y')
    (apart
      : n < x.position.seq → n < y.position.seq
        → compare x.position.key y.position.key ≠ .eq)
    : x.position.compare .ascending y.position = x'.position.compare .ascending y'.position := by
  simp only [Position.compare, Direction.compare, ← hx.key, ← hy.key]
  cases keys : compare x.position.key y.position.key with
  | lt => rfl
  | gt => rfl
  | eq =>
      change compare x.position.seq y.position.seq = compare x'.position.seq y'.position.seq
      rcases hx.number with ⟨sameX, oldX⟩ | ⟨newX, newX'⟩ <;>
        rcases hy.number with ⟨sameY, oldY⟩ | ⟨newY, newY'⟩
      · rw [sameX, sameY]
      · rw [Nat.compare_eq_lt.mpr (by omega), Nat.compare_eq_lt.mpr (by omega)]
      · rw [Nat.compare_eq_gt.mpr (by omega), Nat.compare_eq_gt.mpr (by omega)]
      · exact absurd keys (apart newX newY)

/-- Two writes about different records that do not put them under equal keys. -/
structure Write.Independent (v w : Write K V) : Prop where
  records : ∃ p q, v.record? = some p ∧ w.record? = some q ∧ p ≠ q
  targets : ∀ k ∈ v.target?, ∀ l ∈ w.target?, compare k l ≠ .eq

namespace Register

/-- Two registers in which the same records stand, alike and in the same order. -/
structure Alike (a b : Register K V) : Prop where
  standing : ∀ record, Option.Rel Standing.Alike (a.standing? record) (b.standing? record)
  order
    : ∀ p q x y x' y', a.standing? p = some x → a.standing? q = some y
        → b.standing? p = some x' → b.standing? q = some y'
        → x.position.compare .ascending y.position = x'.position.compare .ascending y'.position

variable {r r' : Register K V} {n : Nat}

/-! ## Writes in another order -/

/-- What a write makes of its record depends on where that stood, and for a new number on when the
write is made.
-/
theorem renumbered_perform (bounded : r.Bounded) {w : Write K V} {record : RecordKey}
    (about : w.record? = some record) (same : r'.standing? record = r.standing? record)
    (later : r.lastSeq ≤ r'.lastSeq)
    : Option.Rel (Standing.Renumbered r.lastSeq) ((r.perform w).standing? record)
        ((r'.perform w).standing? record) := by
  have under (key : K) : r'.standsUnder key record = r.standsUnder key record := by
    rw [standsUnder, standsUnder, same]
  have appended (key : K) (entry : Entry V) (own : entry.record = record)
      : Option.Rel (Standing.Renumbered r.lastSeq) ((r.append key entry).standing? record)
          ((r'.append key entry).standing? record) := by
    simp only [append, put, own, if_true]
    exact .some ⟨rfl, rfl, Or.inr ⟨Nat.lt_succ_self _, Nat.lt_succ_of_le later⟩⟩
  have inserted (key : K) (entry : Entry V) (own : entry.record = record)
      : Option.Rel (Standing.Renumbered r.lastSeq) ((r.insert key entry).standing? record)
          ((r'.insert key entry).standing? record) := by
    unfold insert
    rw [own, same]
    cases stands : r.standing? record with
    | none => exact appended key entry own
    | some x =>
        simp only
        split
        · simp only [put, own, if_true]
          exact .some ⟨rfl, rfl, Or.inl ⟨rfl, bounded record x stands⟩⟩
        · exact appended key entry own
  cases w with
  | insert key entry => exact inserted key entry (Option.some.inj about)
  | remove key taken =>
      obtain rfl := Option.some.inj about
      simp only [perform, remove, under]
      split
      · simp only [erase, if_true]
        exact .none
      · rw [same]
        cases stands : r.standing? taken with
        | none => exact .none
        | some x => exact .some ⟨rfl, rfl, Or.inl ⟨rfl, bounded taken x stands⟩⟩
  | update oldKey newKey entry =>
      have own : entry.record = record := Option.some.inj about
      simp only [perform, update, own, under]
      split
      · exact appended newKey entry own
      · exact inserted newKey entry own
  | clear => contradiction

/-- A record with a number that it did not have before stands where its write has put it. -/
theorem key_of_new_number {w : Write K V} {record : RecordKey} {x : Standing K V}
    (about : w.record? = some record) (stands : (r.perform w).standing? record = some x)
    (new : ∀ y, r.standing? record = some y → y.position.seq ≠ x.position.seq)
    : x.position.key ∈ w.target? := by
  rcases r.perform_cases w with
    ⟨key, seq, entry, puts, target, done, _⟩ | ⟨taken, takes, done | done⟩ | ⟨rfl, _⟩
  · obtain rfl := Option.some.inj (about.symm.trans puts)
    simp only [done, put, if_true] at stands
    obtain rfl := Option.some.inj stands
    exact target
  · obtain rfl := Option.some.inj (about.symm.trans takes)
    simp [done, erase] at stands
  · rw [done] at stands
    exact absurd rfl (new x stands)
  · contradiction

variable [TransOrd K]

/-- Independent writes made in either order leave registers that differ only in their numbers. -/
theorem alike_perform_perform (bounded : r.Bounded) {v w : Write K V}
    (independent : v.Independent w)
    : ((r.perform v).perform w).Alike ((r.perform w).perform v) := by
  obtain ⟨p, q, aboutV, aboutW, different⟩ := independent.records
  have renumbered (record : RecordKey)
      : Option.Rel (Standing.Renumbered r.lastSeq)
          (((r.perform v).perform w).standing? record)
          (((r.perform w).perform v).standing? record) := by
    by_cases mine : record = p
    · subst mine
      rw [standing?_perform_of_ne aboutW different]
      exact renumbered_perform bounded aboutV (standing?_perform_of_ne aboutW different)
        (r.lastSeq_le_perform w)
    · by_cases theirs : record = q
      · subst theirs
        rw [standing?_perform_of_ne aboutV mine]
        have own := renumbered_perform bounded aboutW (standing?_perform_of_ne aboutV mine)
          (r.lastSeq_le_perform v)
        exact rel_imp (rel_swap own) fun _ _ => Standing.Renumbered.symm
      · rw [standing?_perform_of_ne aboutW theirs, standing?_perform_of_ne aboutV mine,
          standing?_perform_of_ne aboutV mine, standing?_perform_of_ne aboutW theirs]
        cases stands : r.standing? record with
        | none => exact .none
        | some x => exact .some ⟨rfl, rfl, Or.inl ⟨rfl, bounded record x stands⟩⟩
  -- A new number comes from the write of its record, and the two writes put under different keys.
  have origin (record : RecordKey) (x : Standing K V)
      (stands : ((r.perform v).perform w).standing? record = some x)
      (new : r.lastSeq < x.position.seq)
      : (record = p ∧ x.position.key ∈ v.target?)
        ∨ (record = q ∧ x.position.key ∈ w.target?) := by
    have notBefore (y : Standing K V) (stood : r.standing? record = some y)
        : y.position.seq ≠ x.position.seq := by
      have := bounded record y stood
      omega
    by_cases mine : record = p
    · subst mine
      rw [standing?_perform_of_ne aboutW different] at stands
      exact Or.inl ⟨rfl, key_of_new_number aboutV stands notBefore⟩
    · rw [← standing?_perform_of_ne aboutV mine] at notBefore
      by_cases theirs : record = q
      · subst theirs
        exact Or.inr ⟨rfl, key_of_new_number aboutW stands notBefore⟩
      · rw [standing?_perform_of_ne aboutW theirs] at stands
        exact absurd rfl (notBefore x stands)
  refine ⟨fun record => rel_imp (renumbered record) fun x y moved => ?_, ?_⟩
  · exact ⟨moved.key ▸ ReflCmp.compare_self, moved.entry⟩
  · intro a b x y x' y' standsX standsY standsX' standsY'
    have movedX : x.Renumbered r.lastSeq x' := by
      have moved := renumbered a
      rwa [standsX, standsX', Option.rel_some_some] at moved
    have movedY : y.Renumbered r.lastSeq y' := by
      have moved := renumbered b
      rwa [standsY, standsY', Option.rel_some_some] at moved
    by_cases same : a = b
    · subst same
      obtain rfl := Option.some.inj (standsX.symm.trans standsY)
      obtain rfl := Option.some.inj (standsX'.symm.trans standsY')
      have here (p : Position K) : p.compare .ascending p = .eq := ReflCmp.compare_self
      rw [here, here]
    · refine movedX.compare_eq movedY fun newX newY equal => ?_
      rcases origin a x standsX newX with ⟨rfl, keyX⟩ | ⟨rfl, keyX⟩ <;>
        rcases origin b y standsY newY with ⟨rfl, keyY⟩ | ⟨rfl, keyY⟩
      · exact same rfl
      · exact independent.targets _ keyX _ keyY equal
      · exact independent.targets _ keyY _ keyX (OrientedCmp.eq_symm equal)
      · exact same rfl

namespace Alike

variable {a b : Register K V}

omit [TransOrd K] in
theorem records_eq (h : a.Alike b) : a.records = b.records := by
  ext record
  simp only [records, Set.mem_ofPred_eq]
  have alike := h.standing record
  generalize a.standing? record = x, b.standing? record = y at alike ⊢
  cases alike <;> rfl

theorem standsUnder_eq (h : a.Alike b) (key : K) (record : RecordKey)
    : a.standsUnder key record = b.standsUnder key record := by
  unfold standsUnder
  have alike := h.standing record
  generalize a.standing? record = x, b.standing? record = y at alike ⊢
  cases alike with
  | none => rfl
  | some alike => rw [Option.any_some, Option.any_some, TransCmp.congr_right alike.key]

theorem symm (h : a.Alike b) : b.Alike a where
  standing record := rel_imp (rel_swap (h.standing record)) fun _ _ => Standing.Alike.symm
  order p q x y x' y' atP atQ atP' atQ' := (h.order p q x' y' x y atP' atQ' atP atQ).symm

omit [TransOrd K] in
/-- The order of two standings is the same in either direction of travel. -/
theorem compare_eq (h : a.Alike b) (direction : Direction) {p q : RecordKey}
    {x y x' y' : Standing K V} (standsX : a.standing? p = some x) (standsY : a.standing? q = some y)
    (standsX' : b.standing? p = some x') (standsY' : b.standing? q = some y')
    : x.position.compare direction y.position = x'.position.compare direction y'.position := by
  cases direction with
  | ascending => exact h.order p q x y x' y' standsX standsY standsX' standsY'
  | descending => exact h.order q p y x y' x' standsY standsX standsY' standsX'

end Alike

/-- Two readers resume alike: from the start, or after where one and the same record stands. -/
def ResumesAlike (a b : Register K V) (mine theirs : Option (Position K)) : Prop :=
  (mine = none ∧ theirs = none)
  ∨ ∃ record x y, a.standing? record = some x ∧ b.standing? record = some y
      ∧ mine = some x.position ∧ theirs = some y.position

omit [Ord K] [TransOrd K] in
theorem ResumesAlike.symm {a b : Register K V} {mine theirs : Option (Position K)}
    (h : a.ResumesAlike b mine theirs)
    : b.ResumesAlike a theirs mine := by
  rcases h with ⟨rfl, rfl⟩ | ⟨record, x, y, standsX, standsY, rfl, rfl⟩
  · exact Or.inl ⟨rfl, rfl⟩
  · exact Or.inr ⟨record, y, x, standsY, standsX, rfl, rfl⟩

omit [TransOrd K] in
/-- What is due to the one reader is due to the other. -/
theorem ResumesAlike.isBeyond_eq {a b : Register K V} (alike : a.Alike b) {direction : Direction}
    {mine theirs : Option (Position K)} (h : a.ResumesAlike b mine theirs) {record : RecordKey}
    {x y : Standing K V} (standsX : a.standing? record = some x)
    (standsY : b.standing? record = some y)
    : x.position.isBeyond direction mine = y.position.isBeyond direction theirs := by
  rcases h with ⟨rfl, rfl⟩ | ⟨other, p, q, standsP, standsQ, rfl, rfl⟩
  · rfl
  · rw [Position.isBeyond, Position.isBeyond,
      alike.compare_eq direction standsP standsX standsQ standsY]

end Register

/-! ## Indexes with registers alike -/

namespace Contents.Coherent

variable [TransOrd K] {c e : Contents K V}

theorem size_eq_of_alike (h : c.Coherent) (g : e.Coherent) (alike : c.register.Alike e.register)
    : c.tree.size = e.tree.size := by
  rw [h.size_eq_ncard, g.size_eq_ncard, alike.records_eq]

/-- The leaves of the two trees go side by side. -/
theorem keyCount_eq_of_alike (h : c.Coherent) (g : e.Coherent)
    (alike : c.register.Alike e.register)
    : c.tree.keyCount = e.tree.keyCount := by
  have partner {a b : Contents K V} (ha : a.Coherent) (hb : b.Coherent)
      (alike : a.register.Alike b.register) (leaf : Leaf K V) (member : leaf ∈ a.tree.leaves)
      : ∃ other ∈ b.tree.leaves, compare leaf.key other.key = .eq := by
    rw [hb.exists_leaf_iff]
    obtain ⟨record, under⟩ := (ha.exists_leaf_iff leaf.key).mp ⟨leaf, member, ReflCmp.compare_self⟩
    exact ⟨record, alike.standsUnder_eq leaf.key record ▸ under⟩
  have sideBySide := forall₂_of_ascending compare (R := fun _ _ => True) h.tree.sorted g.tree.sorted
    (partner h g alike)
    (fun leaf member => by
      obtain ⟨other, found, near⟩ := partner g h alike.symm leaf member
      exact ⟨other, found, OrientedCmp.eq_symm near⟩)
    (fun _ _ _ _ _ => trivial)
  exact sideBySide.length_eq

variable {d : Descriptor K} {mine theirs : Option (Position K)}

/-- What remains in the one index has its counterpart in what remains in the other. -/
theorem exists_remaining_of_alike (h : c.Coherent) (g : e.Coherent)
    (alike : c.register.Alike e.register) (resumes : c.register.ResumesAlike e.register mine theirs)
    {x : Standing K V} (member : x ∈ c.remaining d mine)
    : ∃ y ∈ e.remaining d theirs, e.standing? x.entry.record = some y ∧ x.Alike y := by
  obtain ⟨stands, inside, due⟩ := h.mem_remaining_iff.mp member
  obtain ⟨y, standsY, related⟩ := exists_of_rel (alike.standing x.entry.record) stands
  have own := g.record_of_standing? standsY
  refine ⟨y, g.mem_remaining_iff.mpr ⟨own ▸ standsY, ?_, ?_⟩, standsY, related⟩
  · rw [← d.contains_congr related.key]
    exact inside
  · rw [← resumes.isBeyond_eq alike stands standsY]
    exact due

/-- What remains in the two indexes goes side by side: each row of the one is met where its
counterpart is in the other.
-/
theorem remaining_alike (h : c.Coherent) (g : e.Coherent) (alike : c.register.Alike e.register)
    (resumes : c.register.ResumesAlike e.register mine theirs)
    : List.Forall₂ Standing.Alike (c.remaining d mine) (e.remaining d theirs) := by
  have counterpart (y : Standing K V) (member : y ∈ e.remaining d theirs)
      : ∃ x ∈ c.remaining d mine, c.standing? y.entry.record = some x ∧ y.Alike x :=
    exists_remaining_of_alike g h alike.symm resumes.symm member
  -- The rows of the second index are compared where they stand in the first one.
  have settled {y x : Standing K V} (standsX : c.standing? y.entry.record = some x)
      : (c.settle y).position = x.position := by
    rw [settle, (standing?_eq_some_iff.mp standsX).1, Option.getD_some]
  refine forall₂_of_ascending (Position.compare d.direction) (f := (·.position))
    (g := fun y => (c.settle y).position) (h.sorted_remaining mine) ?_ ?_ ?_ ?_
  · refine (g.sorted_remaining theirs).imp_of_mem fun {a b} memberA memberB lt => ?_
    obtain ⟨x, _, standsX, _⟩ := counterpart a memberA
    obtain ⟨y, _, standsY, _⟩ := counterpart b memberB
    rw [settled standsX, settled standsY, ← lt]
    exact alike.compare_eq d.direction standsX standsY (g.mem_remaining_iff.mp memberA).1
      (g.mem_remaining_iff.mp memberB).1
  · intro x member
    obtain ⟨y, found, standsY, _⟩ := exists_remaining_of_alike h g alike resumes member
    refine ⟨y, found, ?_⟩
    rw [settled (g.record_of_standing? standsY ▸ (h.mem_remaining_iff.mp member).1)]
    exact ReflCmp.compare_self
  · intro y member
    obtain ⟨x, found, standsX, _⟩ := counterpart y member
    refine ⟨x, found, ?_⟩
    rw [settled standsX]
    exact ReflCmp.compare_self
  · intro x memberX y memberY same
    obtain ⟨other, found, standsX, related⟩ := counterpart y memberY
    rw [settled standsX] at same
    -- One position belongs to one record, so the row is the counterpart.
    have numbers := ((Position.compare_eq_iff d.direction).mp same).2
    have standsHere := (h.mem_remaining_iff.mp memberX).1
    have records := h.distinct _ _ _ _ (standing?_eq_some_iff.mp standsHere).1
      (standing?_eq_some_iff.mp standsX).1 numbers
    rw [records, standsX] at standsHere
    obtain rfl := Option.some.inj standsHere
    exact related.symm

end Contents.Coherent

end PagedIndex
