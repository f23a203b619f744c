import PagedIndex.Proofs.Store.Selection

/-! The cursor law. A scan that resumes after a cursor delivers what the same scan without the
cursor has beyond the position of the cursor, wherever that position lies and whether or not its
record is still there.
-/

namespace PagedIndex

open Std

variable [Ord K] [TransOrd K] {direction : Direction} {rows : List (Standing K V)}

/-! ## Splitting what advances at a position -/

/-- In rows that advance, those beyond one of them are those that follow it. -/
theorem filter_isBeyond_append {before after : List (Standing K V)} {x : Standing K V}
    (sorted : (before ++ x :: after).Pairwise fun a b =>
      a.position.compare direction b.position = .lt)
    : (before ++ x :: after).filter (fun y => y.position.isBeyond direction (some x.position))
      = after := by
  rw [List.pairwise_append, List.pairwise_cons] at sorted
  obtain ⟨_, ⟨later, _⟩, earlier⟩ := sorted
  rw [List.filter_append, List.filter_cons_of_neg, List.filter_eq_nil_iff.mpr, List.nil_append,
    List.filter_eq_self]
  · exact fun y follows => Position.isBeyond_some_iff.mpr (later y follows)
  · intro y precedes
    rw [Position.isBeyond_some_iff, OrientedCmp.gt_of_lt (earlier y precedes x (by simp))]
    simp
  · simp [Position.isBeyond, ReflCmp.compare_self]

theorem filter_isBeyond_getElem?
    (sorted : rows.Pairwise fun a b => a.position.compare direction b.position = .lt) {i : Nat}
    {x : Standing K V} (found : rows[i]? = some x)
    : rows.filter (fun y => y.position.isBeyond direction (some x.position))
      = rows.drop (i + 1) := by
  obtain ⟨bound, here⟩ := List.getElem?_eq_some_iff.mp found
  have split : rows = rows.take i ++ x :: rows.drop (i + 1) := by
    rw [← here, List.cons_getElem_drop_succ, List.take_append_drop]
  have beyond := filter_isBeyond_append (split ▸ sorted)
  rwa [← split] at beyond

/-- Descending travel has left what ascending travel has passed. -/
theorem isBeyond_descending (p q : Position K)
    : q.isBeyond .descending (some p) = (p.compare .ascending q).isGT := by
  rw [OrientedCmp.isGT_eq_isLT]
  rfl

/-- Rows that ascend fall into those before a position, those at it and those after it. -/
theorem split_at_position
    (sorted : rows.Pairwise fun a b => a.position.compare .ascending b.position = .lt)
    (p : Position K)
    : rows.filter (fun x => x.position.isBeyond .descending (some p))
        ++ (rows.filter (fun x => (p.compare .ascending x.position).isEq)
        ++ rows.filter (fun x => x.position.isBeyond .ascending (some p)))
      = rows := by
  simp only [isBeyond_descending]
  simp only [Position.isBeyond]
  induction rows with
  | nil => rfl
  | cons x rest ih =>
      obtain ⟨later, tail⟩ := List.pairwise_cons.mp sorted
      -- Behind a row that is not before the position, every row is beyond it.
      have beyond (reached : (p.compare .ascending x.position).isLE = true)
          : rest.filter (fun y => (p.compare .ascending y.position).isGT) = []
            ∧ rest.filter (fun y => (p.compare .ascending y.position).isEq) = []
            ∧ rest.filter (fun y => (p.compare .ascending y.position).isLT) = rest := by
        have lt : ∀ y ∈ rest, p.compare .ascending y.position = .lt :=
          fun y member => TransCmp.lt_of_isLE_of_lt reached (later y member)
        refine ⟨List.filter_eq_nil_iff.mpr ?_, List.filter_eq_nil_iff.mpr ?_,
          List.filter_eq_self.mpr ?_⟩
        all_goals
          intro y member
          simp [lt y member]
      cases order : p.compare .ascending x.position with
      | gt => simpa [order] using ih tail
      | eq =>
          obtain ⟨before, here, after⟩ := beyond (by simp [order])
          simp [order, before, here, after]
      | lt =>
          obtain ⟨before, here, after⟩ := beyond (by simp [order])
          simp [order, before, here, after]

/-- At most one of several rows that ascend stands at a position. -/
theorem length_at_position_le
    (sorted : rows.Pairwise fun a b => a.position.compare .ascending b.position = .lt)
    (p : Position K)
    : (rows.filter fun x => (p.compare .ascending x.position).isEq).length ≤ 1 := by
  have standing : ∀ x ∈ rows.filter (fun x => (p.compare .ascending x.position).isEq),
      p.compare .ascending x.position = .eq := fun x member => by
    simpa using (List.mem_filter.mp member).2
  have filtered := sorted.filter fun x => (p.compare .ascending x.position).isEq
  cases here : rows.filter fun x => (p.compare .ascending x.position).isEq with
  | nil => simp
  | cons x rest =>
      cases rest with
      | nil => simp
      | cons y others =>
          rw [here] at standing filtered
          have order := (List.pairwise_cons.mp filtered).1 y (by simp)
          rw [← TransCmp.congr_left (standing x (by simp)), standing y (by simp)] at order
          contradiction

namespace Store

variable {s : Store K V} {d : Descriptor K}

omit [Ord K] [TransOrd K] in
/-- A descriptor that is not open on both sides is valid with any cursor and without one. -/
theorem validate_resumed (closed : d.isOpenRange = false) (cursor : Option Cursor)
    : (d.resumed cursor).validate = .ok () := by
  have kept : (d.resumed cursor).isOpenRange = false := closed
  simp [Descriptor.validate, kept]

/-- Without a cursor everything that is selected is delivered. -/
theorem delivers_selection (h : s.contents.Coherent) (closed : d.isOpenRange = false)
    : s.Delivers (d.resumed none) ((s.contents.selection d).map (·.entry)) := by
  have resumes : s.Resumes (d.resumed none) none := rfl
  have whole := delivers h (validate_resumed closed none) resumes
  rw [Contents.remaining_none] at whole
  exact whole

/-- Resuming after a cursor delivers what is selected beyond its position. -/
theorem delivers_resumed (h : s.contents.Coherent) (closed : d.isOpenRange = false)
    {cursor : Cursor} {r : Resolution K} (resolved : s.contents.locator.resolve cursor = some r)
    : s.Delivers (d.resumed (some cursor))
        ((s.contents.remaining d (some r.position)).map (·.entry)) :=
  delivers h (validate_resumed closed _) (d := d.resumed (some cursor)) ⟨r, resolved, rfl⟩

/-- Whatever a cursor stands for, live or retired and in the range or not, the scan that resumes
after it delivers what the scan without it delivers, as far as it stands beyond the cursor. After a
delivered entry this is all that follows it, and both directions together give all but what stands
at the position itself.
-/
theorem cursor_law (h : s.Reachable) (closed : d.isOpenRange = false) {cursor : Cursor}
    {r : Resolution K} (resolved : s.contents.locator.resolve cursor = some r)
    : s.Delivers (d.resumed none) ((s.contents.selection d).map (·.entry))
      ∧ s.Delivers (d.resumed (some cursor))
          (((s.contents.selection d).filter fun x =>
            (r.position.compare d.direction x.position).isLT).map (·.entry))
      ∧ (∀ i x, (s.contents.selection d)[i]? = some x
          → s.Delivers (d.resumed (some x.entry.cursor))
              (((s.contents.selection d).drop (i + 1)).map (·.entry)))
      ∧ ∃ earlier here later,
          s.Delivers ({ d with direction := .descending }.resumed (some cursor))
            (earlier.reverse.map (·.entry))
          ∧ s.Delivers ({ d with direction := .ascending }.resumed (some cursor))
            (later.map (·.entry))
          ∧ s.contents.selection { d with direction := .ascending } = earlier ++ here ++ later
          ∧ here.length ≤ 1
          ∧ ∀ x ∈ here, r.position.compare .ascending x.position = .eq := by
  have coherent := h.coherent
  refine ⟨delivers_selection coherent closed, delivers_resumed coherent closed resolved, ?_, ?_⟩
  · intro i x found
    have suffix := delivers_resumed coherent closed
      (coherent.resolve_selected (List.mem_of_getElem? found))
    rw [← filter_isBeyond_getElem? coherent.sorted_selection found]
    exact suffix
  · have sorted := coherent.sorted_selection (d := { d with direction := .ascending })
    have down :=
      delivers_resumed (d := { d with direction := .descending }) coherent closed resolved
    have up := delivers_resumed (d := { d with direction := .ascending }) coherent closed resolved
    refine ⟨(s.contents.selection { d with direction := .ascending }).filter fun x =>
        x.position.isBeyond .descending (some r.position), _, _, ?_, up, ?_,
      length_at_position_le sorted r.position, ?_⟩
    · rw [← List.filter_reverse]
      exact down
    · rw [List.append_assoc]
      exact (split_at_position sorted r.position).symm
    · intro x member
      simpa using (List.mem_filter.mp member).2

/-- The third record is gone, and its cursor still resumes from where it stood. -/
theorem afterMoves_resumed
    : afterMoves.contents.locator.resolve ⟨⟨[3]⟩⟩ = some (.retired ⟨5, 5⟩)
      ∧ afterMoves.Delivers ((Descriptor.all .ascending).resumed (some ⟨⟨[3]⟩⟩))
          [⟨⟨[2]⟩, "d"⟩] := by
  have resolved : afterMoves.contents.locator.resolve ⟨⟨[3]⟩⟩ = some (.retired ⟨5, 5⟩) := by decide
  have law := cursor_law afterMoves_reachable (d := .all .ascending) rfl resolved
  refine ⟨resolved, ?_⟩
  have beyond := law.2.1
  rw [Contents.selection, afterMoves_reachable.coherent.standings_eq] at beyond
  exact beyond

end Store

end PagedIndex
