import PagedIndex.Proofs.Contents.Moments
import PagedIndex.Proofs.Store.CursorLaw

/-! Chains of pages with writes in between. Each call finds its place by the cursor of the page
before, which stands for where that page ended for as long as its record is not put anywhere else.
So the chain only moves forward, and it misses nothing that stays in place.
-/

namespace PagedIndex

open Std

/-! ## Where a page ends -/

/-- A page without a cursor has all there is. -/
theorem Page.take_of_cursor_eq_none {rows : List (Standing K V)} {limit : Nat}
    (positive : 0 < limit) (ended : (collect (rows.map (·.entry)) limit).cursor = none)
    : rows.take limit = rows := by
  simp only [collect] at ended
  split at ended
  next nothing =>
    rw [List.isEmpty_iff, List.drop_eq_nil_iff, List.length_map] at nothing
    exact List.take_of_length_le nothing
  next =>
    rw [Option.map_eq_none_iff, List.getLast?_eq_none_iff, List.take_eq_nil_iff] at ended
    rcases ended with zero | empty
    · omega
    · rw [List.map_eq_nil_iff.mp empty, List.take_nil]

/-- The cursor of a page names the entry after which the page ends, and more follows there. -/
theorem Page.split_of_cursor_eq_some {rows : List (Standing K V)} {limit : Nat}
    {following : Cursor} (more : (collect (rows.map (·.entry)) limit).cursor = some following)
    : ∃ before last, rows.take limit = before ++ [last] ∧ following = last.entry.cursor
        ∧ rows = before ++ last :: rows.drop limit := by
  simp only [collect] at more
  split at more
  · contradiction
  · rw [← List.map_take, List.getLast?_map, Option.map_map, Option.map_eq_some_iff] at more
    obtain ⟨last, ended, rfl⟩ := more
    obtain ⟨before, page⟩ := List.getLast?_eq_some_iff.mp ended
    refine ⟨before, last, page, rfl, ?_⟩
    have whole := List.take_append_drop limit rows
    rw [page, List.append_assoc] at whole
    exact whole.symm

/-- A call in a chain of pages: what the store held, what it answered, and what was written after
it, before the next call.
-/
structure Turn (K : Type u) (V : Type v) where
  contents : Contents K V
  page : Page V
  writes : List (Write K V)

namespace Turn

def records (t : Turn K V) : List RecordKey := t.page.entries.map (·.record)

variable [Ord K]

/-- The contents from the call up to the next one. -/
def moments (t : Turn K V) : List (Contents K V) := t.contents.moments t.writes

/-- The entries of the page where they stood at the call. -/
def delivered (t : Turn K V) : List (Standing K V) :=
  t.page.entries.filterMap fun entry => t.contents.standing? entry.record

variable [TransOrd K] {c : Contents K V}

/-- A page delivers as much of what remains as it has room for. -/
theorem delivered_collect (h : c.Coherent) (d : Descriptor K) (resume : Option (Position K))
    (limit : Nat) (writes : List (Write K V))
    : (Turn.mk c (.collect ((c.remaining d resume).map (·.entry)) limit) writes).delivered
      = (c.remaining d resume).take limit := by
  unfold delivered Page.collect
  simp only [← List.map_take, List.filterMap_map]
  have found : ((c.remaining d resume).take limit).filterMap (fun x => c.standing? x.entry.record)
      = ((c.remaining d resume).take limit).map id := by
    refine List.filterMap_eq_map_iff_forall_eq_some.mpr fun x member => ?_
    exact (h.mem_remaining_iff.mp (List.mem_of_mem_take member)).1
  rw [List.map_id] at found
  exact found

theorem entries_collect (h : c.Coherent) (d : Descriptor K) (resume : Option (Position K))
    (limit : Nat) (writes : List (Write K V))
    : (Page.collect ((c.remaining d resume).map (·.entry)) limit).entries
      = (Turn.mk c (.collect ((c.remaining d resume).map (·.entry)) limit) writes).delivered.map
          (·.entry) := by
  rw [delivered_collect h, List.map_take]
  rfl

end Turn

namespace Store

variable [Ord K] {s : Store K V} {d : Descriptor K} {cursor : Option Cursor}
  {resume : Option (Position K)} {limit : Nat} {page : Page V} {turns : List (Turn K V)}

/-- A chain of pages of one range: every call is answered, each cursor is fed into the next call,
and the last page has none. Limits may differ, and between two calls anything may be written, but
the record of the cursor keeps its position or is removed and not brought back.
-/
inductive PageChain (d : Descriptor K) : Store K V → Option Cursor → List (Turn K V) → Prop
  | last {s : Store K V} {cursor : Option Cursor} {limit : Nat} {page : Page V}
      (answered : (s.page (d.resumed cursor) limit).1 = .ok page) (ended : page.cursor = none)
    : PageChain d s cursor [⟨s.contents, page, []⟩]
  | next {s : Store K V} {cursor : Option Cursor} {limit : Nat} {page : Page V} {following : Cursor}
      {writes : List (Holdings K V × Write K V)} {rest : List (Turn K V)}
      (answered : (s.page (d.resumed cursor) limit).1 = .ok page)
      (more : page.cursor = some following)
      (kept
        : ∀ p ∈ s.contents.locator.live? following.record,
            Contents.LivesOnlyAt (s.contents.moments (writes.map (·.2))) following.record p)
      (tail
        : PageChain d ((s.page (d.resumed cursor) limit).2.performAll writes) (some following) rest)
    : PageChain d s cursor (⟨s.contents, page, writes.map (·.2)⟩ :: rest)

/-- A chain goes on after a position: without a cursor from the start, else the cursor stands for
the position if it stands for any.
-/
def GoesOnAfter (s : Store K V) : Option Cursor → Option (Position K) → Prop
  | none, none => True
  | some cursor, some p =>
      ∀ r, s.contents.locator.resolve cursor = some r → p.compare .ascending r.position = .eq
  | _, _ => False

variable [TransOrd K]

/-- An answered page collects what is selected beyond the position that the chain goes on after. -/
theorem page_eq_collect (h : s.contents.Coherent) (after : s.GoesOnAfter cursor resume)
    (answered : (s.page (d.resumed cursor) limit).1 = .ok page)
    : 0 < limit
      ∧ page = .collect ((s.contents.remaining d resume).map (·.entry)) limit := by
  unfold Store.page at answered
  split at answered
  · contradiction
  next nonzero =>
    refine ⟨Nat.pos_of_ne_zero nonzero, ?_⟩
    cases entries : (s.scanEntries (d.resumed cursor)).1 with
    | error fault => simp [entries, Except.map] at answered
    | ok found =>
        simp only [entries] at answered
        obtain rfl := Except.ok.inj answered
        obtain ⟨other, resumes, rfl⟩ := scanEntries_ok h entries
        suffices same : s.contents.remaining (d.resumed cursor) other
            = s.contents.remaining d resume by
          simp only [same]
        by_cases nothing : d.isEmptyRange = true
        · have unselected := s.selection_of_isEmptyRange nothing
          rw [Contents.remaining, Contents.remaining, unselected]
          exact congrArg (List.filter _) unselected
        · have resumes := resumes (Bool.eq_false_iff.mpr nothing)
          refine List.filter_congr fun x _ => ?_
          cases cursor <;> cases resume
          · rw [show other = none from resumes]
            rfl
          · exact after.elim
          · exact after.elim
          · obtain ⟨r, resolved, rfl⟩ := resumes
            have here := Position.compare_eq_of_eq d.direction (after r resolved)
            exact (Position.isBeyond_congr_left here x.position).symm

/-! ## Through a chain -/

/-- From the first call of a chain to its last, a record lives at a position. -/
def KeepsPosition (turns : List (Turn K V)) (record : RecordKey) (p : Position K) : Prop :=
  ∀ t ∈ turns, ∀ m ∈ t.moments, ∃ q ∈ m.locator.live? record, p.compare .ascending q = .eq

omit [TransOrd K] in
instance (turns : List (Turn K V)) (record : RecordKey) (p : Position K)
    : Decidable (KeepsPosition turns record p) :=
  inferInstanceAs (Decidable (∀ t ∈ turns, ∀ m ∈ t.moments, ∃ q ∈ m.locator.live? record, _))

/-- A chain moves forward beyond a position and misses nothing on its way. -/
structure Advances (d : Descriptor K) (resume : Option (Position K)) (turns : List (Turn K V))
    : Prop where
  /-- Every page consists of entries that stood in the range, beyond the position. -/
  entries : ∀ t ∈ turns, t.page.entries = t.delivered.map (·.entry)
  stands : ∀ t ∈ turns, ∀ x ∈ t.delivered, x ∈ t.contents.remaining d resume
  coherent : ∀ t ∈ turns, t.contents.Coherent
  forward
    : (turns.flatMap Turn.delivered).Pairwise fun a b =>
        a.position.compare d.direction b.position = .lt
  /-- What keeps a position in the range, beyond where the chain goes on, is delivered once. -/
  complete
    : ∀ record p, d.contains p.key = true → p.isBeyond d.direction resume = true
        → KeepsPosition turns record p → (turns.flatMap Turn.records).count record = 1

namespace Advances

omit [TransOrd K] in
theorem records_eq {t : Turn K V} (entries : t.page.entries = t.delivered.map (·.entry))
    : t.records = t.delivered.map (·.entry.record) := by
  rw [Turn.records, entries, List.map_map]
  rfl

/-- A chain ends with all that remains. -/
theorem last {t : Turn K V} (h : t.contents.Coherent)
    (entries : t.page.entries = t.delivered.map (·.entry))
    (whole : t.delivered = t.contents.remaining d resume)
    : Advances d resume [t] := by
  refine {
    entries := by simpa using entries
    stands := by simp [whole]
    coherent := by simpa using h
    forward := by simpa [whole] using h.sorted_remaining resume
    complete := ?_
  }
  intro record p inside beyond kept
  obtain ⟨q, live, same⟩ := kept t (by simp) t.contents (t.contents.first_mem_moments t.writes)
  obtain ⟨x, member, rfl, _⟩ := h.exists_remaining live same inside beyond
  have listed := List.mem_map_of_mem (f := (·.entry.record)) member
  simpa [records_eq entries, whole] using
    List.count_eq_one_of_mem (h.single_remaining resume) listed

/-- What a chain delivers lies beyond the position that it goes on after. -/
theorem further {p : Position K} (h : Advances d (some p) turns) {t : Turn K V} (found : t ∈ turns)
    {x : Standing K V} (member : x ∈ t.delivered)
    : p.compare d.direction x.position = .lt := by
  have remains := (h.coherent t found).mem_remaining_iff.mp (h.stands t found x member)
  exact Position.isBeyond_some_iff.mp remains.2.2

/-- So it lies beyond whatever the position itself lies beyond. -/
theorem stands_beyond {p : Position K} (h : Advances d (some p) turns)
    (beyond : p.isBeyond d.direction resume = true)
    : ∀ t ∈ turns, ∀ x ∈ t.delivered, x ∈ t.contents.remaining d resume := by
  intro t found x member
  have coherent := h.coherent t found
  obtain ⟨stands, inside, _⟩ := coherent.mem_remaining_iff.mp (h.stands t found x member)
  have due := Position.isBeyond_of_lt beyond (h.further found member)
  exact coherent.mem_remaining_iff.mpr ⟨stands, inside, due⟩

/-- A record that keeps a position which the chain has passed is not delivered any more: it would
have to stand beyond.
-/
theorem count_eq_zero {p q : Position K} (h : Advances d (some q) turns) {record : RecordKey}
    (kept : KeepsPosition turns record p) (passed : (p.compare d.direction q).isLE = true)
    : (turns.flatMap Turn.records).count record = 0 := by
  refine List.count_eq_zero.mpr fun again => ?_
  obtain ⟨t, found, there⟩ := List.mem_flatMap.mp again
  rw [records_eq (h.entries t found)] at there
  obtain ⟨x, member, rfl⟩ := List.mem_map.mp there
  obtain ⟨_, lives, same⟩ := kept t found t.contents (t.contents.first_mem_moments t.writes)
  have remains := (h.coherent t found).mem_remaining_iff.mp (h.stands t found x member)
  rw [(Contents.standing?_eq_some_iff.mp remains.1).1] at lives
  obtain rfl := Option.some.inj lives
  have beyond := TransCmp.lt_of_isLE_of_lt passed (h.further found member)
  rw [Position.compare_eq_of_eq d.direction same] at beyond
  contradiction

/-- A page that ends with a row goes before a chain that goes on after this row. -/
theorem next {t : Turn K V} {rest : List (Turn K V)} {before after : List (Standing K V)}
    {final : Standing K V} (h : t.contents.Coherent)
    (entries : t.page.entries = t.delivered.map (·.entry))
    (page : t.delivered = before ++ [final])
    (split : t.contents.remaining d resume = before ++ final :: after)
    (tail : Advances d (some final.position) rest)
    : Advances d resume (t :: rest) := by
  rw [List.append_cons, ← page] at split
  have sorted := h.sorted_remaining (d := d) resume
  rw [split, List.pairwise_append] at sorted
  obtain ⟨front, _, ahead⟩ := sorted
  have onPage : final ∈ t.delivered := by simp [page]
  have upTo : ∀ x ∈ t.delivered, (x.position.compare d.direction final.position).isLE = true := by
    intro x member
    rw [page] at member front
    rcases List.mem_append.mp member with earlier | last
    · simp [(List.pairwise_append.mp front).2.2 x earlier final (by simp)]
    · simp [List.mem_singleton.mp last, ReflCmp.compare_self]
  have remains : ∀ x ∈ t.delivered, x ∈ t.contents.remaining d resume := fun x member =>
    split ▸ List.mem_append_left after member
  have finalBeyond := (h.mem_remaining_iff.mp (remains final onPage)).2.2
  refine {
    entries := List.forall_mem_cons.mpr ⟨entries, tail.entries⟩
    stands := List.forall_mem_cons.mpr ⟨remains, tail.stands_beyond finalBeyond⟩
    coherent := List.forall_mem_cons.mpr ⟨h, tail.coherent⟩
    forward := ?_
    complete := ?_
  }
  · rw [List.flatMap_cons, List.pairwise_append]
    refine ⟨front, tail.forward, fun x member y later => ?_⟩
    obtain ⟨u, found, there⟩ := List.mem_flatMap.mp later
    exact TransCmp.lt_of_isLE_of_lt (upTo x member) (tail.further found there)
  · intro record p inside beyond kept
    have keptLater : KeepsPosition rest record p := fun u member =>
      kept u (List.mem_cons_of_mem t member)
    obtain ⟨q, live, same⟩ := kept t (by simp) t.contents (t.contents.first_mem_moments t.writes)
    obtain ⟨x, member, rfl, rfl⟩ := h.exists_remaining live same inside beyond
    have sameHere := Position.compare_eq_of_eq d.direction same
    -- The record is either on this page or among what remains after it, and not in both.
    have once := List.count_eq_one_of_mem (h.single_remaining resume)
      (List.mem_map_of_mem (f := (·.entry.record)) member)
    rw [split, List.map_append, List.count_append, ← records_eq entries] at once
    rw [List.flatMap_cons, List.count_append]
    rw [split] at member
    rcases List.mem_append.mp member with here | later
    · have delivered : 0 < t.records.count x.entry.record := by
        rw [records_eq entries]
        exact List.count_pos_iff.mpr (List.mem_map_of_mem (f := (·.entry.record)) here)
      have passed : (p.compare d.direction final.position).isLE = true := by
        rw [TransCmp.congr_left sameHere]
        exact upTo x here
      have nowhere := tail.count_eq_zero keptLater passed
      omega
    · have left : 0 < (after.map (·.entry.record)).count x.entry.record :=
        List.count_pos_iff.mpr (List.mem_map_of_mem (f := (·.entry.record)) later)
      have due : p.isBeyond d.direction (some final.position) = true := by
        rw [Position.isBeyond_congr sameHere]
        exact Position.isBeyond_some_iff.mpr (ahead final onPage x later)
      have delivered := tail.complete x.entry.record p inside due keptLater
      omega

end Advances

/-- A chain delivers in every page what remains beyond the page before, by induction over its
calls.
-/
theorem PageChain.advances (chain : PageChain d s cursor turns) (h : s.contents.Coherent)
    (after : s.GoesOnAfter cursor resume)
    : Advances d resume turns := by
  induction chain generalizing resume with
  | last answered ended =>
      obtain ⟨positive, rfl⟩ := page_eq_collect h after answered
      refine .last h (Turn.entries_collect h d resume _ _) ?_
      rw [Turn.delivered_collect h]
      exact Page.take_of_cursor_eq_none positive ended
  | @next s cursor limit page following writes rest answered more kept tail ih =>
      obtain ⟨positive, rfl⟩ := page_eq_collect h after answered
      obtain ⟨before, final, page, rfl, split⟩ := Page.split_of_cursor_eq_some more
      have written : ((s.page (d.resumed cursor) limit).2.performAll writes).contents
          = s.contents.performAll (writes.map (·.2)) := by
        rw [contents_performAll, contents_page]
      have live : s.contents.locator.live? final.entry.record = some final.position := by
        have member : final ∈ s.contents.remaining d resume := by
          rw [split]
          simp
        exact (Contents.standing?_eq_some_iff.mp (h.mem_remaining_iff.mp member).1).1
      -- The cursor names the last row of the page, and after the writes it still stands for that
      -- position.
      refine .next h (Turn.entries_collect h d resume _ _) ?_ split ?_
      · rw [Turn.delivered_collect h]
        exact page
      · refine ih (written ▸ h.performAll _) fun r resolved => ?_
        rw [written] at resolved
        exact h.resolve_performAll live (kept _ live) resolved

/-- However writes and calls alternate, the entries that a chain of pages delivers stood in its
range when they were delivered, their positions advance strictly over the whole chain, and whatever
keeps one position in the range from the first call to the last is delivered exactly once.
-/
theorem pages_amid_writes (h : s.Reachable) (chain : PageChain d s none turns)
    : (∀ t ∈ turns, t.page.entries = t.delivered.map (·.entry)
          ∧ ∀ x ∈ t.delivered, t.contents.standing? x.entry.record = some x
            ∧ d.contains x.position.key = true)
      ∧ (turns.flatMap Turn.delivered).Pairwise
          (fun a b => a.position.compare d.direction b.position = .lt)
      ∧ ∀ record p, d.contains p.key = true → KeepsPosition turns record p
          → (turns.flatMap Turn.records).count record = 1 := by
  have advances : Advances d none turns := chain.advances h.coherent trivial
  refine ⟨fun t member => ⟨advances.entries t member, fun x there => ?_⟩, advances.forward, ?_⟩
  · have remains := advances.stands t member x there
    obtain ⟨stands, inside, _⟩ := (advances.coherent t member).mem_remaining_iff.mp remains
    exact ⟨stands, inside⟩
  · exact fun record p inside kept => advances.complete record p inside rfl kept

/-- The record of the first page is removed and another one put after it before the second page. -/
theorem afterMoves_pages
    : ∃ turns, PageChain (.all .ascending) afterMoves none turns
        ∧ turns.map Turn.records = [[⟨[1]⟩], [⟨[4]⟩, ⟨[2]⟩]]
        ∧ KeepsPosition turns ⟨[2]⟩ ⟨7, 4⟩
        ∧ (turns.flatMap Turn.records).count ⟨[2]⟩ = 1 := by
  have first : (afterMoves.page ((Descriptor.all .ascending).resumed none) 1).1
      = .ok ⟨[⟨⟨[1]⟩, "c"⟩], some ⟨⟨[1]⟩⟩⟩ := rfl
  have second : (((afterMoves.page ((Descriptor.all .ascending).resumed none) 1).2.performAll
      [(.empty, .remove 5 ⟨[1]⟩), (.empty, .insert 6 ⟨⟨[4]⟩, "f"⟩)]).page
        ((Descriptor.all .ascending).resumed (some ⟨⟨[1]⟩⟩)) 5).1
      = .ok ⟨[⟨⟨[4]⟩, "f"⟩, ⟨⟨[2]⟩, "d"⟩], none⟩ := rfl
  have chain := PageChain.next first rfl (by decide) (.last second rfl)
  refine ⟨_, chain, rfl, by decide, ?_⟩
  exact (pages_amid_writes afterMoves_reachable chain).2.2 ⟨[2]⟩ ⟨7, 4⟩ rfl (by decide)

end Store

end PagedIndex
