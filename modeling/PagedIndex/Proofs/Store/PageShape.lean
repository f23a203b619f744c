import PagedIndex.Proofs.Cursor.Token
import PagedIndex.Proofs.Store.PageChain

/-! The shape of paging. While nothing is written, the pages of a scan cut what it delivers into
pieces of the limit: as few as there can be, in order and without a gap, and only the last without
a cursor. It makes no difference whether cursors are handed on as they are or as tokens.
-/

namespace PagedIndex

open Std

variable {limit : Nat}

/-- Full pages and a last one that together make up a list of entries. -/
structure PageShape (limit : Nat) (entries : List (Entry V)) (full : List (Page V)) (last : Page V)
    : Prop where
  /-- There are as few pages as the limit allows, but one at least. -/
  count : full.length + 1 = max 1 (entries.length ⌈/⌉ limit)
  whole : (full ++ [last]).flatMap (·.entries) = entries
  filled
    : ∀ page ∈ full, page.entries.length = limit
        ∧ ∃ final, page.entries.getLast? = some final ∧ page.cursor = some final.cursor
  ended : last.cursor = none

namespace PageShape

variable {entries : List (Entry V)} {full : List (Page V)} {last : Page V}

/-- Entries that fit into one page make up that page. -/
theorem single (positive : 0 < limit) (fits : entries.length ≤ limit)
    : PageShape limit entries [] (.collect entries limit) where
  count := by
    have few : entries.length ⌈/⌉ limit ≤ 1 := by
      rw [ceilDiv_le_iff_le_mul positive, Nat.mul_one]
      exact fits
    rw [List.length_nil, max_eq_left few]
  whole := by simp [Page.collect, List.take_of_length_le fits]
  filled := by simp
  ended := by simp [Page.collect, List.drop_eq_nil_of_le fits]

/-- A full page goes before the pages of the entries that follow it. -/
theorem cons (positive : 0 < limit) (more : limit < entries.length)
    (rest : PageShape limit (entries.drop limit) full last)
    : PageShape limit entries (.collect entries limit :: full) last where
  count := by
    have further : entries.length ⌈/⌉ limit = (entries.length - limit) ⌈/⌉ limit + 1 := by
      have shift : entries.length + limit - 1 = entries.length - limit + limit - 1 + limit := by
        omega
      rw [Nat.ceilDiv_eq_add_pred_div, Nat.ceilDiv_eq_add_pred_div, shift,
        Nat.add_div_right _ positive]
    have left : 0 < (entries.length - limit) ⌈/⌉ limit := by
      rw [Nat.ceilDiv_eq_add_pred_div, Nat.div_pos_iff]
      omega
    have count := rest.count
    rw [List.length_drop] at count
    rw [List.length_cons, count]
    omega
  whole := by
    rw [List.cons_append, List.flatMap_cons, rest.whole]
    exact List.take_append_drop limit entries
  filled := by
    have size : (entries.take limit).length = limit := by
      rw [List.length_take]
      omega
    have follow : (entries.drop limit).isEmpty = false := by
      rw [List.isEmpty_eq_false_iff, ne_eq, List.drop_eq_nil_iff]
      omega
    obtain ⟨final, ended⟩ : ∃ final, (entries.take limit).getLast? = some final := by
      rw [← Option.isSome_iff_exists, List.getLast?_isSome, ← List.length_pos_iff, size]
      exact positive
    refine List.forall_mem_cons.mpr ⟨⟨size, final, ended, ?_⟩, rest.filled⟩
    simp [Page.collect, follow, ended]
  ended := rest.ended

end PageShape

namespace Contents.Coherent

variable [Ord K] [TransOrd K] {c : Contents K V} {d : Descriptor K}

/-- What remains beyond one of the rows that remain are those that follow it. -/
theorem remaining_after (h : c.Coherent) {resume : Option (Position K)}
    {before after : List (Standing K V)} {x : Standing K V}
    (split : c.remaining d resume = before ++ x :: after)
    : c.remaining d (some x.position) = after := by
  have sorted := h.sorted_remaining (d := d) resume
  rw [split] at sorted
  have member : x ∈ c.remaining d resume := by simp [split]
  have beyond := (h.mem_remaining_iff.mp member).2.2
  have narrower : c.remaining d (some x.position)
      = (c.remaining d resume).filter fun y =>
          y.position.isBeyond d.direction (some x.position) := by
    rw [remaining, remaining, List.filter_filter]
    refine List.filter_congr fun y _ => ?_
    rw [Bool.eq_iff_iff, Bool.and_eq_true, iff_self_and]
    intro later
    exact Position.isBeyond_of_lt beyond (Position.isBeyond_some_iff.mp later)
  rw [narrower, split, filter_isBeyond_append sorted]

end Contents.Coherent

namespace Store

variable [Ord K] {s : Store K V} {d : Descriptor K} {resume : Option (Position K)}

/-- Sending cursors through tokens changes nothing. -/
theorem pages_eq_pagesVia (s : Store K V) (d : Descriptor K) (limit count : Nat)
    : s.pages d limit count = s.pagesVia .ok d limit count := by
  have carries : (fun cursor : Cursor => Cursor.ofToken cursor.token) = .ok :=
    funext Cursor.ofToken_token
  rw [pages, carries]

/-- A page without a cursor ends a chain. -/
theorem pagesVia_ended {page : Page V} (answered : (s.page d limit).1 = .ok page)
    (ended : page.cursor = none) (count : Nat)
    : (s.pagesVia .ok d limit (count + 1)).1 = [.ok page] := by
  have outcome : s.page d limit = (.ok page, (s.page d limit).2) := Prod.ext answered rfl
  rw [pagesVia, outcome]
  simp only [ended]

/-- A page with a cursor goes before the pages that are resumed from the cursor. -/
theorem pagesVia_more {page : Page V} (answered : (s.page d limit).1 = .ok page)
    {cursor : Cursor} (more : page.cursor = some cursor) (count : Nat)
    : (s.pagesVia .ok d limit (count + 1)).1
      = .ok page :: ((s.page d limit).2.pagesVia .ok (d.resumed (some cursor)) limit count).1 := by
  have outcome : s.page d limit = (.ok page, (s.page d limit).2) := Prod.ext answered rfl
  rw [pagesVia, outcome]
  simp only [more]

variable [TransOrd K]

/-- A page of a valid scan collects what remains. -/
theorem page_answers (h : s.contents.Coherent) (valid : d.validate = .ok ())
    (resumes : s.Resumes d resume) (positive : 0 < limit)
    : (s.page d limit).1
      = .ok (.collect ((s.contents.remaining d resume).map (·.entry)) limit) := by
  obtain ⟨scan, opened, _, left⟩ := scan_entries h valid resumes
  have split : (s.scanEntries d).1 = (s.scan d).1.map (·.entries s.contents.tree) := by
    rw [← s.contents_scan d]
    rfl
  rw [opened] at split
  simp [Store.page, Nat.ne_of_gt positive, split, Except.map, left]

/-- The pages of a scan have the shape of what remains, by induction over its length: the scan that
the first page is followed by has less to deliver.
-/
theorem exists_pageShape (h : s.contents.Coherent) (closed : d.isOpenRange = false)
    (resumes : s.Resumes d resume) (positive : 0 < limit)
    : ∃ full last,
        PageShape limit ((s.contents.remaining d resume).map (·.entry)) full last
        ∧ ∀ count, (s.pagesVia .ok d limit count).1 = ((full ++ [last]).take count).map .ok := by
  induction size : (s.contents.remaining d resume).length using Nat.strong_induction_on
    generalizing s d resume with
  | h n ih =>
      subst size
      have valid : d.validate = .ok () := validate_resumed closed d.cursor
      have answered := page_answers h valid resumes positive
      cases cursor : (Page.collect ((s.contents.remaining d resume).map (·.entry)) limit).cursor with
      | none =>
          have fits := List.take_eq_self_iff _ |>.mp (Page.take_of_cursor_eq_none positive cursor)
          refine ⟨[], _, .single positive (by simpa using fits), fun count => ?_⟩
          cases count with
          | zero => rfl
          | succ count => simpa using pagesVia_ended answered cursor count
      | some following =>
          obtain ⟨before, final, page, rfl, split⟩ := Page.split_of_cursor_eq_some cursor
          have more : limit < ((s.contents.remaining d resume).map (·.entry)).length := by
            refine Nat.lt_of_not_le fun fits => ?_
            rw [(PageShape.single positive fits).ended] at cursor
            contradiction
          -- The cursor stands for where the page ends, so what follows the page remains.
          have member : final ∈ s.contents.remaining d resume :=
            split ▸ List.mem_append_right before List.mem_cons_self
          have stands := (h.mem_remaining_iff.mp member).1
          have left : (s.page d limit).2.contents.remaining (d.resumed (some final.entry.cursor))
              (some final.position) = (s.contents.remaining d resume).drop limit := by
            rw [contents_page]
            exact h.remaining_after split
          have resumed : (s.page d limit).2.Resumes (d.resumed (some final.entry.cursor))
              (some final.position) :=
            ⟨_, by rw [contents_page]; exact Contents.resolve_of_standing? stands, rfl⟩
          have coherent : (s.page d limit).2.contents.Coherent := by
            rw [contents_page]
            exact h
          have fewer : ((s.page d limit).2.contents.remaining (d.resumed (some final.entry.cursor))
              (some final.position)).length < (s.contents.remaining d resume).length := by
            rw [left, List.length_drop]
            rw [List.length_map] at more
            omega
          obtain ⟨full, last, shape, calls⟩ :=
            ih _ fewer coherent (d := d.resumed (some final.entry.cursor)) closed resumed rfl
          rw [left, List.map_drop] at shape
          refine ⟨_, last, .cons positive more shape, fun count => ?_⟩
          cases count with
          | zero => rfl
          | succ count =>
              rw [pagesVia_more answered cursor, calls count]
              rfl

/-- While nothing is written, a chain of pages of a range that is not open on both sides never
fails, from its near end or from any cursor that stands for a position. However many calls are
made, they go through one list of pages, in which only the last is without a cursor, and these cut
what the uninterrupted scan delivers. It is all the same whether cursors are sent through tokens.
-/
theorem paging_shape (h : s.Reachable) (closed : d.isOpenRange = false)
    (resolves : ∀ cursor ∈ d.cursor, (s.contents.locator.resolve cursor).isSome = true)
    (positive : 0 < limit)
    : ∃ entries full last, s.Delivers d entries ∧ PageShape limit entries full last
        ∧ ∀ count,
            (s.pagesVia .ok d limit count).1 = ((full ++ [last]).take count).map .ok
            ∧ (s.pages d limit count).1 = ((full ++ [last]).take count).map .ok := by
  have coherent := h.coherent
  obtain ⟨resume, resumes⟩ : ∃ resume, s.Resumes d resume := by
    unfold Resumes
    cases carried : d.cursor with
    | none => exact ⟨none, rfl⟩
    | some cursor =>
        obtain ⟨r, resolved⟩ := Option.isSome_iff_exists.mp (resolves cursor carried)
        exact ⟨some r.position, r, resolved, rfl⟩
  obtain ⟨full, last, shape, calls⟩ := exists_pageShape coherent closed resumes positive
  refine ⟨_, full, last, delivers coherent (validate_resumed closed d.cursor) resumes, shape, ?_⟩
  intro count
  rw [pages_eq_pagesVia]
  exact ⟨calls count, calls count⟩

/-- A store in which the first record is gone as well and another one has come. -/
def afterMore : Store Int String :=
  afterMoves.performAll [(.empty, .remove 5 ⟨[1]⟩), (.empty, .insert 9 ⟨⟨[4]⟩, "i"⟩)]

theorem afterMore_reachable : afterMore.Reachable := afterMoves_reachable.performAll _

/-- After the cursor of a record that is gone, two entries fill a page, and no empty one follows. -/
theorem afterMore_paged
    : (afterMore.contents.locator.resolve ⟨⟨[3]⟩⟩).isSome = true
      ∧ (∃ entries full last,
          afterMore.Delivers ((Descriptor.all .ascending).resumed (some ⟨⟨[3]⟩⟩)) entries
          ∧ PageShape 2 entries full last
          ∧ (afterMore.pages ((Descriptor.all .ascending).resumed (some ⟨⟨[3]⟩⟩)) 2 5).1
            = ((full ++ [last]).take 5).map .ok)
      ∧ (afterMore.pages ((Descriptor.all .ascending).resumed (some ⟨⟨[3]⟩⟩)) 2 5).1
        = [.ok ⟨[⟨⟨[2]⟩, "d"⟩, ⟨⟨[4]⟩, "i"⟩], none⟩] := by
  have resolved : (afterMore.contents.locator.resolve ⟨⟨[3]⟩⟩).isSome = true := by decide
  obtain ⟨entries, full, last, delivered, shape, calls⟩ :=
    paging_shape (d := (Descriptor.all .ascending).resumed (some ⟨⟨[3]⟩⟩)) afterMore_reachable rfl
      (fun cursor carried => Option.some.inj carried ▸ resolved) Nat.two_pos
  exact ⟨resolved, ⟨entries, full, last, delivered, shape, (calls 5).2⟩, rfl⟩

end Store

end PagedIndex
