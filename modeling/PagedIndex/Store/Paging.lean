import PagedIndex.Cursor.Token
import PagedIndex.Page
import PagedIndex.Store

/-! Paging through a scan, and chains of pages in which each page goes on where the one before
stopped.
-/

namespace PagedIndex

namespace Store

variable [Ord K]

/-- Up to `limit` entries of a scan and the cursor for the rest. The limit is checked before the
descriptor.
-/
def page (s : Store K V) (d : Descriptor K) (limit : Nat) : Except Fault (Page V) × Store K V :=
  if limit = 0 then (.error .zeroPageLimit, s.reject .zeroPageLimit)
  else
    let (entries, s) := s.scanEntries d
    (entries.map (Page.collect · limit), s)

/-- A page of the store's own size. -/
def defaultPage (s : Store K V) (d : Descriptor K) : Except Fault (Page V) × Store K V :=
  s.page d s.pageSize

/-- At most `count` pages of a scan, each resumed from the cursor of the page before as it arrives,
up to a page without a cursor or a fault.
-/
def pagesVia (s : Store K V) (carry : Cursor → Except Fault Cursor) (d : Descriptor K) (limit : Nat)
    : Nat → List (Except Fault (Page V)) × Store K V
  | 0 => ([], s)
  | count + 1 =>
    match s.page d limit with
    | (.error fault, s) => ([.error fault], s)
    | (.ok page, s) =>
      match page.cursor with
      | none => ([.ok page], s)
      | some cursor =>
        match carry cursor with
        | .error fault => ([.ok page, .error fault], s)
        | .ok cursor =>
          let (rest, s) := s.pagesVia carry (d.resumed (some cursor)) limit count
          (.ok page :: rest, s)

/-- Pages whose cursors travel as tokens. -/
def pages (s : Store K V) (d : Descriptor K) (limit count : Nat)
    : List (Except Fault (Page V)) × Store K V :=
  s.pagesVia (fun cursor => Cursor.ofToken cursor.token) d limit count

end Store

end PagedIndex
